import IntervalFlow.Json.Graph
import IntervalFlow.Json.Reader
import IntervalFlow.Json.Writer
import IntervalFlow.Proofs.Effect.Write
import IntervalFlow.Proofs.Failure
import IntervalFlow.Proofs.Fixpoint.Acyclic
import IntervalFlow.Proofs.Fixpoint.CountedLoop
import IntervalFlow.Proofs.Fixpoint.Length
import IntervalFlow.Proofs.Fixpoint.Termination
import IntervalFlow.Proofs.Graph.Description
import IntervalFlow.Proofs.Interval.Meet
import IntervalFlow.Proofs.Interval.Undefined
import IntervalFlow.Proofs.Json.Format
import IntervalFlow.Proofs.Soundness
import IntervalFlow.Proofs.Store
import IntervalFlow.Proofs.Trace.Merge
import IntervalFlow.Proofs.Trace.Nesting
import IntervalFlow.Session
import IntervalFlow.Trace.Evaluation
