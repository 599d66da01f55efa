import IntervalFlow.Trace.Tracer

/-!
# Sessions

What lasts from one request to the next: the settings, the nesting of tracers, and what happens only
once.
-/

namespace IntervalFlow

structure Session where
  environment : Environment
  nesting : Nesting
  /-- Whether the limit on visits was read, which reports a faulty setting once. -/
  limitRead : Bool
  /-- Whether a logger was installed, which succeeds once. -/
  loggerInstalled : Bool

namespace Session

def start (environment : Environment) : Session :=
  ⟨environment, ⟨!environment.isParallel, 0⟩, false, false⟩

def visitLimit (s : Session) : Option Nat := s.environment.visitLimit.1

/-- The events of reading the limit on visits. -/
def limitEvents (s : Session) : List Event :=
  if s.limitRead then []
  else match s.environment.visitLimit.2 with
    | some (text, fault) => [.limitIgnored text fault]
    | none => []

def readLimit (s : Session) : Session := { s with limitRead := true }

/-- Installs a logger, and tells whether that was possible. -/
def installLogger (s : Session) : Session × Bool :=
  ({ s with loggerInstalled := true }, !s.loggerInstalled)

end Session

end IntervalFlow
