import IntervalFlow.Trace.Event

/-!
# Tracers

Reports that belong together are put between an opening and a closing line. Tracers nest: one that
is opened while another is open is indented a level deeper. Evaluations that run at the same time
have no order to nest by, so their tracers have no level and write nothing.
-/

namespace IntervalFlow

/-- How deep tracers are nested at the moment. -/
structure Nesting where
  /-- Whether tracers are given levels. -/
  enabled : Bool
  depth : Nat
  deriving DecidableEq

structure Tracer where
  title : String
  level : Option Nat
  notes : Nat
  deriving DecidableEq

namespace Nesting

def enter (n : Nesting) (title : String) : Nesting × Tracer :=
  if n.enabled then (⟨n.enabled, n.depth + 1⟩, ⟨title, some n.depth, 0⟩) else (n, ⟨title, none, 0⟩)

/-- Only the deepest tracer gives its level free when it is closed. -/
def leave (n : Nesting) (tracer : Tracer) : Nesting :=
  match tracer.level with
  | some level => if n.depth = level + 1 then ⟨n.enabled, level⟩ else n
  | none => n

end Nesting

namespace Tracer

def note (t : Tracer) : Tracer := ⟨t.title, t.level, t.notes + 1⟩

def openEvents (t : Tracer) : List Event := t.level.toList.map (.opened · t.title)

def noteEvents (t : Tracer) (text : String) : List Event := t.level.toList.map (.noted · text)

def closeEvents (t : Tracer) : List Event := t.level.toList.map (.closed · t.title t.notes)

end Tracer

end IntervalFlow
