import FlowTrace.Navigator.Source

/-!
# The sliding window

A navigator that keeps at most one value more than the size of its window.  The additional value is
only there to know whether a further step exists.  Going forward at the edge of the window drops
the oldest value, which cannot be reached again.
-/

namespace FlowTrace

/-- A position in a window over a source. -/
structure Window (σ α : Type) where
  source : σ
  /-- Whether the end of the source was met. -/
  exhausted : Bool
  /-- The values that are kept. -/
  values : List α
  index : Nat
  /-- How many values can be navigated. -/
  usable : Nat
  /-- How many values were dropped. -/
  dropped : Nat

namespace Window

variable {σ α : Type}

/-- The size asked for; sizes below one count as one. -/
def wantedSize (size : Int) : Nat := max 1 size.toNat

/-- A window at the start of a source. -/
def ofSource [Source σ α] (source : σ) (size : Int) : Window σ α :=
  let wanted := wantedSize size
  let (values, source, exhausted) := Source.pull (wanted + 1) source
  { source, exhausted, values, index := 0, usable := min values.length wanted, dropped := 0 }

/-- The number of values kept; it never changes. -/
def capacity (w : Window σ α) : Nat := w.values.length

/-- The number of values taken from the source. -/
def pulled (w : Window σ α) : Nat := w.dropped + w.capacity

def current? (w : Window σ α) : Option α := w.values[w.index]?

def hasNext (w : Window σ α) : Bool :=
  w.index + 1 < w.capacity || (w.index + 1 == w.capacity && !w.exhausted)

def hasPrevious (w : Window σ α) : Bool := 0 < w.index

/-- Move the window on by one value, or step to the last value if there is no further one. -/
def advance [Source σ α] (w : Window σ α) : Window σ α :=
  match Source.next? w.source with
  | none => { w with exhausted := true, index := w.index + 1 }
  | some (a, source) =>
    { w with source, values := w.values.tail ++ [a], dropped := w.dropped + 1 }

def next [Source σ α] (w : Window σ α) : Window σ α :=
  if w.capacity ≤ w.index then w
  else if w.index + 1 == w.usable && !w.exhausted then w.advance
  else { w with index := w.index + 1 }

def previous (w : Window σ α) : Window σ α := { w with index := w.index - 1 }

end Window

end FlowTrace
