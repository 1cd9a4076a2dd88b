import FlowTrace.Navigator.Source

/-!
# The navigator that keeps everything

A navigator that never drops a value and takes values from its source only when they are needed.
-/

namespace FlowTrace

/-- A position among all values taken from a source so far. -/
structure Memo (σ α : Type) where
  source : σ
  /-- Whether the end of the source was met. -/
  exhausted : Bool
  values : List α
  index : Nat

namespace Memo

variable {σ α : Type}

/-- Take values until there are `count`, as far as the source has them. -/
def fill [Source σ α] (m : Memo σ α) (count : Nat) : Memo σ α :=
  if m.exhausted then m
  else
    let (values, source, exhausted) := Source.pull (count - m.values.length) m.source
    { m with source, exhausted, values := m.values ++ values }

def ofSource [Source σ α] (source : σ) : Memo σ α :=
  fill { source, exhausted := false, values := [], index := 0 } 1

/-- The number of values taken from the source. -/
def pulled (m : Memo σ α) : Nat := m.values.length

def current? (m : Memo σ α) : Option α := m.values[m.index]?

/-- Whether there is a next value; it is taken from the source to find out. -/
def hasNext [Source σ α] (m : Memo σ α) : Bool × Memo σ α :=
  let m := m.fill (m.index + 2)
  (m.index + 1 < m.values.length, m)

def hasPrevious (m : Memo σ α) : Bool := 0 < m.index

def next [Source σ α] (m : Memo σ α) : Memo σ α :=
  if m.values.length ≤ m.index then m
  else
    let m := m.fill (m.index + 2)
    { m with index := m.index + 1 }

def previous (m : Memo σ α) : Memo σ α := { m with index := m.index - 1 }

end Memo

end FlowTrace
