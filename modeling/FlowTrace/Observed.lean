import FlowTrace.Program.Basic

/-!
# Observed tables

A table from nodes to facts that keeps track of which entries were looked at and which were changed
since the last reset.
-/

namespace FlowTrace

/-- A fact with its marks. -/
structure Cell (α : Type) where
  value : α
  lookedAt : Bool
  changed : Bool
deriving DecidableEq, Repr

/-- A fact without marks. -/
def Cell.fresh {α : Type} (value : α) : Cell α := ⟨value, false, false⟩

/-- Facts of nodes with their marks. -/
abbrev Observed (α : Type) := Table NodeId (Cell α)

namespace Observed

variable {α : Type}

def ofTable (t : Table NodeId α) : Observed α := t.mapEntries fun _ v => .fresh v

/-- The fact of a node, without marking it. -/
def peek? (s : Observed α) (n : NodeId) : Option α := (s.get? n).map (·.value)

/-- Mark a node as looked at. -/
def look (s : Observed α) (n : NodeId) : Observed α :=
  s.modify n fun c => { c with lookedAt := true }

/-- The fact of a node, which is marked as looked at. -/
def read? (s : Observed α) (n : NodeId) : Option (α × Observed α) :=
  (s.peek? n).map (·, s.look n)

/-- Replace the fact of a node.  It is marked as changed, and `true` is returned, if the new fact
is not the same as the old. -/
def replace? (same : α → α → Bool) (s : Observed α) (n : NodeId) (f : α → α) :
    Option (Bool × Observed α) :=
  (s.peek? n).map fun old =>
    let new := f old
    let isNew := !same old new
    (isNew, s.modify n fun c => { c with value := new, changed := c.changed || isNew })

/-- Take all marks away. -/
def reset (s : Observed α) : Observed α := s.mapEntries fun _ c => .fresh c.value

end Observed

end FlowTrace
