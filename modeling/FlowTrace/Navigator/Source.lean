/-!
# Sources

A source produces its values one at a time, when asked.
-/

namespace FlowTrace

/-- A state `σ` that produces values of type `α`. -/
class Source (σ : Type) (α : outParam Type) where
  /-- The next value, and the source after it; `none` at the end. -/
  next? : σ → Option (α × σ)
  /-- An upper bound on the number of values to come. -/
  bound : σ → Nat

namespace Source

variable {σ α : Type} [Source σ α]

/-- Up to `n` values, the source after them, and whether its end was met. -/
def pull : Nat → σ → List α × σ × Bool
  | 0, s => ([], s, false)
  | n + 1, s =>
    match next? s with
    | none => ([], s, true)
    | some (a, s) =>
      let (as, s, ended) := pull n s
      (a :: as, s, ended)

instance {β : Type} : Source (List β) β where
  next?
    | [] => none
    | b :: bs => some (b, bs)
  bound := List.length

end Source

end FlowTrace
