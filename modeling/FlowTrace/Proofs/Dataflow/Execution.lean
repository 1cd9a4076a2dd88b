import FlowTrace.Proofs.Dataflow.Knowledge

/-!
# Constant propagation is sound

Assignments are executed along a path of a graph, each one overwriting its target.  A result is
undefined if an operand is, or if an operator has no value.  Whatever path leads to a node, what
constant propagation knows there agrees with the values on arrival: an integer is known to be that
integer, or not to be a constant.
-/

namespace FlowTrace

/-! ## Execution -/

/-- The values of the variables that are defined. -/
abbrev Valuation := String → Option Int

/-- No variable is defined. -/
def Valuation.undefined : Valuation := fun _ => none

def Operand.value (σ : Valuation) : Operand → Option Int
  | var name => σ name
  | lit value => some value

/-- The value that an assignment computes, if it has one. -/
def Instr.Body.value (σ : Valuation) : Instr.Body → Option Int
  | copy _ source => source.value σ
  | unary _ op operand => (operand.value σ).map op.eval
  | binary _ left op right => do op.eval (← left.value σ) (← right.value σ)
  | jump _ | branch _ _ _ _ | branchIf _ _ | branchUnless _ _ => none

/-- An assignment overwrites its target, also where the value is undefined. -/
def Instr.execute (σ : Valuation) (i : Instr) : Valuation :=
  match i.defines? with
  | some x => Function.update σ x (i.body.value σ)
  | none => σ

/-- Execute the instructions of a node. -/
def FlowGraph.execute (g : FlowGraph) (σ : Valuation) (n : NodeId) : Valuation :=
  ((g.instrsOf n).map (·.2)).foldl Instr.execute σ

/-! ## Agreement -/

namespace Constants

/-- Every value is known, or its variable is known not to be a constant. -/
def Agrees (σ : Valuation) (k : Knowledge) : Prop :=
  ∀ x v, σ x = some v → ((Const.known v : Const) : WithBot Const) ≤ k x

variable {σ : Valuation} {k l : Knowledge} {m : ConstMap} {v : Int}

theorem Agrees.mono (h : Agrees σ k) (hkl : k ≤ l) : Agrees σ l :=
  fun x v hx => (h x v hx).trans (hkl x)

theorem known_le_resolve {o : Operand} (h : ∀ x w, o.name? = some x → σ x = some w →
    .known w ≤ m.lookup x) (hv : o.value σ = some v) : .known v ≤ resolve m o := by
  cases o with
  | var x => exact h x v rfl hv
  | lit w =>
    obtain rfl := Option.some.inj hv
    exact le_rfl

theorem known_le_evalUnary {op : UnaryOp} {c : Const} (h : .known v ≤ c) :
    .known (op.eval v) ≤ evalUnary op c := by
  rcases Const.known_le_iff.mp h with rfl | rfl
  · exact le_rfl
  · exact Const.le_nac _

theorem known_le_evalBinary {op : BinaryOp} {a b w : Int} {c d : Const} (hc : .known a ≤ c)
    (hd : .known b ≤ d) (hw : op.eval a b = some w) : .known w ≤ evalBinary op c d := by
  rcases Const.known_le_iff.mp hc with rfl | rfl
  · rcases Const.known_le_iff.mp hd with rfl | rfl
    · simp [evalBinary, hw]
    · exact Const.le_nac _
  · exact Const.le_nac _

/-- A value that is computed from values that are known is known. -/
theorem known_le_of_eval? {i : Instr} {c : Const} (h : ∀ x ∈ i.reads, ∀ w, σ x = some w →
    .known w ≤ m.lookup x) (hv : i.body.value σ = some v) (hc : eval? m i.body = some c) :
    .known v ≤ c := by
  have hresolve : ∀ o ∈ i.body.operands, ∀ w, o.value σ = some w → .known w ≤ resolve m o := by
    intro o ho w hw
    exact known_le_resolve (fun x u hx => h x (List.mem_filterMap.mpr ⟨o, ho, hx⟩) u) hw
  obtain ⟨line, label, body⟩ := i
  cases body with
  | jump _ | branch _ _ _ _ | branchIf _ _ | branchUnless _ _ => cases hc
  | copy dest source =>
    obtain rfl := Option.some.inj hc
    exact hresolve source (by simp [Instr.Body.operands]) v hv
  | unary dest op operand =>
    obtain rfl := Option.some.inj hc
    obtain ⟨a, ha, rfl⟩ := Option.map_eq_some_iff.mp hv
    exact known_le_evalUnary (hresolve operand (by simp [Instr.Body.operands]) a ha)
  | binary dest left op right =>
    obtain rfl := Option.some.inj hc
    obtain ⟨a, ha, hv⟩ := Option.bind_eq_some_iff.mp hv
    obtain ⟨b, hb, hv⟩ := Option.bind_eq_some_iff.mp hv
    exact known_le_evalBinary (hresolve left (by simp [Instr.Body.operands]) a ha)
      (hresolve right (by simp [Instr.Body.operands]) b hb) hv

/-- An instruction keeps the agreement although it only joins what it learns. -/
theorem Agrees.execute (h : Agrees σ k) (i : Instr) : Agrees (i.execute σ) (learn k i) := by
  cases hi : i.defines? with
  | none =>
    rw [learn_of_defines?_eq_none k hi]
    simpa [Instr.execute, hi] using h
  | some x =>
    obtain ⟨c, hc⟩ := exists_eval? (sample k i.reads) hi
    rw [learn_of_defines? hi hc]
    simp only [Instr.execute, hi]
    intro y v hy
    by_cases hyx : y = x
    · subst hyx
      rw [Function.update_self] at hy ⊢
      have hknown : .known v ≤ c := by
        refine known_le_of_eval? (fun z hz w hw => ?_) hy hc
        rw [lookup_sample hz]
        obtain ⟨d, hd, hle⟩ := WithBot.coe_le_iff.mp (h z w hw)
        rw [hd]
        exact hle
      exact (WithBot.coe_le_coe.mpr hknown).trans le_sup_right
    · rw [Function.update_of_ne hyx] at hy ⊢
      exact h y v hy

theorem Agrees.foldl_execute (h : Agrees σ k) (instrs : List Instr) :
    Agrees (instrs.foldl Instr.execute σ) ((instrs.filter (·.isAssignment)).foldl learn k) := by
  induction instrs generalizing σ k with
  | nil => exact h
  | cons i instrs ih =>
    cases hi : i.isAssignment with
    | true =>
      rw [List.filter_cons_of_pos hi]
      exact ih (h.execute i)
    | false =>
      have hnone : i.defines? = none := by simpa [Instr.isAssignment] using hi
      rw [List.filter_cons_of_neg (by simp [hi])]
      have hstep := h.execute i
      rw [learn_of_defines?_eq_none k hnone] at hstep
      exact ih hstep

variable {g : FlowGraph} {x : Family Knowledge} {a n : NodeId} {path : List NodeId}

/-- Along a path, values agree with knowledge that is closed under the equations. -/
theorem Agrees.foldl_path (hg : g.WellFormed) (hx : (reading g).system.Closed x)
    (hpath : g.Path a path n) (h : Agrees σ (x.merged a)) :
    Agrees (path.foldl g.execute σ) (x.merged n) := by
  induction hpath generalizing σ with
  | nil n => exact h
  | @cons a b c rest hab _ ih =>
    obtain ⟨ha, hb⟩ := hg.mem_of_hasEdge hab
    have hle : (reading g).effect a (x.merged a) ≤ x.merged b :=
      (hx.effect_le a ha).trans (hx.source_le b hb a hab)
    have hstep : Agrees (g.execute σ a) ((definitionsOf g a).foldl learn (x.merged a)) :=
      h.foldl_execute _
    exact ih (hstep.mono hle)

end Constants

/-- Whatever path leads from the entry to a node, a variable that holds an integer on arrival is
known to hold it or not to be a constant. -/
theorem Program.Verified.constants_agree_with_every_path {p : Program} (hp : p.Verified)
    (kind : GraphKind) :
    (Constants.problem (p.graph kind)).EndsWith fun ins _ => ∀ path n x v,
      (p.graph kind).Path (p.graph kind).entry path n →
      path.foldl (p.graph kind).execute .undefined x = some v →
      (ins n).get? x = some (.known v) ∨ (ins n).get? x = some .nac := by
  have hg : (p.graph kind).WellFormed := hp.wellFormed.graph kind
  refine (Constants.ends hg).imp fun ins outs hleast path n x v hpath hv => ?_
  have hstart : Constants.Agrees .undefined ((ConstMap.reading ∘ ins) (p.graph kind).entry) :=
    fun y w hy => by cases hy
  have hagrees := hstart.foldl_path hg hleast.solves.closed hpath
  obtain ⟨c, hc, hle⟩ := WithBot.coe_le_iff.mp (hagrees x v hv)
  rcases Const.known_le_iff.mp hle with rfl | rfl
  · exact .inl (ConstMap.reading_eq_coe_iff.mp hc)
  · exact .inr (ConstMap.reading_eq_coe_iff.mp hc)

/-- Once around the loop. -/
theorem Program.countdown_constants_agree_with_loop :
    countdown.Verified ∧ (Constants.problem (countdown.graph .single)).EndsWith fun ins _ =>
      (ins 1).get? "n" = some (.known 2) ∨ (ins 1).get? "n" = some .nac := by
  refine ⟨verified_countdown,
    (verified_countdown.constants_agree_with_every_path .single).imp fun ins _ h => ?_⟩
  refine h [3, 0, 1, 2] 1 "n" 2 ?_ (by decide)
  exact .cons (by decide) (.cons (by decide) (.cons (by decide) (.cons (by decide) (.nil 1))))

end FlowTrace
