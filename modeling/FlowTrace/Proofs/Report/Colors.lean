import FlowTrace.Proofs.Dataflow.FactNames
import FlowTrace.Proofs.Report.Pages
import FlowTrace.Proofs.Text.Escapes

/-!
# Colours in reports

Reports are put together line by line from styled and unstyled parts.  All of their text comes from
the names in the program and in the facts, from numbers and from fixed words.  So if no name has an
escape character in it, a coloured report is the plain one with sequences in it, for every way of
colouring that puts sequences around a text.
-/

namespace FlowTrace

open Text

/-! ## Instructions -/

@[simp] theorem Relation.escapeFree_symbol (r : Relation) : EscapeFree r.symbol := by
  cases r <;> decide

@[simp] theorem UnaryOp.escapeFree_symbol (op : UnaryOp) : EscapeFree op.symbol := by
  cases op <;> decide

@[simp] theorem BinaryOp.escapeFree_symbol (op : BinaryOp) : EscapeFree op.symbol := by
  cases op with
  | relation r => exact r.escapeFree_symbol
  | arithmetic a => cases a <;> decide

namespace Instr

variable {i : Instr}

theorem Body.escapeFree_gotoText {target : Option String} (h : ∀ x ∈ target, EscapeFree x) :
    EscapeFree (gotoText target) := by
  refine EscapeFree.append_iff.mpr ⟨by decide, ?_⟩
  cases target with
  | none => decide
  | some x => exact h x rfl

theorem Body.escapeFree_text {b : Body} (htarget : ∀ x ∈ b.target?, EscapeFree x)
    (hoperands : ∀ o ∈ b.operands, EscapeFree o.text)
    (hdefines : ∀ x ∈ b.defines?, EscapeFree x) : EscapeFree b.text := by
  cases b with
  | jump target => exact escapeFree_gotoText htarget
  | branch left op right target =>
    have hgoto : EscapeFree (gotoText target) := escapeFree_gotoText htarget
    have hleft : EscapeFree left.text := hoperands left (by simp [operands])
    have hright : EscapeFree right.text := hoperands right (by simp [operands])
    simp +decide [text, hleft, hright, hgoto]
  | branchIf name target =>
    have hgoto : EscapeFree (gotoText target) := escapeFree_gotoText htarget
    have hname : EscapeFree name := hoperands (.var name) (by simp [operands])
    simp +decide [text, hname, hgoto]
  | branchUnless name target =>
    have hgoto : EscapeFree (gotoText target) := escapeFree_gotoText htarget
    have hname : EscapeFree name := hoperands (.var name) (by simp [operands])
    simp +decide [text, hname, hgoto]
  | copy dest source =>
    have hsource : EscapeFree source.text := hoperands source (by simp [operands])
    simp +decide [text, hdefines dest rfl, hsource]
  | unary dest op operand =>
    have hoperand : EscapeFree operand.text := hoperands operand (by simp [operands])
    simp +decide [text, hdefines dest rfl, hoperand]
  | binary dest left op right =>
    have hleft : EscapeFree left.text := hoperands left (by simp [operands])
    have hright : EscapeFree right.text := hoperands right (by simp [operands])
    simp +decide [text, hdefines dest rfl, hleft, hright]

theorem escapeFree_text (h : ∀ x ∈ i.names, EscapeFree x) : EscapeFree i.text := by
  have hbody : EscapeFree i.body.text := by
    refine Body.escapeFree_text (fun x hx => ?_) (fun o ho => ?_) fun x hx => ?_
    · exact h x (by simp [names, target?, Option.mem_def.mp hx])
    · cases o with
      | lit value => exact .repr_int value
      | var name =>
        have hreads : name ∈ i.reads := List.mem_filterMap.mpr ⟨.var name, ho, rfl⟩
        exact h name (by simp [names, hreads])
    · exact h x (mem_names_of_defines? hx)
  unfold text
  split
  · next label hlabel =>
    split
    · exact hbody
    · have hx : EscapeFree label := h label (by simp [names, hlabel])
      simp +decide [hx, hbody]
  · exact hbody

end Instr

/-! ## Views -/

theorem Const.escapeFree_text {c : Const} {s : String} (h : c.text = .ok s) : EscapeFree s := by
  cases c with
  | unset => exact Except.ok.inj h ▸ by decide
  | nac => exact Except.ok.inj h ▸ by decide
  | known value =>
    rw [text, writeInt] at h
    split at h
    · exact Except.ok.inj h ▸ .repr_int value
    · cases h

theorem Analysis.escapeFree_of_lists {a : Analysis} {v : a.Fact} {items : List String}
    (h : ∀ x ∈ a.names v, EscapeFree x) (hitems : a.Lists v items) :
    ∀ item ∈ items, EscapeFree item := by
  have hmembers : ∀ {names : NameSet}, (∀ x ∈ names.members, EscapeFree x) →
      items.Perm names.toList → ∀ item ∈ items, EscapeFree item :=
    fun h hperm item hitem => h item (Std.ExtTreeSet.mem_toList.mp (hperm.mem_iff.mp hitem))
  cases a with
  | liveness liveOut rule => exact hmembers h hitems.1
  | reaching => exact hmembers h hitems.1
  | constants =>
    obtain ⟨sorted, hsorted, -, hitems⟩ := hitems
    intro item hitem
    obtain ⟨e, he, t, ht, rfl⟩ := exists_related_of_mem hitems hitem
    have hkey : e.1 ∈ Table.keys v := List.mem_map_of_mem (hsorted.mem_iff.mp he)
    have hname : EscapeFree e.1 := h e.1 (Constants.mem_domain_iff.mpr hkey)
    simp +decide [hname, Const.escapeFree_text ht]

/-- The text of a fact whose names have no escape character has none. -/
theorem Analysis.escapeFree_view {a : Analysis} {order : NameSet.Enumeration} {v : a.Fact}
    {d : FactData} (h : ∀ x ∈ a.names v, EscapeFree x) (hd : Viewable.view order v = .ok d) :
    EscapeFree d.text := by
  obtain ⟨items, hitems, htext⟩ := exists_lists hd
  have hjoined : EscapeFree (", ".intercalate items) :=
    .intercalate (by decide) (escapeFree_of_lists h hitems)
  rw [htext]
  simp +decide [hjoined]

/-- All text in the view of a node is free of escape characters. -/
structure NodeView.EscapeFree (n : NodeView) : Prop where
  facts : ∀ fact ∈ n.facts, Text.EscapeFree fact.1 ∧ Text.EscapeFree fact.2.data.text
  instructions : ∀ i ∈ n.instructions, Text.EscapeFree i.1 ∧ Text.EscapeFree i.2

namespace Snapshot

variable {α : Type} [Viewable α] {order : NameSet.Enumeration} {p : Problem α} {Q : α → Prop}
  {s : Snapshot α}

theorem escapeFree_viewFact {facts : Observed α} {empty : α} {n : NodeId} {v : FactView}
    (hview : ∀ a d, Q a → Viewable.view order a = .ok d → EscapeFree d.text) (hfacts : facts.All Q)
    (hempty : Q empty) (h : viewFact order facts empty n = .ok v) : EscapeFree v.data.text := by
  refine hview _ _ ?_ (eq_of_viewFact h).1
  cases hcell : facts.get? n with
  | none => exact hempty
  | some cell => exact hfacts n cell.value (by rw [Observed.peek?, hcell]; rfl)

/-- A view of facts without escape characters has none. -/
theorem escapeFree_view (hview : ∀ a d, Q a → Viewable.view order a = .ok d → EscapeFree d.text)
    (hs : s.Within p Q) (hbottom : Q p.lattice.bottom)
    (hnames : ∀ name ∈ p.factNames, EscapeFree name)
    (hmarkers : ∀ i, EscapeFree ((p.markers.get? i).getD ""))
    (hinstrs : ∀ n, ∀ e ∈ p.graph.instrsOf n, EscapeFree e.2.text)
    {algorithm : Algorithm} {v : StateView} (h : s.view order algorithm p = .ok v) :
    ∀ n ∈ v.nodes, n.EscapeFree := by
  obtain ⟨-, -, hnodes⟩ := showsNodes_of_view h
  have hfactNames : s.facts.map Prod.fst = p.factNames := by
    simp [Snapshot.facts, Problem.factNames, ← hs.sideNames_eq]
  intro n hn
  obtain ⟨m, -, hm⟩ := exists_related_of_mem hnodes hn
  refine ⟨fun fact hfact => ?_, fun i hi => ?_⟩
  · obtain ⟨f, hf, hname, hview'⟩ := exists_related_of_mem hm.facts hfact
    have hmem := mem_facts_of_shownAt hf
    rw [hname]
    exact ⟨hnames f.1 (hfactNames ▸ List.mem_map_of_mem hmem),
      escapeFree_viewFact hview (hs.facts f hmem) hbottom hview'⟩
  · rw [hm.instructions_eq] at hi
    split at hi
    · obtain ⟨e, he, rfl⟩ := List.mem_map.mp hi
      exact ⟨hmarkers e.1, hinstrs m e he⟩
    · cases hi

end Snapshot

/-! ## Reports -/

namespace Report

/-! Lines are styled one by one, and those of a part together. -/

theorem styles_map {α : Type} {f g : α → String} {l : List α} (h : ∀ a ∈ l, Styles (f a) (g a)) :
    List.Forall₂ Styles (l.map f) (l.map g) := by
  rw [List.forall₂_map_left_iff, List.forall₂_map_right_iff, List.forall₂_same]
  exact h

theorem styles_flatMap {α : Type} {f g : α → List String} {l : List α}
    (h : ∀ a ∈ l, List.Forall₂ Styles (f a) (g a)) :
    List.Forall₂ Styles (l.flatMap f) (l.flatMap g) := by
  induction l with
  | nil => exact .nil
  | cons a l ih =>
    obtain ⟨ha, hl⟩ := List.forall_mem_cons.mp h
    exact List.rel_append ha (ih hl)

variable {paint plain : Coloring}

theorem styles_factLine (hpaint : paint.Restyles plain) {name : String} {v : FactView}
    (hname : EscapeFree name) (h : EscapeFree v.data.text) :
    Styles (factLine paint name v) (factLine plain name v) := by
  have hfill : EscapeFree (String.ofList (List.replicate (4 - name.length) ' ')) := by
    intro hmem
    rw [String.toList_ofList] at hmem
    exact absurd (List.eq_of_mem_replicate hmem) (by decide)
  refine (Styles.of_escapeFree ?_).append (hpaint _ _ h)
  simp +decide [hfill, hname]

theorem escapeFree_nodeName (n : NodeId) : EscapeFree (nodeName n) := by
  simp +decide [nodeName]

theorem escapeFree_kindNote (kind : NodeKind) : EscapeFree (kindNote kind) := by
  cases kind <;> decide

theorem styles_instructionLine (hpaint : paint.Restyles plain) {i : String × String}
    (h : EscapeFree i.1 ∧ EscapeFree i.2) :
    Styles (instructionLine paint i) (instructionLine plain i) := by
  obtain ⟨marker, text⟩ := i
  refine ((Styles.of_escapeFree (by decide)).append ?_).append (.of_escapeFree h.2)
  split
  · exact .of_escapeFree (by decide)
  · exact hpaint _ _ (EscapeFree.append_iff.mpr ⟨h.1, by decide⟩)

theorem styles_titleLine (hpaint : paint.Restyles plain) (n : NodeView) :
    Styles (titleLine paint n) (titleLine plain n) := by
  have harrow : Styles (if n.isCurrent then paint Color.green.bold "▶" else " ")
      (if n.isCurrent then plain Color.green.bold "▶" else " ") := by
    split
    · exact hpaint _ _ (by decide)
    · exact .of_escapeFree (by decide)
  exact (harrow.append (.of_escapeFree (by decide))).append (hpaint _ _
    (EscapeFree.append_iff.mpr ⟨escapeFree_nodeName n.id, escapeFree_kindNote n.kind⟩))

theorem styles_node (hpaint : paint.Restyles plain) {n : NodeView} (h : n.EscapeFree) :
    List.Forall₂ Styles (node paint n) (node plain n) := by
  have hinstructions : List.Forall₂ Styles (n.instructions.map (instructionLine paint))
      (n.instructions.map (instructionLine plain)) :=
    styles_map fun i hi => styles_instructionLine hpaint (h.instructions i hi)
  have hfacts : List.Forall₂ Styles (factLines paint n) (factLines plain n) := by
    rw [factLines_eq, factLines_eq]
    exact styles_map fun fact hfact =>
      styles_factLine hpaint (h.facts fact hfact).1 (h.facts fact hfact).2
  exact List.rel_append (.cons (styles_titleLine hpaint n) hinstructions) hfacts

theorem escapeFree_heading (v : StateView) (step : Option Int) : EscapeFree (heading v step) := by
  have hphase : EscapeFree v.phase.name := by cases v.phase <;> decide
  cases step <;> cases hc : v.current <;>
    simp +decide [heading, hc, hphase, escapeFree_nodeName]

theorem styles_graphNode (hpaint : paint.Restyles plain) {g : FlowGraph} {n : NodeId}
    (h : ∀ e ∈ g.instrsOf n, EscapeFree e.2.text) :
    List.Forall₂ Styles (graphNode g paint n) (graphNode g plain n) := by
  have htargets : EscapeFree (targets g n) := by
    refine EscapeFree.intercalate (by decide) fun target htarget => ?_
    obtain ⟨m, -, rfl⟩ := List.mem_map.mp htarget
    refine EscapeFree.append_iff.mpr ⟨escapeFree_nodeName m, ?_⟩
    split <;> decide
  refine .cons ?_ ?_
  · have hname := (hpaint Color.cyan.bold _ (escapeFree_nodeName n)).append
      (.of_escapeFree (escapeFree_kindNote ((g.nodeKind? n).getD .node)))
    exact ((hname.append (.of_escapeFree (by decide))).append (.of_escapeFree htargets)).append
      (.of_escapeFree (by decide))
  · exact styles_map fun e he =>
      (Styles.of_escapeFree (by decide)).append (.of_escapeFree (h e he))

variable {colored : Coloring}

theorem styles_state (hcolored : colored.Wraps) {v : StateView} (h : ∀ n ∈ v.nodes, n.EscapeFree)
    (step : Option Int) : Styles (state v step true colored) (state v step false colored) := by
  have hpaint := hcolored.restyles
  exact .intercalate (by decide) (.cons (hpaint _ _ (escapeFree_heading v step))
    (styles_flatMap fun n hn => styles_node hpaint (h n hn)))

theorem styles_graph (hcolored : colored.Wraps) {g : FlowGraph}
    (h : ∀ n, ∀ e ∈ g.instrsOf n, EscapeFree e.2.text) :
    Styles (graph g true colored) (graph g false colored) := by
  have hpaint := hcolored.restyles
  refine .intercalate (by decide) (List.rel_append ?_ (.cons (hpaint _ _ (by decide)) .nil))
  exact styles_flatMap fun n _ => styles_graphNode hpaint (h n)

end Report

/-! ## Analyses -/

theorem Reaching.escapeFree_tagAt (k : Nat) : EscapeFree (tagAt k) :=
  EscapeFree.append_iff.mpr ⟨by decide, .repr_nat (k + 1)⟩

namespace Analysis

/-- The names that an analysis is given. -/
def given : Analysis → NameSet
  | liveness liveOut _ => liveOut
  | reaching | constants => ∅

theorem escapeFree_nameRange {a : Analysis} {p : Program} (hp : ∀ x ∈ p.names, EscapeFree x)
    (ha : ∀ x ∈ a.given, EscapeFree x) : ∀ x ∈ a.nameRange p, EscapeFree x := by
  cases a with
  | liveness liveOut rule => exact fun x hx => hx.elim (hp x) (ha x)
  | reaching =>
    rintro _ ⟨k, rfl⟩
    exact Reaching.escapeFree_tagAt k
  | constants => exact hp

theorem escapeFree_factNames (a : Analysis) (g : FlowGraph) :
    ∀ name ∈ (a.problem g).factNames, EscapeFree name := by
  have huse : ∀ name ∈ ["use", "def", "in", "out"], EscapeFree name := by decide
  have hgen : ∀ name ∈ ["gen", "kill", "in", "out"], EscapeFree name := by decide
  have hnone : ∀ name ∈ ["in", "out"], EscapeFree name := by decide
  cases a with
  | liveness liveOut rule => exact huse
  | reaching => exact hgen
  | constants => exact hnone

theorem escapeFree_marker (a : Analysis) (g : FlowGraph) (i : NodeId) :
    EscapeFree (((a.problem g).markers.get? i).getD "") := by
  have hnone : EscapeFree "" := by decide
  cases a with
  | liveness liveOut rule => exact hnone
  | constants => exact hnone
  | reaching =>
    show EscapeFree (((Reaching.tags g).get? i).getD "")
    cases ht : (Reaching.tags g).get? i with
    | none => exact hnone
    | some t =>
      obtain ⟨k, rfl⟩ := Reaching.exists_tagAt (Table.mem_values_iff.mpr ⟨i, ht⟩)
      exact Reaching.escapeFree_tagAt k

end Analysis

/-- **Colour never changes content.**  Let texts be coloured in any way that puts sequences around
them.  If no name has an escape character, then the coloured reports on a graph, and on any snapshot
that a run of an analysis shows, are the plain ones once all sequences are taken out. -/
theorem Program.color_keeps_content {colored : Coloring} (hcolored : colored.Wraps) {p : Program}
    (hp : ∀ x ∈ p.names, EscapeFree x) (kind : GraphKind) :
    unstyled (Report.graph (p.graph kind) true colored) =
      Report.graph (p.graph kind) false colored ∧
    ∀ a : Analysis, (∀ x ∈ a.given, EscapeFree x) →
      ∀ s, (a.problem (p.graph kind)).Shows s →
        ∀ order algorithm v, s.view order algorithm (a.problem (p.graph kind)) = .ok v →
          ∀ step, unstyled (Report.state v step true colored) =
            Report.state v step false colored := by
  have hinstrs : ∀ n, ∀ e ∈ (p.graph kind).instrsOf n, EscapeFree e.2.text :=
    fun n e he => Instr.escapeFree_text fun x hx => hp x (mem_names he hx)
  refine ⟨(Report.styles_graph hcolored hinstrs).unstyled_eq, ?_⟩
  intro a ha s hs order algorithm v hv step
  have hkeeps := a.keeps_names p kind
  refine (Report.styles_state hcolored (Snapshot.escapeFree_view ?_ (hkeeps.shows hs)
    hkeeps.bottom (a.escapeFree_factNames _) (a.escapeFree_marker _) ?_ hv) step).unstyled_eq
  · exact fun w d hw hd => Analysis.escapeFree_view
      (fun x hx => Analysis.escapeFree_nameRange hp ha x (hw hx)) hd
  · rw [Analysis.graph_problem]
    exact hinstrs

/-- A loop in the colours of a terminal, with the live variables that its run ends with. -/
theorem Program.countdown_color_keeps_content :
    let problem := Liveness.problem (countdown.graph .blocks) (NameSet.ofList ["n"]) none
    terminalColoring.Wraps ∧ (∀ x ∈ countdown.names, EscapeFree x) ∧
    unstyled (Report.graph (countdown.graph .blocks) true terminalColoring) =
      Report.graph (countdown.graph .blocks) false terminalColoring ∧
    (∀ x ∈ NameSet.ofList ["n"], EscapeFree x) ∧
    ∃ s v, s.isFinal = true ∧ problem.Shows s ∧
      s.view .byCodePoints .livenessBlocks problem = .ok v ∧
      unstyled (Report.state v (some (-1)) true terminalColoring) =
        Report.state v (some (-1)) false terminalColoring := by
  intro problem
  have hnames : ∀ x ∈ countdown.names, EscapeFree x := by decide
  have hgiven : ∀ x ∈ NameSet.ofList ["n"], EscapeFree x := by
    intro x hx
    obtain rfl := List.mem_singleton.mp (NameSet.mem_ofList.mp hx)
    decide
  have hany : (problem.trace.any fun s =>
      s.isFinal && (s.view .byCodePoints .livenessBlocks problem).isOk) = true := by
    decide +kernel
  obtain ⟨s, hs, hcheck⟩ := List.any_eq_true.mp hany
  obtain ⟨hfinal, hok⟩ := Bool.and_eq_true_iff.mp hcheck
  obtain ⟨hgraph, hstate⟩ := color_keeps_content wraps_terminalColoring hnames .blocks
  obtain ⟨v, hv⟩ := exists_of_isOk hok
  have hview := hstate (.liveness _ none) hgiven s (.inl hs) .byCodePoints .livenessBlocks v hv
    (some (-1))
  exact ⟨wraps_terminalColoring, hnames, hgraph, hgiven, s, v, hfinal, .inl hs, hv, hview⟩

end FlowTrace
