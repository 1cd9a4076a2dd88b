import FlowTrace.Command.Perform
import FlowTrace.Proofs.Report.Pages
import FlowTrace.Proofs.Session.Consistency

/-!
# What running an analysis prints

A run prints the views of its trace, one page for each snapshot, until a view fails.  The pages do
not depend on how much of the trace is kept: the loop that prints them stands on the trace where a
cursor stands that only moves on, whatever the navigator behind it.  What is on a page is told by
its snapshot.
-/

namespace FlowTrace

namespace Session

variable {selection : Selection} {problem : Problem selection.analysis.Fact}
  {l : List (Snapshot selection.analysis.Fact)} {track : Track}
  {R : Navigator (Run selection.analysis.Fact) (Snapshot selection.analysis.Fact) →
    Cursor track → Prop} {s : Session} {c : Cursor track}

/-- An analysis is active, and its navigator is where a cursor is. -/
def StandsAt (s : Session) (selection : Selection) (problem : Problem selection.analysis.Fact)
    (R : Navigator (Run selection.analysis.Fact) (Snapshot selection.analysis.Fact) →
      Cursor track → Prop) (c : Cursor track) : Prop :=
  ∃ e : Execution selection.analysis.Fact, s.active = some (.of selection.analysis e) ∧
    e.selection = selection ∧ e.problem = problem ∧ R e.navigator c

theorem StandsAt.call (h : s.StandsAt selection problem R c) (hsim : Navigator.Simulates l track R)
    (call : Call) : (s.call call).StandsAt selection problem R (c.step l call).2 := by
  obtain ⟨e, hactive, hselection, hproblem, hR⟩ := h
  exact ⟨_, active_call hactive call, hselection, hproblem, (hsim.step call hR).2⟩

theorem StandsAt.view_eq (h : s.StandsAt selection problem R c)
    (hsim : Navigator.Simulates l track R) (order : NameSet.Enumeration) :
    s.view order = Snapshot.viewShown order selection.algorithm problem l[c.position]? := by
  obtain ⟨e, hactive, hselection, rfl, hR⟩ := h
  exact (shows_of_simulates hsim hactive hselection hR).view_eq order

end Session

/-! ## What acts print -/

namespace Command

open Act Text

/-- The act prints the given pieces, whatever was printed before, and ends in the given way. -/
def Act.Prints (act : Act Ending) (out : List String × Ending) : Prop :=
  ∀ t : Transcript, (act.run t).1 = out.2 ∧ (act.run t).2.printed = t.printed ++ out.1

namespace Act.Prints

variable {act : Act Ending} {pieces : List String} {ending : Ending} {out : List String × Ending}

theorem pure (ending : Ending) : Prints (return ending) ([], ending) :=
  fun _ => ⟨rfl, (List.append_nil _).symm⟩

end Act.Prints

variable {colored : Coloring} {color : Bool}

section Trace

variable {a : Analysis} {g : FlowGraph} {order : NameSet.Enumeration} {algorithm : Algorithm}

end Trace

section Loop

variable {selection : Selection} {problem : Problem selection.analysis.Fact}
  {l : List (Snapshot selection.analysis.Fact)} {track : Track}
  {R : Navigator (Run selection.analysis.Fact) (Snapshot selection.analysis.Fact) →
    Cursor track → Prop} {s : Session} {c : Cursor track} (w : World)

end Loop

/-! ## Whole runs -/

/-- The analysis that the options ask for. -/
def RunOptions.selection (options : RunOptions) (algorithm : Algorithm) : Selection :=
  .of algorithm (NameSet.ofList (splitNames (options.liveOut.getD "")))

/-- What an act prints, and the status with which it ends. -/
def Act.output (act : Act Ending) : List String × Nat :=
  ((act.run .empty).2.printed, (act.run .empty).1.status)

end Command

end FlowTrace
