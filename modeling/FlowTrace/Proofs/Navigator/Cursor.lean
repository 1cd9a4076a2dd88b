import FlowTrace.Navigator.Basic

/-!
# Cursors

A cursor is a position among the values of a finite source, with the farthest position so far.  The
farthest position decides how far back it can go.  A navigator simulates a cursor if each operation
does the same to both; then the answers to any calls are the cursor's.
-/

namespace FlowTrace

variable {σ α : Type}

/-! ## Finite sources -/

namespace Source

variable [Source σ α] {source : σ} {s : List α}

/-- The values that a source has to come until its end, within its bound. -/
inductive Yields : σ → List α → Prop
  | ended {source : σ} (h : next? source = none) : Yields source []
  | value {source source' : σ} {a : α} {s : List α} (h : next? source = some (a, source'))
      (hbound : s.length < bound source) (hrest : Yields source' s) : Yields source (a :: s)

theorem yields_list {β : Type} (s : List β) : Yields s s := by
  induction s with
  | nil => exact .ended rfl
  | cons b s ih => exact .value rfl (Nat.lt_succ_self s.length) ih

theorem Yields.length_le (h : Yields source s) : s.length ≤ bound source := by
  cases h with
  | ended h => exact Nat.zero_le _
  | value h hbound hrest => exact hbound

theorem Yields.pull (h : Yields source s) (n : Nat) :
    (pull n source).1 = s.take n ∧ Yields (pull n source).2.1 (s.drop n) ∧
      (pull n source).2.2 = decide (s.length < n) := by
  induction n generalizing source s with
  | zero => exact ⟨rfl, h, rfl⟩
  | succ n ih =>
    cases h with
    | ended h => simpa [Source.pull, h] using Yields.ended h
    | value h hbound hrest => simpa [Source.pull, h] using ih hrest

end Source

/-! ## Calls -/

/-- What a navigator can be asked to do or to tell. -/
inductive Call where
  | next
  | previous
  | toEnd
  | hasNext
  | hasPrevious
  | current
  deriving DecidableEq

/-- What comes back from a call; a move answers nothing. -/
inductive Answer (α : Type) where
  | moved
  | flag (b : Bool)
  | value (a? : Option α)
  deriving DecidableEq

namespace Call

variable {S S' : Type} {step : Call → S → Answer α × S} {step' : Call → S' → Answer α × S'}

/-- The answers to a list of calls, and the state after them. -/
def run (step : Call → S → Answer α × S) : List Call → S → List (Answer α) × S
  | [], x => ([], x)
  | call :: calls, x =>
    let (answer, x) := step call x
    let (answers, x) := run step calls x
    (answer :: answers, x)

theorem run_cons (call : Call) (calls : List Call) (x : S) :
    run step (call :: calls) x =
      ((step call x).1 :: (run step calls (step call x).2).1,
        (run step calls (step call x).2).2) := rfl

theorem run_append (calls calls' : List Call) (x : S) :
    (run step (calls ++ calls') x).2 = (run step calls' (run step calls x).2).2 := by
  induction calls generalizing x with
  | nil => rfl
  | cons call calls ih => exact ih (step call x).2

/-- Each call is made in a state that permits it. -/
def Permitted (permits : S → Call → Prop) (step : Call → S → Answer α × S) : List Call → S → Prop
  | [], _ => True
  | call :: calls, x => permits x call ∧ Permitted permits step calls (step call x).2

theorem permitted_always (calls : List Call) (x : S) :
    Permitted (fun _ _ => True) step calls x := by
  induction calls generalizing x with
  | nil => trivial
  | cons call calls ih => exact ⟨trivial, ih _⟩

/-- Related states stay related and answer alike, as far as the calls are permitted. -/
theorem run_related {R : S → S' → Prop} {permits : S → Call → Prop}
    (hstep : ∀ call x y, permits x call → R x y →
      (step call x).1 = (step' call y).1 ∧ R (step call x).2 (step' call y).2)
    {calls : List Call} {x : S} {y : S'} (hcalls : Permitted permits step calls x) (h : R x y) :
    (run step calls x).1 = (run step' calls y).1 ∧
      R (run step calls x).2 (run step' calls y).2 := by
  induction calls generalizing x y with
  | nil => exact ⟨rfl, h⟩
  | cons call calls ih =>
    obtain ⟨hanswer, hnext⟩ := hstep call x y hcalls.1 h
    obtain ⟨hanswers, hlast⟩ := ih hcalls.2 hnext
    rw [run_cons, run_cons]
    exact ⟨by rw [hanswer, hanswers], hlast⟩

end Call

/-! ## Cursors -/

/-- The positions of a cursor: `base m` is the first that can be gone back to when `m` is the
farthest one so far. -/
structure Track where
  length : Nat
  base : Nat → Nat
  base_le : ∀ m, base m ≤ m

namespace Track

/-- Every position can be gone back to. -/
def full (n : Nat) : Track where
  length := n
  base _ := 0
  base_le := Nat.zero_le

/-- The size of a window; sizes below one count as one. -/
def width (size : Int) : Nat := (max 1 size).toNat

theorem width_pos (size : Int) : 0 < width size := by
  unfold width
  omega

/-- The positions of a window that slides over `n` values, with one value more than its size.  It
starts to slide when the farthest position leaves the window and stops at the last values. -/
def sliding (n : Nat) (size : Int) : Track where
  length := n
  base m := min (m + 1 - width size) (n - (width size + 1))
  base_le m := by
    have := width_pos size
    omega

/-- A window that all values fit into does not slide. -/
theorem sliding_eq_full {n : Nat} {size : Int} (h : n ≤ width size + 1) :
    sliding n size = full n := by
  unfold sliding full
  congr 1
  funext m
  omega

end Track

/-- A position on a track. -/
@[ext]
structure Cursor (t : Track) where
  position : Nat
  /-- The largest position so far. -/
  farthest : Nat
  base_le : t.base farthest ≤ position
  position_le : position ≤ farthest
  farthest_le : farthest ≤ t.length

namespace Cursor

variable {t : Track} {c : Cursor t}

def start : Cursor t where
  position := 0
  farthest := 0
  base_le := t.base_le 0
  position_le := Nat.le_refl 0
  farthest_le := Nat.zero_le _

/-- The first position that the cursor can go back to. -/
def base (c : Cursor t) : Nat := t.base c.farthest

/-- A move to a position that is not before the base. -/
def moveTo (c : Cursor t) (p : Nat) (hbase : c.base ≤ p) (hlength : p ≤ t.length) :
    Cursor t where
  position := p
  farthest := max c.farthest p
  base_le := by
    rcases Nat.le_total p c.farthest with h | h
    · rwa [Nat.max_eq_left h]
    · rw [Nat.max_eq_right h]
      exact t.base_le p
  position_le := Nat.le_max_right _ _
  farthest_le := Nat.max_le.mpr ⟨c.farthest_le, hlength⟩

theorem position_le_length (c : Cursor t) : c.position ≤ t.length :=
  Nat.le_trans c.position_le c.farthest_le

def next (c : Cursor t) : Cursor t :=
  c.moveTo (min (c.position + 1) t.length)
    (Nat.le_min.mpr ⟨Nat.le_succ_of_le c.base_le, Nat.le_trans c.base_le c.position_le_length⟩)
    (Nat.min_le_right _ _)

def previous (c : Cursor t) : Cursor t :=
  c.moveTo (max (c.position - 1) c.base) (Nat.le_max_right _ _)
    (Nat.max_le.mpr ⟨Nat.le_trans (Nat.sub_le _ _) c.position_le_length,
      Nat.le_trans c.base_le c.position_le_length⟩)

def toEnd (c : Cursor t) : Cursor t :=
  c.moveTo (max c.position (t.length - 1)) (Nat.le_trans c.base_le (Nat.le_max_left _ _))
    (Nat.max_le.mpr ⟨c.position_le_length, Nat.sub_le _ _⟩)

/-- Going back does not change the farthest position. -/
@[simp] theorem farthest_previous (c : Cursor t) : c.previous.farthest = c.farthest := by
  have hle : max (c.position - 1) c.base ≤ c.farthest :=
    Nat.max_le.mpr ⟨Nat.le_trans (Nat.sub_le _ _) c.position_le, t.base_le _⟩
  exact Nat.max_eq_left hle

theorem next_of_lt (h : c.position < t.length) :
    c.next.position = c.position + 1 ∧ c.next.farthest = max c.farthest (c.position + 1) := by
  have hposition : c.next.position = c.position + 1 := Nat.min_eq_left h
  exact ⟨hposition, congrArg (max c.farthest) hposition⟩

theorem next_of_end (h : c.position = t.length) : c.next = c := by
  have := c.farthest_le
  have := c.position_le
  apply Cursor.ext
  · show min (c.position + 1) t.length = c.position
    omega
  · show max c.farthest (min (c.position + 1) t.length) = c.farthest
    omega

theorem toEnd_of_last (h : t.length ≤ c.position + 1) : c.toEnd = c := by
  have := c.position_le
  apply Cursor.ext
  · show max c.position (t.length - 1) = c.position
    omega
  · show max c.farthest (max c.position (t.length - 1)) = c.farthest
    omega

theorem toEnd_next (h : c.position + 1 < t.length) : c.next.toEnd = c.toEnd := by
  apply Cursor.ext
  · show max (min (c.position + 1) t.length) (t.length - 1) = max c.position (t.length - 1)
    omega
  · show max (max c.farthest (min (c.position + 1) t.length))
        (max (min (c.position + 1) t.length) (t.length - 1)) =
      max c.farthest (max c.position (t.length - 1))
    omega

/-- What a call does to a cursor over the values `s`, and what it answers. -/
def step (s : List α) : Call → Cursor t → Answer α × Cursor t
  | .next, c => (.moved, c.next)
  | .previous, c => (.moved, c.previous)
  | .toEnd, c => (.moved, c.toEnd)
  | .hasNext, c => (.flag (c.position + 1 < t.length), c)
  | .hasPrevious, c => (.flag (c.base < c.position), c)
  | .current, c => (.value s[c.position]?, c)

/-- The answers of a cursor to a list of calls from the start, and the cursor after them. -/
def run (s : List α) (t : Track) (calls : List Call) : List (Answer α) × Cursor t :=
  Call.run (step s) calls start

end Cursor

/-! ## Simulation -/

namespace Navigator

/-- The number of values before the current one. -/
def position : Navigator σ α → Nat
  | window w => w.dropped + w.index
  | memo m => m.index

variable [Source σ α]

theorem forward_succ (fuel : Nat) (nav : Navigator σ α) :
    nav.forward (fuel + 1) =
      if nav.hasNext.1 then forward fuel nav.hasNext.2.next else nav.hasNext.2 := rfl

/-- What a call does to a navigator, and what it answers. -/
def step : Call → Navigator σ α → Answer α × Navigator σ α
  | .next, nav => (.moved, nav.next)
  | .previous, nav => (.moved, nav.previous)
  | .toEnd, nav => (.moved, nav.toEnd)
  | .hasNext, nav => (.flag nav.hasNext.1, nav.hasNext.2)
  | .hasPrevious, nav => (.flag nav.hasPrevious, nav)
  | .current, nav => (.value nav.current?, nav)

/-- The answers of a navigator to a list of calls, and the navigator after them. -/
def run (nav : Navigator σ α) (calls : List Call) : List (Answer α) × Navigator σ α :=
  Call.run step calls nav

/-- Navigators that are related to cursors do what the cursors do. -/
structure Simulates (s : List α) (t : Track) (R : Navigator σ α → Cursor t → Prop) : Prop where
  position : ∀ {nav c}, R nav c → nav.position = c.position
  current : ∀ {nav c}, R nav c → nav.current? = s[c.position]?
  hasNext : ∀ {nav c}, R nav c →
    nav.hasNext.1 = decide (c.position + 1 < t.length) ∧ R nav.hasNext.2 c
  hasPrevious : ∀ {nav c}, R nav c → nav.hasPrevious = decide (c.base < c.position)
  next : ∀ {nav c}, R nav c → R nav.next c.next
  previous : ∀ {nav c}, R nav c → R nav.previous c.previous
  length_le : ∀ {nav c}, R nav c → t.length ≤ c.position + nav.moveBound

namespace Simulates

variable {s : List α} {t : Track} {R : Navigator σ α → Cursor t → Prop} {nav : Navigator σ α}
  {c : Cursor t}

/-- Moving on ends at the last value, if there are moves enough. -/
theorem forward (hsim : Simulates s t R) (h : R nav c) {fuel : Nat}
    (hfuel : t.length ≤ c.position + fuel) : R (nav.forward fuel) c.toEnd := by
  induction fuel generalizing nav c with
  | zero =>
    rw [Cursor.toEnd_of_last (Nat.le_succ_of_le hfuel)]
    exact h
  | succ fuel ih =>
    obtain ⟨hmore, hnav⟩ := hsim.hasNext h
    rw [forward_succ, hmore]
    by_cases hlast : c.position + 1 < t.length
    · have hposition := (Cursor.next_of_lt (Nat.lt_of_succ_lt hlast)).1
      rw [decide_eq_true hlast, if_pos rfl, ← Cursor.toEnd_next hlast]
      exact ih (hsim.next hnav) (by omega)
    · rw [decide_eq_false hlast, if_neg Bool.false_ne_true,
        Cursor.toEnd_of_last (Nat.le_of_not_lt hlast)]
      exact hnav

theorem step (hsim : Simulates s t R) (call : Call) (h : R nav c) :
    (nav.step call).1 = (c.step s call).1 ∧ R (nav.step call).2 (c.step s call).2 := by
  cases call with
  | next => exact ⟨rfl, hsim.next h⟩
  | previous => exact ⟨rfl, hsim.previous h⟩
  | toEnd => exact ⟨rfl, hsim.forward h (hsim.length_le h)⟩
  | hasNext => exact ⟨congrArg Answer.flag (hsim.hasNext h).1, (hsim.hasNext h).2⟩
  | hasPrevious => exact ⟨congrArg Answer.flag (hsim.hasPrevious h), h⟩
  | current => exact ⟨congrArg Answer.value (hsim.current h), h⟩

theorem run (hsim : Simulates s t R) (calls : List Call) (h : R nav c) :
    (Call.run Navigator.step calls nav).1 = (Call.run (Cursor.step s) calls c).1 ∧
      R (Call.run Navigator.step calls nav).2 (Call.run (Cursor.step s) calls c).2 :=
  Call.run_related (fun call _ _ _ h => hsim.step call h) (Call.permitted_always calls nav) h

end Simulates

end Navigator

end FlowTrace
