import FlowTrace.Navigator.Memo
import FlowTrace.Navigator.Window

/-!
# Navigators

Moving forward and backward over the values of a source, with bounded or unbounded memory.  A move
that is not possible does nothing.
-/

namespace FlowTrace

/-- A cursor over the values of a source. -/
inductive Navigator (σ α : Type) where
  | window (w : Window σ α)
  | memo (m : Memo σ α)

namespace Navigator

variable {σ α : Type}

/-- A navigator at the start of a source; only the bounded one has a window. -/
def ofSource [Source σ α] (source : σ) (windowSize : Int) (unbounded : Bool) : Navigator σ α :=
  if unbounded then memo (.ofSource source) else window (.ofSource source windowSize)

/-- The source behind the values that were taken. -/
def source : Navigator σ α → σ
  | window w => w.source
  | memo m => m.source

/-- The number of values taken from the source. -/
def pulled : Navigator σ α → Nat
  | window w => w.pulled
  | memo m => m.pulled

def current? : Navigator σ α → Option α
  | window w => w.current?
  | memo m => m.current?

def hasNext [Source σ α] : Navigator σ α → Bool × Navigator σ α
  | window w => (w.hasNext, window w)
  | memo m => let (b, m) := m.hasNext; (b, memo m)

def hasPrevious : Navigator σ α → Bool
  | window w => w.hasPrevious
  | memo m => m.hasPrevious

def next [Source σ α] : Navigator σ α → Navigator σ α
  | window w => window w.next
  | memo m => memo m.next

def previous : Navigator σ α → Navigator σ α
  | window w => window w.previous
  | memo m => memo m.previous

/-- Move on while there is a next value, at most `fuel` times. -/
def forward [Source σ α] : Nat → Navigator σ α → Navigator σ α
  | 0, n => n
  | fuel + 1, n =>
    let (more, n) := n.hasNext
    if more then forward fuel n.next else n

/-- The number of values that are kept. -/
def kept : Navigator σ α → Nat
  | window w => w.capacity
  | memo m => m.values.length

/-- More moves than there are values left. -/
def moveBound [Source σ α] (n : Navigator σ α) : Nat := n.kept + Source.bound n.source + 1

/-- Move on to the last value. -/
def toEnd [Source σ α] (n : Navigator σ α) : Navigator σ α := n.forward n.moveBound

end Navigator

end FlowTrace
