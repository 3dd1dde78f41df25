import ProbCore.Store
import ProbCore.Score.Basic

/-! The branches that an exhaustive search has still to explore, and the order in which it
takes them. -/

namespace ProbCore

/-- A suspended rest with the value it will be resumed with, and the score up to there. -/
structure Branch (κ R : Type) where
  k : κ
  store : Store
  value : Value
  score : R

inductive Traversal where
  | depthFirst | breadthFirst | likelyFirst
  deriving DecidableEq, Repr

def Traversal.words : List (String × Traversal) :=
  [("depth-first", .depthFirst), ("breadth-first", .breadthFirst), ("likely-first", .likelyFirst)]

namespace Heap

/-- A branch in a heap: the smallest rank comes out first, the earliest ticket among equal
ranks. -/
structure Entry (κ R : Type) where
  rank : R
  ticket : Nat
  branch : Branch κ R

variable {κ R : Type} [Score R]

def before (x y : Entry κ R) : Bool :=
  if Score.same x.rank y.rank then x.ticket < y.ticket else Score.less x.rank y.rank

/-- Moves the entry at `i` up while it comes before its parent. -/
def rise (h : Array (Entry κ R)) (i : Nat) : Array (Entry κ R) :=
  if i = 0 then h
  else
    let parent := (i - 1) / 2
    match h[i]?, h[parent]? with
    | some x, some p => if before x p then rise (h.swapIfInBounds i parent) parent else h
    | _, _ => h
termination_by i
decreasing_by omega

/-- The child that comes first; the right one if neither comes before the other. -/
def firstChild (h : Array (Entry κ R)) (i : Nat) : Nat :=
  match h[2 * i + 1]?, h[2 * i + 2]? with
  | some left, some right => if before left right then 2 * i + 1 else 2 * i + 2
  | _, _ => 2 * i + 1

/-- Moves the entry at `i` down to a leaf along the first children, then up again to its
place. -/
def settle (h : Array (Entry κ R)) : Nat → Nat → Array (Entry κ R)
  | 0, i => rise h i
  | fuel + 1, i =>
    if 2 * i + 1 < h.size then
      let child := firstChild h i
      settle (h.swapIfInBounds i child) fuel child
    else rise h i

def push (h : Array (Entry κ R)) (x : Entry κ R) : Array (Entry κ R) := rise (h.push x) h.size

/-- The first entry and the heap without it. -/
def pop? (h : Array (Entry κ R)) : Option (Entry κ R × Array (Entry κ R)) :=
  match h[0]?, h.back? with
  | some first, some last =>
    let rest := h.pop
    if rest.isEmpty then some (first, rest)
    else some (first, settle (rest.setIfInBounds 0 last) rest.size 0)
  | _, _ => none

end Heap

/-- A stack, a queue, or a heap with its next ticket. -/
inductive Frontier (κ R : Type) where
  | stack (branches : List (Branch κ R))
  | queue (branches : List (Branch κ R))
  | heap (entries : Array (Heap.Entry κ R)) (ticket : Nat)

namespace Frontier

variable {κ R : Type} [Score R]

def empty : Traversal → Frontier κ R
  | .depthFirst => .stack []
  | .breadthFirst => .queue []
  | .likelyFirst => .heap #[] 0

def size : Frontier κ R → Nat
  | stack bs | queue bs => bs.length
  | heap es _ => es.size

def pushRanked : Frontier κ R → Branch κ R → Frontier κ R
  | heap es ticket, b => heap (Heap.push es ⟨-b.score, ticket, b⟩) (ticket + 1)
  | stack bs, b => stack (b :: bs)
  | queue bs, b => queue (bs ++ [b])

/-- Adds the branches of one choice. A stack takes the first of them first. -/
def pushAll (f : Frontier κ R) (branches : List (Branch κ R)) : Frontier κ R :=
  match f with
  | stack bs => stack (branches ++ bs)
  | queue bs => queue (bs ++ branches)
  | heap .. => branches.foldl pushRanked f

/-- The next branch to explore. -/
def pop? : Frontier κ R → Option (Branch κ R × Frontier κ R)
  | stack [] | queue [] => none
  | stack (b :: bs) => some (b, stack bs)
  | queue (b :: bs) => some (b, queue bs)
  | heap es ticket => (Heap.pop? es).map fun (e, rest) => (e.branch, heap rest ticket)

end Frontier

end ProbCore
