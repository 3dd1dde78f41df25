import ProbCore.Proofs.PlainProgram
import Mathlib

/-! The tree of all executions of a program, and the executions with mass that it holds. This
is the meaning of an exhaustive search, whatever the order in which it explores. -/

namespace ProbCore

/-- A choice lists the values it may take, with their log densities. -/
inductive ExecutionTree (R : Type) where
  | leaf (value : Value)
  | factor (score : R) (rest : ExecutionTree R)
  | choice (branches : List (Value × R)) (rest : Value → ExecutionTree R)

variable {κ D R : Type} [Score R]

/-- A running score with which no execution goes on. -/
def Score.isHopeless (x : R) : Bool := Score.isImpossible x || Score.isNaN x

/-- A value that a choice takes with some mass. -/
def possible (b : Value × R) : Bool := !Score.isImpossible b.2

namespace ExecutionTree

/-- The executions from a running score on, each with its value and its score: every possible
branch is followed, and a factor that leaves a hopeless score ends its execution. -/
def executions : ExecutionTree R → R → List (Value × R)
  | leaf value, score => [(value, score)]
  | factor x rest, score =>
    if Score.isHopeless (score + x) then [] else rest.executions (score + x)
  | choice branches rest, score =>
    (branches.filter possible).flatMap fun b => (rest b.1).executions (score + b.2)

/-- The executions with the number of choices that each makes, counted on from `n`. -/
def paths : ExecutionTree R → Nat → R → List (Nat × Value × R)
  | leaf value, n, score => [(n, value, score)]
  | factor x rest, n, score =>
    if Score.isHopeless (score + x) then [] else rest.paths n (score + x)
  | choice branches rest, n, score =>
    (branches.filter possible).flatMap fun b => (rest b.1).paths (n + 1) (score + b.2)

theorem paths_executions (tree : ExecutionTree R) (n : Nat) (score : R) :
    (tree.paths n score).map (·.2) = tree.executions score := by
  induction tree generalizing n score with
  | leaf value => rfl
  | factor x rest ih =>
    rw [paths, executions]
    split
    · rfl
    · exact ih n (score + x)
  | choice branches rest ih =>
    rw [paths, executions, List.map_flatMap]
    exact List.flatMap_congr fun b _ => ih b.1 (n + 1) (score + b.2)

theorem le_of_mem_paths {tree : ExecutionTree R} {n : Nat} {score : R} {p : Nat × Value × R}
    (member : p ∈ tree.paths n score) : n ≤ p.1 := by
  induction tree generalizing n score with
  | leaf value =>
    obtain rfl := List.mem_singleton.mp member
    exact le_rfl
  | factor x rest ih =>
    rw [paths] at member
    split at member
    · cases member
    · exact ih member
  | choice branches rest ih =>
    obtain ⟨b, _, inside⟩ := List.mem_flatMap.mp member
    exact Nat.le_of_succ_le (ih b.1 inside)

/-- How many branches an exhaustive search resumes. -/
def resumptions : ExecutionTree R → R → Nat
  | leaf _, _ => 0
  | factor x rest, score =>
    if Score.isHopeless (score + x) then 0 else rest.resumptions (score + x)
  | choice branches rest, score =>
    ((branches.filter possible).map fun b => (rest b.1).resumptions (score + b.2) + 1).sum

/-- A bound on the steps from one choice to the next. -/
def height : ExecutionTree R → Nat
  | leaf _ => 1
  | factor _ rest => rest.height + 1
  | choice branches rest => (branches.map fun b => (rest b.1).height).foldr max 0 + 1

end ExecutionTree

/-- What a program does from a step on is this tree. Where an execution cannot go on, the
tree may be anything. -/
inductive Unfolds (laws : Densities D R) (P : PlainProgram κ D R) :
    R → Step κ D R → ExecutionTree R → Prop where
  | exit {score s value} : Unfolds laws P score (.exit s value) (.leaf value)
  | factor {score s k a x next rest}
      (resumes : Score.isHopeless (score + x) = false → P.next k s .absent = .ok next)
      (unfolds : Score.isHopeless (score + x) = false → Unfolds laws P (score + x) next rest) :
      Unfolds laws P score (.factor s k a x) (.factor x rest)
  | choice {score s k a d branches} {next : Value → Step κ D R} {rest : Value → ExecutionTree R}
      (listed : laws.support d = .ok (branches.map (·.1)))
      (weighed : ∀ b ∈ branches, laws.logDensity d b.1 = .ok b.2)
      (resumes : ∀ b ∈ branches, possible b → P.next k s b.1 = .ok (next b.1))
      (unfolds : ∀ b ∈ branches, possible b →
        Unfolds laws P (score + b.2) (next b.1) (rest b.1)) :
      Unfolds laws P score (.sample s k a d) (.choice branches rest)

end ProbCore
