import ProbCore.Proofs.ExactScore
import ProbCore.Proofs.LawfulHost

/-! A host whose draws are written down beforehand. Every run of a strategy is its run on the
script of the draws that it made, so that what can happen at random is what some script makes
happen. -/

namespace ProbCore

/-- The outcome of a random draw. -/
inductive Draw (R : Type) where
  | value (v : Value)
  | index (i : Nat)
  | logUniform (x : R)
  | offset (x : R)
  | selection (indices : List Nat)

/-- The draws still to come. The distributions they come from have these laws. -/
structure Script {D R : Type} (laws : Densities D R) where
  draws : List (Draw R)

namespace Script

variable {D R : Type} {laws : Densities D R} {α : Type}

/-- The next draw, if it is one that can come here. -/
def take (select : Draw R → Option α) : EStateM Failure (Script laws) α := fun w =>
  match w.draws with
  | [] => .error .noSuchPosition w
  | next :: rest =>
    match select next with
    | some a => .ok a ⟨rest⟩
    | none => .error .noSuchPosition w

theorem take_eq_ok {select : Draw R → Option α} {a : α} {w w' : Script laws} :
    take select w = .ok a w' ↔ ∃ next, w.draws = next :: w'.draws ∧ select next = some a := by
  obtain ⟨draws⟩ := w
  obtain ⟨rest⟩ := w'
  cases draws with
  | nil => simp [take]
  | cons next others =>
    simp only [take, List.cons.injEq, and_assoc]
    constructor
    · intro returned
      split at returned
      next b chosen =>
        cases returned
        exact ⟨next, rfl, rfl, chosen⟩
      next => cases returned
    · rintro ⟨_, rfl, rfl, chosen⟩
      rw [chosen]

/-- With fuel enough, a computation takes these draws and no others, and returns. -/
def Takes (laws : Densities D R) (x : Nat → EStateM Failure (Script laws) α)
    (draws : List (Draw R)) (a : α) : Prop :=
  ∃ n, ∀ fuel ≥ n, ∀ rest, x fuel ⟨draws ++ rest⟩ = .ok a ⟨rest⟩

def unlessDegenerate (act : EStateM Failure (Script laws) α) :
    EStateM Failure (Script laws) (Option α) := fun w =>
  match act w with
  | .ok a w' => .ok (some a) w'
  | .error .degenerate w' => .ok none w'
  | .error e w' => .error e w'

variable [Score R]

def valueFrom (laws : Densities D R) (d : D) : Draw R → Option Value
  | .value v =>
    match laws.accepts d v with
    | .ok true => some v
    | _ => none
  | _ => none

def indexUnder (n : Nat) : Draw R → Option Nat
  | .index i => if i < n then some i else none
  | _ => none

instance : Host (EStateM Failure (Script laws)) D R where
  fail := throw
  note _ := pure ()
  unlessDegenerate := unlessDegenerate
  nested act := act
  enumerable := laws.enumerable
  support d := match laws.support d with
    | .ok values => pure values
    | .error e => throw e
  logDensity d v := match laws.logDensity d v with
    | .ok x => pure x
    | .error e => throw e
  draw d := take (valueFrom laws d)
  logUniform := take fun | .logUniform x => some x | _ => none
  offset := take fun | .offset x => some x | _ => none
  indexBelow n := take (indexUnder n)
  categorical _ _ := take fun | .selection indices => some indices | _ => none

instance : LawfulHost (Script laws) D R where
  densities := laws
  ready _ := True
  exists_ready := ⟨⟨[]⟩, trivial⟩
  fail_eq _ := rfl
  enumerable_eq _ := rfl
  support_eq d := by
    simp only [Host.support, Host.lift]
    split <;> simp_all [Host.fail]
  logDensity_eq d v := by
    simp only [Host.logDensity, Host.lift]
    split <;> simp_all [Host.fail]
  note_ready _ {w} _ := ⟨w, rfl, trivial⟩
  draw_ready _ _ := trivial
  logUniform_ready _ _ := trivial
  indexBelow_ready _ _ := trivial

theorem draw_eq_ok {d : D} {v : Value} {w w' : Script laws} :
    (Host.draw d : EStateM Failure (Script laws) Value) w = .ok v w' ↔
      w.draws = .value v :: w'.draws ∧ laws.accepts d v = .ok true := by
  refine take_eq_ok.trans ⟨?_, ?_⟩
  · rintro ⟨next, drawn, chosen⟩
    unfold valueFrom at chosen
    split at chosen
    next value =>
      split at chosen
      next accepted =>
        cases chosen
        exact ⟨drawn, accepted⟩
      next => cases chosen
    next => cases chosen
  · rintro ⟨drawn, accepted⟩
    exact ⟨_, drawn, by simp only [valueFrom, accepted]⟩

theorem indexBelow_eq_ok {n i : Nat} {w w' : Script laws} :
    (Host.indexBelow n : EStateM Failure (Script laws) Nat) w = .ok i w' ↔
      w.draws = .index i :: w'.draws ∧ i < n := by
  refine take_eq_ok.trans ⟨?_, ?_⟩
  · rintro ⟨next, drawn, chosen⟩
    unfold indexUnder at chosen
    split at chosen
    next =>
      split at chosen
      next below =>
        cases chosen
        exact ⟨drawn, below⟩
      next => cases chosen
    next => cases chosen
  · rintro ⟨drawn, below⟩
    exact ⟨_, drawn, by simp only [indexUnder, if_pos below]⟩

theorem logUniform_eq_ok {x : R} {w w' : Script laws} :
    (Host.logUniform : EStateM Failure (Script laws) R) w = .ok x w' ↔
      w.draws = .logUniform x :: w'.draws := by
  refine take_eq_ok.trans ⟨?_, ?_⟩
  · rintro ⟨next, drawn, chosen⟩
    split at chosen
    next =>
      cases chosen
      exact drawn
    next => cases chosen
  · exact fun drawn => ⟨_, drawn, rfl⟩

end Script

/-- A fair coin, whatever the distribution. -/
noncomputable def fairCoin : Densities Unit Exact where
  enumerable _ := true
  support _ := .ok [.bool false, .bool true]
  logDensity _ _ := .ok (.real (Real.log 2⁻¹))

theorem bools_contain (b : Bool) : [Value.bool false, Value.bool true].contains (.bool b) = true := by
  cases b <;> simp [List.contains, List.elem, BEq.beq, Value.beq]

theorem fairCoin_accepts (b : Bool) : fairCoin.accepts () (.bool b) = .ok true :=
  congrArg Except.ok (bools_contain b)

end ProbCore
