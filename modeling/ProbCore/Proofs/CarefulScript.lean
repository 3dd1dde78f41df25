import ProbCore.Proofs.Scripted
import ProbCore.Proofs.Yields

/-! A host like that of scripted draws which refuses draws that a sampler never makes: values
that are not listed or have no mass, members of a population without weight, a uniform number
outside its range. -/

namespace ProbCore

variable {D R : Type} [Score R]

/-- A value that a distribution lists, with some mass. -/
def Listed (laws : Densities D R) (d : D) (v : Value) : Prop :=
  ∃ vs lp, laws.support d = .ok vs ∧ v ∈ vs ∧ laws.logDensity d v = .ok lp ∧
    Score.isImpossible lp = false

def Careful {D R : Type} (laws : Densities D R) : Type := Script laws

namespace Careful

variable {laws : Densities D R}

/-- A member with weight at every index. -/
def Weighty (weights : List R) (indices : List Nat) : Prop :=
  ∀ i ∈ indices, ∃ w, weights[i]? = some w ∧ Score.isImpossible w = false

open Classical in
noncomputable def listedFrom (laws : Densities D R) (d : D) : Draw R → Option Value
  | .value v => if Listed laws d v then some v else none
  | _ => none

def belowOne : Draw R → Option R
  | .offset x => if Score.atMost Score.zero x && Score.less x (Score.ofNat 1) then some x else none
  | _ => none

def numeric : Draw R → Option R
  | .logUniform x => if Score.isNaN x then none else some x
  | _ => none

open Classical in
noncomputable def weightyFrom (weights : List R) (n : Nat) : Draw R → Option (List Nat)
  | .selection indices =>
    if indices.length = n ∧ Weighty weights indices then some indices else none
  | _ => none

noncomputable instance : Host (EStateM Failure (Careful laws)) D R where
  fail := throw
  note _ := pure ()
  unlessDegenerate := Script.unlessDegenerate
  nested act := act
  enumerable := laws.enumerable
  support d := match laws.support d with
    | .ok values => pure values
    | .error e => throw e
  logDensity d v := match laws.logDensity d v with
    | .ok x => pure x
    | .error e => throw e
  draw d := Script.take (listedFrom laws d)
  logUniform := Script.take numeric
  offset := Script.take belowOne
  indexBelow n := Script.take (Script.indexUnder n)
  categorical weights n := Script.take (weightyFrom weights n)

instance : LawfulHost (Careful laws) D R where
  densities := laws
  ready _ := True
  exists_ready := ⟨⟨[]⟩, trivial⟩
  fail_eq _ := rfl
  enumerable_eq _ := rfl
  support_eq d := by
    simp only [Host.support, Host.lift]
    split <;> simp_all [Host.fail]
  logDensity_eq d v := by
    simp only [Host.logDensity, Host.lift]
    split <;> simp_all [Host.fail]
  note_ready _ {w} _ := ⟨w, rfl, trivial⟩
  draw_ready _ _ := trivial
  logUniform_ready _ _ := trivial
  indexBelow_ready _ _ := trivial

theorem draw_eq_ok {d : D} {v : Value} {w w' : Careful laws} :
    (Host.draw d : EStateM Failure (Careful laws) Value) w = .ok v w' ↔
      Script.draws w = .value v :: Script.draws w' ∧ Listed laws d v := by
  refine Script.take_eq_ok.trans ⟨?_, ?_⟩
  · rintro ⟨next, drawn, chosen⟩
    unfold listedFrom at chosen
    split at chosen
    next =>
      split at chosen
      next listed =>
        cases chosen
        exact ⟨drawn, listed⟩
      next => cases chosen
    next => cases chosen
  · rintro ⟨drawn, listed⟩
    exact ⟨_, drawn, if_pos listed⟩

theorem draw_listed {d : D} {v : Value}
    (yields : Yields (Host.draw d : EStateM Failure (Careful laws) Value) v) : Listed laws d v := by
  obtain ⟨w, w', drew⟩ := yields
  exact (draw_eq_ok.mp drew).2

theorem logUniform_number {x : R}
    (yields : Yields (Host.logUniform : EStateM Failure (Careful laws) R) x) : Score.isNaN x = false := by
  obtain ⟨w, w', drew⟩ := yields
  obtain ⟨next, _, chosen⟩ := Script.take_eq_ok.mp drew
  unfold numeric at chosen
  split at chosen
  next =>
    split at chosen
    next => cases chosen
    next number =>
      cases chosen
      simpa using number
  next => cases chosen

theorem selection_weighty {weights : List R} {n : Nat} {indices : List Nat}
    (yields : Yields (Host.categorical weights n : EStateM Failure (Careful laws) (List Nat)) indices) :
    Weighty weights indices := by
  obtain ⟨w, w', drew⟩ := yields
  obtain ⟨next, _, chosen⟩ := Script.take_eq_ok.mp drew
  unfold weightyFrom at chosen
  split at chosen
  next =>
    split at chosen
    next both =>
      cases chosen
      exact both.2
    next => cases chosen
  next => cases chosen

instance : SoundHost (Careful laws) D R where
  fail_sound := by
    rintro α e a ⟨w, w', returned⟩
    cases returned
  nested_sound yields := yields
  unlessDegenerate_sound := by
    rintro α act a ⟨w, w', returned⟩
    change Script.unlessDegenerate act w = _ at returned
    unfold Script.unlessDegenerate at returned
    split at returned
    next ran =>
      cases returned
      exact ⟨_, _, ran⟩
    next => cases returned
    next => cases returned
  selection_inside yields i member := by
    obtain ⟨_, found, _⟩ := selection_weighty yields i member
    exact (List.getElem?_eq_some_iff.mp found).1

end Careful

end ProbCore
