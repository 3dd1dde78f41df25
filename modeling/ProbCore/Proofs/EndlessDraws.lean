import ProbCore.Proofs.Conclusions
import ProbCore.Proofs.Yields

/-! A host that never runs out of draws: it makes them from an endless source of numbers. It
answers whatever a strategy may ask. -/

namespace ProbCore

/-- The numbers still to come. The distributions that values are drawn from have these laws. -/
structure Endless {D : Type} (laws : Densities D Exact) where
  source : Nat → Nat

namespace Endless

variable {D α : Type} {laws : Densities D Exact}

/-- The next number, if there is any. -/
def next : EStateM Failure (Endless laws) Nat := fun w => .ok (w.source 0) ⟨fun n => w.source (n + 1)⟩

/-- A member of a list. -/
def choose (xs : List α) : EStateM Failure (Endless laws) α := do
  match xs[(← next) % xs.length]? with
  | some x => return x
  | none => throw .noSuchPosition

def hasMass (r : Except Failure Exact) : Bool :=
  match r with
  | .ok (.real _) => true
  | _ => false

/-- The values that can be drawn: those listed that have some mass. -/
def listed (laws : Densities D Exact) (d : D) : List Value :=
  ((laws.support d).toOption.getD []).filter fun v => hasMass (laws.logDensity d v)

/-- The members of a population that have some weight. -/
def weighty (weights : List Exact) : List Nat :=
  (List.range weights.length).filter fun i => hasMass (.ok (weights.getD i .nan))

noncomputable instance : Host (EStateM Failure (Endless laws)) D Exact where
  fail := throw
  note _ := pure ()
  unlessDegenerate := caught
  nested act := act
  enumerable := laws.enumerable
  support d := match laws.support d with
    | .ok values => pure values
    | .error e => throw e
  logDensity d v := match laws.logDensity d v with
    | .ok x => pure x
    | .error e => throw e
  draw d := choose (listed laws d)
  logUniform := do
    let n ← next
    return .real (Real.log ((n + 1) / (n + 2)))
  offset := do
    let n ← next
    return .real (n / (n + 1))
  indexBelow n := choose (List.range n)
  categorical weights n := (List.range n).mapM fun _ => choose (weighty weights)

noncomputable instance : LawfulHost (Endless laws) D Exact where
  densities := laws
  ready _ := True
  exists_ready := ⟨⟨fun _ => 0⟩, trivial⟩
  fail_eq _ := rfl
  enumerable_eq _ := rfl
  support_eq d := by
    simp only [Host.support, Host.lift]
    split <;> simp_all [Host.fail]
  logDensity_eq d v := by
    simp only [Host.logDensity, Host.lift]
    split <;> simp_all [Host.fail]
  note_ready _ {w} _ := ⟨w, rfl, trivial⟩
  draw_ready _ _ := trivial
  logUniform_ready _ _ := trivial
  indexBelow_ready _ _ := trivial

theorem next_answers : Answers (fun _ => True) (next : EStateM Failure (Endless laws) Nat) :=
  fun w _ => ⟨w.source 0, _, rfl, trivial, trivial⟩

theorem choose_answers {xs : List α} (some_there : xs ≠ []) :
    Answers (· ∈ xs) (choose xs : EStateM Failure (Endless laws) α) := by
  refine next_answers.bind fun n _ _ => ?_
  have inside : n % xs.length < xs.length := Nat.mod_lt n (List.length_pos_iff.mpr some_there)
  rw [List.getElem?_eq_getElem inside]
  exact .pure (List.getElem_mem inside)

theorem draw_answers {d : D} (some_listed : listed laws d ≠ []) :
    Answers (· ∈ listed laws d) (Host.draw d : EStateM Failure (Endless laws) Value) :=
  choose_answers some_listed

noncomputable instance : AnsweringHost (Endless laws) D where
  logUniform_answers := next_answers.bind fun _ _ _ => .pure (.inl ⟨_, rfl⟩)
  offset_answers := by
    refine next_answers.bind fun n _ _ => .pure ⟨n / (n + 1), rfl, ?_, ?_⟩
    · positivity
    · exact (div_lt_one (by positivity)).mpr (lt_add_one _)
  indexBelow_answers {n} positive := by
    refine (choose_answers ?_).imp fun i _ member => List.mem_range.mp member
    simpa using positive.ne'
  categorical_answers {weights n} some_weight _ := by
    have some_there : weighty weights ≠ [] := by
      obtain ⟨w, member, x, rfl⟩ := some_weight
      obtain ⟨i, inside, found⟩ := List.mem_iff_getElem.mp member
      refine List.ne_nil_of_mem (a := i) (List.mem_filter.mpr ⟨List.mem_range.mpr inside, ?_⟩)
      rw [List.getD_eq_getElem _ _ inside, found]
      rfl
    refine (Answers.mapM fun _ _ => choose_answers some_there).imp fun indices _ drawn => ?_
    refine ⟨by simpa using drawn.1, fun i member => ?_⟩
    exact List.mem_range.mp (List.mem_filter.mp (drawn.2 i member)).1
  unlessDegenerate_eq _ := rfl
  nested_eq {w} _ := by
    refine ⟨w, id, trivial, fun _ _ => trivial, fun act => ?_⟩
    change act w = _
    cases act w <;> rfl

theorem selection_weighty {weights : List Exact} {n : Nat} {indices : List Nat}
    (yields : Yields (Host.categorical weights n : EStateM Failure (Endless laws) (List Nat)) indices) :
    ∀ i ∈ indices, i ∈ weighty weights := by
  intro i member
  obtain ⟨_, _, w, w', chose⟩ := yields.mapM_mem i member
  obtain ⟨m, middle, _, picked⟩ := bind_eq_ok.mp chose
  cases found : (weighty weights)[m % (weighty weights).length]? with
  | none =>
    rw [found] at picked
    cases picked
  | some j =>
    rw [found] at picked
    obtain ⟨rfl, _⟩ := pure_eq_ok.mp picked
    exact List.mem_of_getElem? found

instance : SoundHost (Endless laws) D Exact where
  fail_sound := by
    rintro α e a ⟨w, w', returned⟩
    cases returned
  nested_sound yields := yields
  unlessDegenerate_sound := by
    rintro α act a ⟨w, w', returned⟩
    refine ⟨w, w', ?_⟩
    change caught act w = _ at returned
    unfold caught at returned
    split at returned
    all_goals simp_all
  selection_inside yields i member :=
    List.mem_range.mp (List.mem_filter.mp (selection_weighty yields i member)).1

end Endless

end ProbCore
