import ProbCore.Proofs.ExactScore
import ProbCore.Proofs.LawfulHost
import ProbCore.Proofs.Mirroring

/-! Computations that come to an end. A strategy is given fuel; that it ends means that from
every state in which its host is ready some amount of fuel is enough, and that more of it
changes nothing. -/

namespace ProbCore

variable {σ D R : Type} [Host (EStateM Failure σ) D R] [LawfulHost σ D R] {α β : Type}

/-- From every state in which the host is ready, the computation returns something good and
leaves the host ready. -/
def Answers (good : α → Prop) (x : EStateM Failure σ α) : Prop :=
  ∀ w, LawfulHost.ready w → ∃ a w', x w = .ok a w' ∧ LawfulHost.ready w' ∧ good a

/-- From every state in which the host is ready, the computation returns something good or fails
in an allowed way as soon as it has enough fuel, and leaves the host ready. -/
def Concludes (good : α → Prop) (allowed : Failure → Prop) (x : Nat → EStateM Failure σ α) : Prop :=
  ∀ w, LawfulHost.ready w → ∃ n w', LawfulHost.ready w' ∧
    ((∃ a, good a ∧ ∀ fuel ≥ n, x fuel w = .ok a w') ∨
      ∃ e, allowed e ∧ ∀ fuel ≥ n, x fuel w = .error e w')

section

variable {good good' : α → Prop} {fine : β → Prop} {allowed allowed' : Failure → Prop}
  {x : EStateM Failure σ α}

theorem Answers.imp (answers : Answers good x) (weaker : ∀ a, CanReturn x a → good a → good' a) :
    Answers good' x := by
  intro w ready
  obtain ⟨a, w', returned, ready', holds⟩ := answers w ready
  exact ⟨a, w', returned, ready', weaker a ⟨w, w', ready, returned⟩ holds⟩

/-- What the computation can return is good. -/
theorem Answers.holds (answers : Answers good x) {a : α} (returned : CanReturn x a) : good a := by
  obtain ⟨w, w', ready, returned⟩ := returned
  obtain ⟨b, _, same, _, holds⟩ := answers w ready
  rw [returned] at same
  cases same
  exact holds

theorem Answers.pure {a : α} (holds : good a) : Answers good (Pure.pure a : EStateM Failure σ α) :=
  fun w ready => ⟨a, w, rfl, ready, holds⟩

theorem Answers.bind {f : α → EStateM Failure σ β} (first : Answers good x)
    (rest : ∀ a, CanReturn x a → good a → Answers fine (f a)) : Answers fine (x >>= f) := by
  intro w ready
  obtain ⟨a, middle, began, ready', holds⟩ := first w ready
  obtain ⟨b, w', ended, ready', holds⟩ := rest a ⟨w, middle, ready, began⟩ holds middle ready'
  exact ⟨b, w', bind_eq_ok.mpr ⟨a, middle, began, ended⟩, ready', holds⟩

theorem Answers.lift {r : Except Failure α} {a : α} (known : r = .ok a) (holds : good a) :
    Answers good (Host.lift r : EStateM Failure σ α) := by
  subst known
  exact .pure holds

theorem Answers.note (n : Notice) : Answers (fun _ => True) (Host.note n : EStateM Failure σ Unit) := by
  intro w ready
  obtain ⟨w', noted, ready⟩ := LawfulHost.note_ready n ready
  exact ⟨(), w', noted, ready, trivial⟩

theorem Answers.mapM {γ : Type} {f : γ → EStateM Failure σ α} {cs : List γ}
    (each : ∀ c ∈ cs, Answers good (f c)) :
    Answers (fun as => as.length = cs.length ∧ ∀ a ∈ as, good a) (cs.mapM f) := by
  induction cs with
  | nil =>
    rw [List.mapM_nil]
    exact .pure ⟨rfl, nofun⟩
  | cons c cs ih =>
    rw [List.mapM_cons]
    refine (each c List.mem_cons_self).bind fun a _ first => ?_
    refine (ih fun c member => each c (List.mem_cons_of_mem _ member)).bind fun as _ rest => ?_
    exact .pure ⟨congrArg (· + 1) rest.1, List.forall_mem_cons.mpr ⟨first, rest.2⟩⟩

end

namespace Concludes

variable {good good' : α → Prop} {fine : β → Prop} {allowed allowed' : Failure → Prop}
  {x : Nat → EStateM Failure σ α}

theorem answers {y : EStateM Failure σ α} (answers : Answers good y) :
    Concludes good allowed fun _ => y := by
  intro w ready
  obtain ⟨a, w', returned, ready, holds⟩ := answers w ready
  exact ⟨0, w', ready, .inl ⟨a, holds, fun _ _ => returned⟩⟩

theorem pure {a : α} (holds : good a) :
    Concludes good allowed fun _ => (Pure.pure a : EStateM Failure σ α) :=
  fun w ready => ⟨0, w, ready, .inl ⟨a, holds, fun _ _ => rfl⟩⟩

theorem fail {e : Failure} (may : allowed e) :
    Concludes good allowed fun _ => (Host.fail e : EStateM Failure σ α) := by
  intro w ready
  refine ⟨0, w, ready, .inr ⟨e, may, fun _ _ => ?_⟩⟩
  rw [LawfulHost.fail_eq]
  rfl

theorem imp (concludes : Concludes good allowed x) (weaker : ∀ a, good a → good' a)
    (wider : ∀ e, allowed e → allowed' e) : Concludes good' allowed' x := by
  intro w ready
  obtain ⟨n, w', ready', ⟨a, holds, ends⟩ | ⟨e, may, ends⟩⟩ := concludes w ready
  · exact ⟨n, w', ready', .inl ⟨a, weaker a holds, ends⟩⟩
  · exact ⟨n, w', ready', .inr ⟨e, wider e may, ends⟩⟩

/-- What was concluded was also returned, with some fuel. -/
theorem seen (concludes : Concludes good allowed x) :
    Concludes (fun a => good a ∧ ∃ fuel, Yields (x fuel) a) allowed x := by
  intro w ready
  obtain ⟨n, w', ready', ⟨a, holds, ends⟩ | failed⟩ := concludes w ready
  · exact ⟨n, w', ready', .inl ⟨a, ⟨holds, n, w, w', ends n (le_refl n)⟩, ends⟩⟩
  · exact ⟨n, w', ready', .inr failed⟩

/-- What follows is needed for good results only. -/
theorem bind {f : Nat → α → EStateM Failure σ β} (first : Concludes good allowed x)
    (rest : ∀ a, good a → Concludes fine allowed fun n => f n a) :
    Concludes fine allowed fun n => x n >>= f n := by
  intro w ready
  obtain ⟨n, middle, ready, ⟨a, holds, ends⟩ | ⟨e, may, ends⟩⟩ := first w ready
  · obtain ⟨m, w', ready, later⟩ := rest a holds middle ready
    refine ⟨max n m, w', ready, ?_⟩
    have began : ∀ fuel ≥ max n m, (x fuel >>= f fuel) w = f fuel a middle := by
      intro fuel enough
      change EStateM.bind _ _ w = _
      rw [EStateM.bind, ends fuel (le_of_max_le_left enough)]
    obtain ⟨b, holds, ends⟩ | ⟨e, may, ends⟩ := later
    · exact .inl ⟨b, holds, fun fuel enough =>
        (began fuel enough).trans (ends fuel (le_of_max_le_right enough))⟩
    · exact .inr ⟨e, may, fun fuel enough =>
        (began fuel enough).trans (ends fuel (le_of_max_le_right enough))⟩
  · refine ⟨n, middle, ready, .inr ⟨e, may, fun fuel enough => ?_⟩⟩
    change EStateM.bind _ _ w = _
    rw [EStateM.bind, ends fuel enough]

/-- A computation that spends a unit of fuel and goes on. -/
theorem spend {y : Nat → EStateM Failure σ α} (rest : Concludes good allowed x)
    (goes : ∀ fuel, y (fuel + 1) = x fuel) : Concludes good allowed y := by
  intro w ready
  obtain ⟨n, w', ready, ends⟩ := rest w ready
  have later : ∀ r, (∀ fuel ≥ n, x fuel w = r) → ∀ fuel ≥ n + 1, y fuel w = r := by
    intro r ends fuel enough
    obtain ⟨fuel, rfl⟩ := Nat.exists_eq_add_of_le' (Nat.le_trans (Nat.le_add_left 1 n) enough)
    rw [goes]
    exact ends fuel (Nat.le_of_succ_le_succ enough)
  obtain ⟨a, holds, ends⟩ | ⟨e, may, ends⟩ := ends
  · exact ⟨n + 1, w', ready, .inl ⟨a, holds, later _ ends⟩⟩
  · exact ⟨n + 1, w', ready, .inr ⟨e, may, later _ ends⟩⟩

/-- Two things concluded of one computation hold of the same result. -/
theorem and (first : Concludes good allowed x) (second : Concludes good' allowed' x) :
    Concludes (fun a => good a ∧ good' a) (fun e => allowed e ∧ allowed' e) x := by
  intro w ready
  obtain ⟨n, w', ready', ends⟩ := first w ready
  obtain ⟨m, u, _, others⟩ := second w ready
  have left : n ≤ max n m := le_max_left n m
  have right : m ≤ max n m := le_max_right n m
  refine ⟨n, w', ready', ?_⟩
  obtain ⟨a, holds, ends⟩ | ⟨e, may, ends⟩ := ends
  · have here := ends _ left
    obtain ⟨b, also, others⟩ | ⟨e, _, others⟩ := others
    · rw [others _ right] at here
      cases here
      exact .inl ⟨a, ⟨holds, also⟩, ends⟩
    · rw [others _ right] at here
      cases here
  · have here := ends _ left
    obtain ⟨b, _, others⟩ | ⟨e, also, others⟩ := others
    · rw [others _ right] at here
      cases here
    · rw [others _ right] at here
      cases here
      exact .inr ⟨e, ⟨may, also⟩, ends⟩

theorem mapM {γ : Type} {f : Nat → γ → EStateM Failure σ α} {cs : List γ}
    (each : ∀ c ∈ cs, Concludes good allowed fun n => f n c) :
    Concludes (fun as => as.length = cs.length ∧ ∀ a ∈ as, good a) allowed fun n => cs.mapM (f n) := by
  induction cs with
  | nil =>
    simp only [List.mapM_nil]
    exact .pure ⟨rfl, nofun⟩
  | cons c cs ih =>
    simp only [List.mapM_cons]
    apply Concludes.bind (each c List.mem_cons_self)
    intro a first
    apply Concludes.bind (ih fun c member => each c (List.mem_cons_of_mem _ member))
    intro as rest
    exact .pure ⟨congrArg (· + 1) rest.1, List.forall_mem_cons.mpr ⟨first, rest.2⟩⟩

/-- Spare fuel does no harm. -/
theorem spare (concludes : Concludes good allowed x) (k : Nat) :
    Concludes good allowed fun n => x (n + k) := by
  intro w ready
  obtain ⟨n, w', ready, ends⟩ := concludes w ready
  refine ⟨n, w', ready, ?_⟩
  obtain ⟨a, holds, ends⟩ | ⟨e, may, ends⟩ := ends
  · exact .inl ⟨a, holds, fun fuel enough => ends _ (Nat.le_add_right_of_le enough)⟩
  · exact .inr ⟨e, may, fun fuel enough => ends _ (Nat.le_add_right_of_le enough)⟩

end Concludes

/-- A host that answers all that strategies ask besides values: uniform numbers and indices,
members of a population that has some weight, a turn of its own for an inner strategy, and the
loss of all weight told apart from other failures. -/
class AnsweringHost (σ : Type) (D : outParam Type) [Host (EStateM Failure σ) D Exact]
    [LawfulHost σ D Exact] : Prop where
  logUniform_answers :
    Answers (fun x => x.IsReal ∨ x = .negInf) (Host.logUniform : EStateM Failure σ Exact)
  offset_answers :
    Answers (fun x => ∃ u : ℝ, x = .real u ∧ 0 ≤ u ∧ u < 1) (Host.offset : EStateM Failure σ Exact)
  indexBelow_answers {n : Nat} : 0 < n →
    Answers (· < n) (Host.indexBelow n : EStateM Failure σ Nat)
  categorical_answers {weights : List Exact} {n : Nat} : (∃ w ∈ weights, w.IsReal) →
    (∀ w ∈ weights, w.IsReal ∨ w = .negInf) →
    Answers (fun indices => indices.length = n ∧ ∀ i ∈ indices, i < weights.length)
      (Host.categorical weights n : EStateM Failure σ (List Nat))
  unlessDegenerate_eq {α : Type} (act : EStateM Failure σ α) : Host.unlessDegenerate act = caught act
  nested_eq {w : σ} : LawfulHost.ready w → ∃ (inner : σ) (leave : σ → σ), LawfulHost.ready inner ∧
    (∀ w', LawfulHost.ready w' → LawfulHost.ready (leave w')) ∧
    ∀ {α : Type} (act : EStateM Failure σ α), Host.nested act w =
      match act inner with
      | .ok a w' => .ok a (leave w')
      | .error e w' => .error e (leave w')

section

variable {σ D : Type} [Host (EStateM Failure σ) D Exact] [LawfulHost σ D Exact] [AnsweringHost σ D]
  {α : Type} {good : α → Prop} {allowed : Failure → Prop} {x : Nat → EStateM Failure σ α}

/-- An inner strategy concludes what it would conclude alone. -/
theorem Concludes.nested (inner : Concludes good allowed x) :
    Concludes good allowed fun fuel => Host.nested (x fuel) := by
  intro w ready
  obtain ⟨began, leave, ready, leaves, same⟩ := AnsweringHost.nested_eq ready
  obtain ⟨n, w', ready', ends⟩ := inner began ready
  refine ⟨n, leave w', leaves w' ready', ?_⟩
  obtain ⟨a, holds, ends⟩ | ⟨e, may, ends⟩ := ends
  · refine .inl ⟨a, holds, fun fuel enough => (same (x fuel)).trans ?_⟩
    rw [ends fuel enough]
  · refine .inr ⟨e, may, fun fuel enough => (same (x fuel)).trans ?_⟩
    rw [ends fuel enough]

/-- Nothing comes of a population that loses all weight. -/
theorem Concludes.unlessDegenerate (inner : Concludes good allowed x) :
    Concludes (fun out => (∃ a, out = some a ∧ good a) ∨ out = none ∧ allowed .degenerate)
      (fun e => allowed e ∧ e ≠ .degenerate) fun fuel => Host.unlessDegenerate (x fuel) := by
  intro w ready
  obtain ⟨n, w', ready', ends⟩ := inner w ready
  have same (fuel : Nat) := congrFun (AnsweringHost.unlessDegenerate_eq (x fuel)) w
  refine ⟨n, w', ready', ?_⟩
  obtain ⟨a, holds, ends⟩ | ⟨e, may, ends⟩ := ends
  · refine .inl ⟨some a, .inl ⟨a, rfl, holds⟩, fun fuel enough => (same fuel).trans ?_⟩
    rw [caught, ends fuel enough]
  · by_cases degenerate : e = .degenerate
    · subst degenerate
      refine .inl ⟨none, .inr ⟨rfl, may⟩, fun fuel enough => (same fuel).trans ?_⟩
      rw [caught, ends fuel enough]
    · refine .inr ⟨e, ⟨may, degenerate⟩, fun fuel enough => (same fuel).trans ?_⟩
      rw [caught, ends fuel enough]
      cases e <;> first | rfl | exact absurd rfl degenerate

end

end ProbCore
