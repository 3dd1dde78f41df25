import ProbCore.Proofs.PlainMachine
import ProbCore.Proofs.SharedStrategies
import ProbCore.Proofs.StrategyTracking

/-! Plain programs in two worlds without tables of results. Such a program sees nothing of the world, and its strategy
asks nothing of it but keys: with the same strategy in charge, with the same key, estimates come to the same. And
neither makes a table. -/

namespace ProbCore

/-- Two worlds with the same strategy in charge and no tables, which may differ in all else. -/
structure InCharge (i : List Active × List Active) (w w' : World) : Prop where
  same : ∃ head, w.strategies = head :: i.1 ∧ w'.strategies = head :: i.2
  tableless : w.memos = #[]
  tableless' : w'.memos = #[]

def inCharge : Tie (List Active × List Active) World World := ⟨id, InCharge⟩

theorem InCharge.ready {i : List Active × List Active} {w w' : World} (held : InCharge i w w') : w'.Ready := by
  obtain ⟨head, _, second⟩ := held.same
  exact ⟨by rw [second]; exact List.cons_ne_nil _ _, held.tableless'⟩

theorem World.Ready.inCharge {w : World} (ready : w.Ready) : ∃ i, InCharge i w w := by
  obtain ⟨head, others, there⟩ := List.exists_cons_of_ne_nil ready.charged
  exact ⟨(others, others), ⟨head, there, there⟩, ready.tableless, ready.tableless⟩

/-- What agrees with the same result agrees. -/
theorem inCharge_join {α : Type} {i : List Active × List Active} {r r₁ r₂ : EStateM.Result Failure World α}
    (left : inCharge.Agree (i.1, i.1) id r r₁) (right : inCharge.Agree i id r r₂) : inCharge.Agree i id r₁ r₂ := by
  have joined {w w₁ w₂ : World} (held : InCharge (i.1, i.1) w w₁) (held' : InCharge i w w₂) : InCharge i w₁ w₂ := by
    obtain ⟨head, ran, ran₁⟩ := held.same
    obtain ⟨head', ran', ran₂⟩ := held'.same
    rw [ran] at ran'
    cases ran'
    exact ⟨⟨head, ran₁, ran₂⟩, held.tableless', held'.tableless'⟩
  rcases left.cases with ⟨a, w, w₁, rfl, rfl, held⟩ | ⟨e, e₁, w, w₁, rfl, rfl, moved, held⟩
  · cases r₂ with
    | ok b w₂ => exact ⟨right.1, joined held right.2⟩
    | error e w₂ => cases right
  · cases r₂ with
    | ok b w₂ => cases right
    | error e₂ w₂ =>
      obtain ⟨moved', held'⟩ := right
      rw [moved.eq_of_id, moved'.eq_of_id]
      exact ⟨.same _, joined held held'⟩

namespace Run

variable {α β : Type} {φ : α → β}

theorem current_inCharge : Mirrors inCharge id current current := by
  rintro i ⟨_, _⟩ ⟨_, _⟩ ⟨⟨head, rfl, rfl⟩, first, second⟩
  exact ⟨rfl, ⟨head, rfl, rfl⟩, first, second⟩

theorem updateCurrent_inCharge (f : Active → Active) : Mirrors inCharge id (updateCurrent f) (updateCurrent f) := by
  rintro i ⟨_, _⟩ ⟨_, _⟩ ⟨⟨head, rfl, rfl⟩, first, second⟩
  exact ⟨rfl, ⟨f head, rfl, rfl⟩, first, second⟩

theorem splitKey_inCharge : Mirrors inCharge id splitKey splitKey := by
  refine current_inCharge.bind fun active => ?_
  obtain ⟨title, key, address, picks⟩ := active
  cases key with
  | none => exact .throw (.same _)
  | some key => exact (updateCurrent_inCharge _).bind fun _ => .pure _

theorem installed_inCharge (a : Active) {x : Run α} {y : Run β} (mirrors : Mirrors inCharge φ x y) :
    Mirrors inCharge φ (installed a x) (installed a y) := by
  rintro i w w' ⟨⟨head, first, second⟩, bare, bare'⟩
  rw [installed_eq, installed_eq]
  refine mirrors.bracket_agree (i := (head :: i.1, head :: i.2)) rfl ⟨⟨a, ?_, ?_⟩, bare, bare'⟩ ?_
  · exact congrArg (a :: ·) first
  · exact congrArg (a :: ·) second
  · rintro v v' ⟨⟨inner, left, right⟩, bare, bare'⟩
    refine ⟨⟨head, ?_, ?_⟩, bare, bare'⟩
    · exact congrArg List.tail left
    · exact congrArg List.tail right

theorem inCharge_serves : inCharge.Serves (D := Dist) (R := Float) where
  fail moved := .throw moved
  note _ := fun _ _ _ held => ⟨rfl, held.same, held.tableless, held.tableless'⟩
  unlessDegenerate mirrors := by
    rw [unlessDegenerate_eq, unlessDegenerate_eq]
    exact mirrors.caught
  nested mirrors := current_inCharge.bind fun _ => splitKey_inCharge.bind fun _ => installed_inCharge _ mirrors
  enumerable _ := rfl
  support _ := lift_mirrors _
  logDensity _ _ := lift_mirrors _
  draw _ := splitKey_inCharge.bind fun _ => lift_mirrors _
  logUniform := splitKey_inCharge.bind fun key => .pure key.logUniform
  offset := splitKey_inCharge.bind fun key => .pure (key.uniform 0)
  indexBelow n := splitKey_inCharge.bind fun key => .pure (key.below n)
  categorical _ _ := splitKey_inCharge.bind fun _ => lift_mirrors _

end Run

/-- A computation that has a counterpart makes no table. -/
theorem Mirrors.makes_no_table {α β : Type} {φ : α → β} {x : Run α} {y : Run β} (mirrors : Mirrors inCharge φ x y)
    {w : World} (ready : w.Ready) : (ended (y w)).memos = #[] := by
  obtain ⟨i, held⟩ := ready.inCharge
  exact (mirrors i w w held).holds.tableless'

/-- An execution that can be taken up only at rests inside. -/
structure Trace.Within {κ D R : Type} (inside : κ → Prop) (t : Trace κ D R) : Prop where
  choices : ∀ c ∈ t.choices, inside c.k
  ending : ∀ k, t.ending = .suspended k → inside k

theorem Trace.Within.confine {κ D R : Type} {inside : κ → Prop} {t : Trace κ D R} (within : t.Within inside) :
    ∃ t' : Trace {k // inside k} D R, t'.relabel (.renaming Subtype.val) = t := by
  obtain ⟨choices, score, prior, factors, store, ending⟩ := t
  let confined : List (Choice {k // inside k} D R) :=
    choices.attach.map fun c => { c.1 with k := ⟨c.1.k, within.choices c.1 c.2⟩ }
  have same : confined.map (·.relabel (.renaming Subtype.val)) = choices := by
    rw [List.map_map]
    exact List.attach_map_subtype_val choices
  cases ending with
  | done v => exact ⟨⟨confined, score, prior, factors, store, .done v⟩, by rw [relabel, same]; rfl⟩
  | suspended k =>
    exact ⟨⟨confined, score, prior, factors, store, .suspended ⟨k, within.ending k rfl⟩⟩, by rw [relabel, same]; rfl⟩

namespace Machine

variable {cx : Context} {fuel : Nat}

/-- What a plain rest does, among the plain rests. -/
def plainResume (plain : cx.program.plain) (fuel : Nat) : Resume Run {k : Rest // k.plain = true} Dist Float :=
  fun k s v => Run.lift <|
    match known : outcome (resume cx fuel k.1 s v) with
    | .ok step => .ok (Step.confine ⟨step, (outcome_settles (resume_settles plain fuel k.2 s v)).1 step known⟩)
    | .error e => .error e

theorem plainResume_mirrors (plain : cx.program.plain) (fuel : Nat) (k : {k : Rest // k.plain = true}) (s : Store)
    (v : Value) :
    Mirrors inCharge (Step.relabel (.renaming Subtype.val)) (plainResume plain fuel k s v)
      (resume cx fuel k.1 s v) := by
  intro i w w' held
  obtain ⟨r, _, ends⟩ := resume_settles plain fuel k.2 s v
  have known : outcome (resume cx fuel k.1 s v) = r := by
    unfold outcome
    rw [ends _ ⟨List.cons_ne_nil _ _, rfl⟩]
    cases r <;> rfl
  unfold plainResume
  split
  next step ran =>
    rw [known] at ran
    subst ran
    rw [ends w' held.ready]
    refine ⟨?_, held⟩
    cases step <;> rfl
  next e failed =>
    rw [known] at failed
    subst failed
    rw [ends w' held.ready]
    exact ⟨.same e, held⟩

theorem plain_along (plain : cx.program.plain) (fuel : Nat) :
    Alongside (T := inCharge) .single (.renaming Subtype.val) (fun _ => plainResume plain fuel) (resume cx fuel)
      (fun _ => fuel) fuel :=
  Resumes.along (plainResume_mirrors plain fuel) Run.inCharge_serves fuel

section

variable {t : Trace Rest Dist Float} (plain : cx.program.plain) (within : t.Within (·.plain = true))
  (limit : Option Nat) {w : World} (ready : w.Ready)

include plain within ready

theorem plain_extend_makes_no_table : (ended (Kernel.extend (resume cx fuel) fuel t limit w)).memos = #[] := by
  obtain ⟨t, rfl⟩ := within.confine
  exact (tracks_single.mp (Kernel.extend_tracks (plain_along plain fuel) t limit)).makes_no_table ready

theorem plain_regenerate_makes_no_table :
    (ended (Kernel.regenerate (resume cx fuel) fuel t limit w)).memos = #[] := by
  obtain ⟨t, rfl⟩ := within.confine
  exact (tracks_single.mp (Kernel.regenerate_tracks (plain_along plain fuel) t limit)).makes_no_table ready

theorem plain_move_makes_no_table : (ended (Kernel.move (resume cx fuel) fuel t limit w)).memos = #[] := by
  obtain ⟨t, rfl⟩ := within.confine
  exact (tracks_single.mp (Kernel.move_tracks (plain_along plain fuel) t limit)).makes_no_table ready

end

/-- Estimates of a plain program under the same strategy, with the same key, come to the same. -/
theorem plain_estimate_inCharge (plain : cx.program.plain) (fuel : Nat) {entry : Rest} (begins : entry.plain = true)
    (st : Strategy Float) (s : Store) :
    Mirrors inCharge id (st.estimate (resume cx fuel) fuel entry s) (st.estimate (resume cx fuel) fuel entry s) := by
  have same := tracks_single.mp (st.estimate_tracks (plain_along plain fuel) ⟨entry, begins⟩ s)
  intro i w w' held
  obtain ⟨head, first, second⟩ := held.same
  have alone : InCharge (i.1, i.1) w w := ⟨⟨head, first, first⟩, held.tableless, held.tableless⟩
  exact inCharge_join (same (i.1, i.1) w w alone) (same i w w' held)

end Machine

end ProbCore
