import ProbCore.Proofs.MachineMoves
import ProbCore.Proofs.Tracking

/-! Worlds that share their strategies. Whatever else two worlds differ in, all that a strategy asks
of its host is answered alike as long as the same strategies are in charge. -/

namespace ProbCore

/-- Worlds correspond only if they have the same strategies, and go on to correspond when these
change alike and when the same is reported in both. -/
structure Tie.Sharing {ι : Type} (T : Tie ι World World) : Prop where
  same {i w w'} : T.holds i w w' → w'.strategies = w.strategies
  install {i w w'} (strategies : List Active) : T.holds i w w' →
    T.holds i { w with strategies } { w' with strategies }
  note {i w w'} (n : Notice) : T.holds i w w' →
    T.holds i { w with notices := n :: w.notices } { w' with notices := n :: w'.notices }

theorem Run.lift_mirrors {ι α : Type} {T : Tie ι World World} (r : Except Failure α) :
    Mirrors T id (Run.lift r) (Run.lift r) := by
  cases r with
  | ok a => exact .pure a
  | error e => exact .throw (.same e)

namespace Tie.Sharing

open Run

variable {J ι α β : Type} {T : Tie ι World World} {P : Patience J} {φ : α → β}

theorem current (sharing : T.Sharing) : Mirrors T id Run.current Run.current := by
  intro i w w' held
  obtain ⟨strategies, _⟩ := w
  obtain ⟨strategies', _⟩ := w'
  obtain rfl : strategies' = strategies := sharing.same held
  cases strategies' with
  | nil => exact ⟨.same _, held⟩
  | cons a rest => exact ⟨rfl, held⟩

theorem relative (sharing : T.Sharing) (a : Address) :
    Mirrors T id (Run.relative a) (Run.relative a) := by
  intro i w w' held
  obtain ⟨strategies, _⟩ := w
  obtain ⟨strategies', _⟩ := w'
  obtain rfl : strategies' = strategies := sharing.same held
  cases strategies' with
  | nil => exact ⟨rfl, held⟩
  | cons a rest => exact ⟨rfl, held⟩

theorem updateCurrent (sharing : T.Sharing) (f : Active → Active) :
    Mirrors T id (Run.updateCurrent f) (Run.updateCurrent f) := by
  intro i w w' held
  refine ⟨rfl, ?_⟩
  have same := sharing.same held
  dsimp only
  rw [same]
  cases charged : w.strategies with
  | nil => exact held
  | cons a rest => exact sharing.install (f a :: rest) held

theorem splitKey (sharing : T.Sharing) : Mirrors T id Run.splitKey Run.splitKey := by
  refine sharing.current.bind fun a => ?_
  cases known : a.key with
  | none =>
    simp only [id, known]
    exact .throw (.same _)
  | some key =>
    simp only [id, known]
    exact (sharing.updateCurrent _).bind fun _ => .pure _

theorem keyFor (sharing : T.Sharing) (key : Option Random.Key) :
    Mirrors T id (Machine.keyFor key) (Machine.keyFor key) := by
  intro i w w' held
  rw [Machine.keyFor_eq, Machine.keyFor_eq, sharing.same held]
  exact ⟨rfl, sharing.install _ held⟩

theorem makeParam (sharing : T.Sharing) (start : Value) (mean sd : Float)
    (key : Option Random.Key) :
    Mirrors T id (Machine.makeParam start mean sd key) (Machine.makeParam start mean sd key) := by
  have fills (dims : List Value) : Mirrors T id (Machine.makeParam (.list dims) mean sd key)
      (Machine.makeParam (.list dims) mean sd key) := by
    unfold Machine.makeParam
    refine .ite ((lift_mirrors _).bind fun _ => .pure _) ?_
    cases key with
    | some key => exact (lift_mirrors _).bind fun _ => .pure _
    | none => exact sharing.splitKey.bind fun _ => (lift_mirrors _).bind fun _ => .pure _
  cases start with
  | list dims => exact fills dims
  | tuple dims => exact fills dims
  | _ => exact .pure _

theorem installed (sharing : T.Sharing) {x : J → Run α} {y : Run β} (a : Active)
    (tracks : Tracks P T φ x y) :
    Tracks P T φ (fun j => Run.installed a (x j)) (Run.installed a y) := by
  simp only [installed_eq]
  refine tracks.bracket rfl fun i w w' held => ⟨i, ?_, fun {v v'} held => ?_⟩
  · rw [sharing.same held]
    exact sharing.install _ held
  · rw [sharing.same held]
    exact sharing.install _ held

theorem nested (sharing : T.Sharing) {x : J → Run α} {y : Run β} (tracks : Tracks P T φ x y) :
    Tracks P T φ (fun j => Run.nested (x j)) (Run.nested y) :=
  sharing.current.tracks.bind fun _ => sharing.splitKey.tracks.bind fun _ =>
    sharing.installed _ tracks

theorem caught (kept : ¬ P.lost .degenerate) {x : J → Run α} {y : Run β}
    (tracks : Tracks P T φ x y) :
    Tracks P T (Option.map φ) (fun j => Host.unlessDegenerate (x j)) (Host.unlessDegenerate y) := by
  simp only [unlessDegenerate_eq]
  exact tracks.caught kept

theorem serves (sharing : T.Sharing) : T.Serves (D := Dist) (R := Float) where
  fail moved := .throw moved
  note _ := fun _ _ _ held => ⟨rfl, sharing.note _ held⟩
  unlessDegenerate mirrors := tracks_single.mp (caught id mirrors.tracks)
  nested mirrors := tracks_single.mp (sharing.nested mirrors.tracks)
  enumerable _ := rfl
  support _ := lift_mirrors _
  logDensity _ _ := lift_mirrors _
  draw _ := sharing.splitKey.bind fun _ => lift_mirrors _
  logUniform := sharing.splitKey.bind fun _ => .pure _
  offset := sharing.splitKey.bind fun _ => .pure _
  indexBelow _ := sharing.splitKey.bind fun _ => .pure _
  categorical _ _ := sharing.splitKey.bind fun _ => lift_mirrors _

/-- They also keep what is tracked, if the loss of all weight is no sign of giving up. -/
theorem sustains (sharing : T.Sharing) (kept : ¬ P.lost .degenerate) :
    T.Sustains P (D := Dist) (R := Float) where
  serves := sharing.serves
  lost gone := .lost gone
  unlessDegenerate := caught kept
  nested := sharing.nested

end Tie.Sharing

/-- A world is only itself. -/
def alone : Tie Unit World World := ⟨id, fun _ w w' => w = w'⟩

section

variable {α β : Type} {φ : α → β}

theorem alone_mirrors (x : Run α) : Mirrors alone id x x := by
  rintro i w _ rfl
  cases x w with
  | ok a w' => exact ⟨rfl, rfl⟩
  | error e w' => exact ⟨.same e, rfl⟩

theorem eq_of_alone {x y : Run α} (mirrors : Mirrors alone id x y) : x = y := by
  funext w
  have agreed := mirrors () w w rfl
  cases ran : x w <;> cases ran' : y w <;> rw [ran, ran'] at agreed
  · obtain ⟨rfl, rfl⟩ := agreed
    rfl
  · cases agreed
  · cases agreed
  · obtain ⟨moved, rfl⟩ := agreed
    rw [moved.eq_of_id]

theorem alone_sharing : alone.Sharing where
  same := by
    rintro i w _ rfl
    rfl
  install := by
    rintro i w _ strategies rfl
    rfl
  note := by
    rintro i w _ n rfl
    rfl

end

end ProbCore
