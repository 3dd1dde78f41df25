import ProbCore.Proofs.ScoreLaws

/-! The impossible score is below all others that are numbers. -/

namespace ProbCore

open Kernel

/-- Scores whose least one is impossible. A finite score is tolerable. -/
class BoundedScore (R : Type) [Score R] : Prop where
  less_impossible (x : R) : Score.less Score.impossible x = tolerable x
  finite_tolerable {x : R} : Score.isFinite x = true → tolerable x = true

instance : BoundedScore Exact where
  less_impossible x := by
    cases x <;> rfl
  finite_tolerable {x} finite := by
    cases x <;> first | rfl | cases finite

open Float.Model Float.Model.UnpackedFloat Doubles in
instance : BoundedScore Float where
  less_impossible x := by
    rw [Bool.eq_iff_iff, tolerable_iff, less_unpack, Lost]
    change UnpackedFloat.lt (.infinity .negative) _ = true ↔ _
    cases x.toModel.unpack with
    | notANumber => exact ⟨nofun, fun sound => absurd (.inr rfl) sound⟩
    | zero s => exact ⟨fun _ => nofun, fun _ => rfl⟩
    | infinity s =>
      cases s with
      | positive => exact ⟨fun _ => nofun, fun _ => rfl⟩
      | negative => exact ⟨nofun, fun sound => absurd (.inl rfl) sound⟩
    | finite s m e positive => exact ⟨fun _ => nofun, fun _ => rfl⟩
  finite_tolerable {x} finite := by
    rw [tolerable_iff]
    change x.toModel.unpack.isFinite = true at finite
    rintro (bottom | nothing)
    · rw [bottom] at finite
      cases finite
    · rw [nothing] at finite
      cases finite

end ProbCore
