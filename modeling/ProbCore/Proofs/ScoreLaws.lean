import ProbCore.Proofs.ExactScore
import ProbCore.Proofs.KernelRecording

/-! What impossible scores and scores that are no numbers do to running totals. These laws hold
of doubles as of exact scores: an infinity or a NaN that is added once is never rounded away. -/

namespace ProbCore

open Kernel (tolerable)

/-- A number that is not above zero. -/
def Score.Sunk {R : Type} [Score R] (x : R) : Prop :=
  Score.less Score.zero x = false ∧ Score.isNaN x = false

class LawfulScore (R : Type) [Score R] : Prop where
  zero_sunk : Score.Sunk (Score.zero : R)
  tolerable_left {a x : R} : tolerable (a + x) = true → tolerable a = true
  tolerable_right {a x : R} : tolerable (a + x) = true → tolerable x = true
  tolerable_of_less {t a b : R} : Score.less t (a - b) = true → tolerable a = true
  sunk_add {a x : R} : Score.Sunk a → Score.Sunk x → Score.Sunk (a + x)
  impossible_atMost {a x t : R} : Score.Sunk a → Score.isImpossible x = true →
    Score.isNaN t = false → Score.atMost (a + x) t = true

instance : LawfulScore Exact where
  zero_sunk := ⟨decide_eq_false (lt_irrefl _), rfl⟩
  tolerable_left {a x} fine := by
    cases a <;> cases x <;> first | rfl | cases fine
  tolerable_right {a x} fine := by
    cases a <;> cases x <;> first | rfl | cases fine
  tolerable_of_less {t a b} above := by
    cases a <;> first | rfl | (cases b <;> cases t <;> cases above)
  sunk_add {a x} left right := by
    rw [Score.Sunk, Exact.zero_eq] at left right ⊢
    cases a with
    | real a =>
      cases x with
      | real x =>
        have below : a ≤ 0 := not_lt.mp (of_decide_eq_false left.1)
        have lower : x ≤ 0 := not_lt.mp (of_decide_eq_false right.1)
        exact ⟨decide_eq_false (not_lt.mpr (add_nonpos below lower)), rfl⟩
      | negInf => exact ⟨rfl, rfl⟩
      | posInf => cases right.1
      | nan => cases right.2
    | negInf =>
      cases x with
      | real x => exact ⟨rfl, rfl⟩
      | negInf => exact ⟨rfl, rfl⟩
      | posInf => cases right.1
      | nan => cases right.2
    | posInf => cases left.1
    | nan => cases left.2
  impossible_atMost {a x t} sunk impossible number := by
    cases x with
    | negInf =>
      cases a with
      | real a => cases t <;> first | rfl | cases number
      | negInf => cases t <;> first | rfl | cases number
      | posInf => rw [Score.Sunk, Exact.zero_eq] at sunk; cases sunk.1
      | nan => cases sunk.2
    | real x => cases impossible
    | posInf => cases impossible
    | nan => cases impossible

namespace Doubles

open Float.Model Float.Model.UnpackedFloat

/-- What is left of a result when it is stored as a double. -/
def stored (u : UnpackedFloat) : UnpackedFloat := unpack .binary64 (pack .binary64 u)

theorem add_unpack (a x : Float) :
    (a + x).toModel.unpack = stored (UnpackedFloat.add .binary64 a.toModel.unpack x.toModel.unpack) := rfl

theorem sub_unpack (a x : Float) :
    (a - x).toModel.unpack = stored (UnpackedFloat.sub .binary64 a.toModel.unpack x.toModel.unpack) := rfl

theorem less_unpack (x y : Float) :
    Score.less x y = UnpackedFloat.lt x.toModel.unpack y.toModel.unpack := by
  change decide (x < y) = _
  rw [Bool.eq_iff_iff, decide_eq_true_iff]
  change decide (x.toModel < y.toModel) = true ↔ _
  rw [decide_eq_true_iff]
  rfl

theorem zero_unpack : (Score.zero : Float).toModel.unpack = .zero .positive := rfl

theorem stored_nan : stored .notANumber = .notANumber := rfl

theorem stored_infinity (s : Sign) : stored (.infinity s) = .infinity s := by
  cases s
  · rfl
  · rfl

theorem stored_zero (s : Sign) : stored (.zero s) = .zero s := by
  cases s
  · rfl
  · rfl

/-- Numbers at or below zero: zeros of either sign, and all that is negative. -/
def Low : UnpackedFloat → Prop
  | .zero _ | .infinity .negative | .finite .negative .. => True
  | .notANumber | .infinity .positive | .finite .positive .. => False

theorem unpackSign_packComponents (s : Sign) (e : BitVec 11) (m : BitVec 52) :
    Sign.ofBitVec (unpackSign (packComponents .binary64 s e m)) = s := by
  have kept : @unpackSign .binary64 (packComponents .binary64 s e m) = s.toBitVec := by
    ext i hi
    obtain rfl : i = 0 := by omega
    have top : (s.toBitVec ++ e ++ m).getLsbD 63 = s.toBitVec[0] := by
      rw [BitVec.getLsbD_append, BitVec.getLsbD_append]
      rfl
    simpa [unpackSign, packComponents, -BitVec.getLsbD_eq_getElem] using top
  rw [kept]
  cases s
  · rfl
  · rfl

/-- Unless all bits of its exponent are set, a word is a zero or a finite number. -/
theorem low_unpack {e : BitVec 11} {m : BitVec 52} (below : e ≠ -1#11) :
    Low (unpack .binary64 (packComponents .binary64 .negative e m)) := by
  unfold UnpackedFloat.unpack
  simp only [unpackMantissa_packComponents, unpackExponent_packComponents,
    unpackSign_packComponents, if_neg below]
  split
  · split
    · trivial
    · trivial
  · trivial

theorem low_stored {u : UnpackedFloat} (low : Low u) : Low (stored u) := by
  cases u with
  | zero s =>
    rw [stored_zero]
    trivial
  | infinity s =>
    rw [stored_infinity]
    exact low
  | notANumber => cases low
  | finite s m e positive =>
    cases s with
    | positive => cases low
    | negative =>
      unfold stored UnpackedFloat.pack
      dsimp only
      split
      next =>
        change Low (stored (.infinity .negative))
        rw [stored_infinity]
        trivial
      next small =>
        split
        · apply low_unpack
          intro ones
          have bits := congrArg BitVec.toNat ones
          simp at bits
          omega
        · apply low_unpack
          decide

theorem low_round (m : Nat) (e : Int) : Low (UnpackedFloat.round .binary64 .negative m e) := by
  unfold UnpackedFloat.round roundWithAccuracy
  dsimp only
  split
  · trivial
  · trivial

theorem low_add {u v : UnpackedFloat} (left : Low u) (right : Low v) :
    Low (UnpackedFloat.add .binary64 u v) := by
  cases u with
  | notANumber => cases left
  | infinity s =>
    cases s with
    | positive => cases left
    | negative =>
      cases v with
      | notANumber => cases right
      | infinity s =>
        cases s with
        | positive => cases right
        | negative => trivial
      | zero s => trivial
      | finite s m e positive => trivial
  | zero s =>
    cases v with
    | notANumber => cases right
    | infinity s => exact right
    | zero s' =>
      unfold UnpackedFloat.add
      dsimp only
      split
      · trivial
      · trivial
    | finite s m e positive => exact right
  | finite s m e positive =>
    cases s with
    | positive => cases left
    | negative =>
      cases v with
      | notANumber => cases right
      | infinity s => exact right
      | zero s => trivial
      | finite s m' e' positive' =>
        cases s with
        | positive => cases right
        | negative =>
          -- Two negative mantissas add up to one that is not positive.
          unfold UnpackedFloat.add UnpackedFloat.normalize
          dsimp only
          split
          next => exact low_round _ _
          next => trivial
          next above =>
            rw [compare_gt_iff_gt] at above
            simp only [Sign.apply] at above
            omega

theorem isImpossible_iff {x : Float} :
    Score.isImpossible x = true ↔ x.toModel.unpack = .infinity .negative := by
  change (x.toModel.unpack.compare (.infinity .negative) == some .eq) = true ↔ _
  cases x.toModel.unpack with
  | infinity s =>
    cases s with
    | negative => exact ⟨fun _ => rfl, fun _ => rfl⟩
    | positive => exact ⟨nofun, nofun⟩
  | notANumber => exact ⟨nofun, nofun⟩
  | zero s => exact ⟨nofun, nofun⟩
  | finite s m e positive =>
    cases s with
    | negative => exact ⟨nofun, nofun⟩
    | positive => exact ⟨nofun, nofun⟩

theorem isNaN_iff {x : Float} : Score.isNaN x = true ↔ x.toModel.unpack = .notANumber := by
  change x.toModel.unpack.isNaN = true ↔ _
  cases x.toModel.unpack with
  | notANumber => exact ⟨fun _ => rfl, fun _ => rfl⟩
  | infinity s => exact ⟨nofun, nofun⟩
  | zero s => exact ⟨nofun, nofun⟩
  | finite s m e positive => exact ⟨nofun, nofun⟩

/-- What executions are abandoned for. -/
def Lost (u : UnpackedFloat) : Prop := u = .infinity .negative ∨ u = .notANumber

theorem tolerable_iff {x : Float} : tolerable x = true ↔ ¬ Lost x.toModel.unpack := by
  rw [tolerable, Bool.not_eq_true', Bool.or_eq_false_iff, ← Bool.not_eq_true, ← Bool.not_eq_true,
    isImpossible_iff, isNaN_iff, Lost, not_or]

theorem stored_lost {u : UnpackedFloat} (lost : Lost u) : stored u = u := by
  rcases lost with rfl | rfl
  · exact stored_infinity .negative
  · exact stored_nan

theorem lost_add_left {u v : UnpackedFloat} (lost : Lost u) : Lost (UnpackedFloat.add .binary64 u v) := by
  rcases lost with rfl | rfl
  · cases v with
    | infinity s =>
      cases s with
      | negative => exact .inl rfl
      | positive => exact .inr rfl
    | notANumber => exact .inr rfl
    | zero s => exact .inl rfl
    | finite s m e positive => exact .inl rfl
  · cases v <;> exact .inr rfl

theorem lost_add_right {u v : UnpackedFloat} (lost : Lost v) : Lost (UnpackedFloat.add .binary64 u v) := by
  rcases lost with rfl | rfl
  · cases u with
    | infinity s =>
      cases s with
      | negative => exact .inl rfl
      | positive => exact .inr rfl
    | notANumber => exact .inr rfl
    | zero s => exact .inl rfl
    | finite s m e positive => exact .inl rfl
  · cases u <;> exact .inr rfl

theorem lost_sub {u v : UnpackedFloat} (lost : Lost u) : Lost (UnpackedFloat.sub .binary64 u v) := by
  rcases lost with rfl | rfl
  · cases v with
    | infinity s =>
      cases s with
      | negative => exact .inr rfl
      | positive => exact .inl rfl
    | notANumber => exact .inr rfl
    | zero s => exact .inl rfl
    | finite s m e positive => exact .inl rfl
  · cases v <;> exact .inr rfl

theorem not_lt_lost {u v : UnpackedFloat} (lost : Lost v) : u.lt v = false := by
  rcases lost with rfl | rfl
  · cases u with
    | infinity s => cases s <;> rfl
    | notANumber => rfl
    | zero s => rfl
    | finite s m e positive => cases s <;> rfl
  · cases u with
    | infinity s => cases s <;> rfl
    | notANumber => rfl
    | zero s => rfl
    | finite s m e positive => cases s <;> rfl

theorem sunk_iff {x : Float} : Score.Sunk x ↔ Low x.toModel.unpack := by
  rw [Score.Sunk, less_unpack, zero_unpack, ← Bool.not_eq_true (Score.isNaN x), isNaN_iff]
  cases x.toModel.unpack with
  | notANumber => exact ⟨fun both => absurd rfl both.2, nofun⟩
  | zero s => exact ⟨fun _ => trivial, fun _ => ⟨rfl, nofun⟩⟩
  | infinity s =>
    cases s with
    | negative => exact ⟨fun _ => trivial, fun _ => ⟨rfl, nofun⟩⟩
    | positive => exact ⟨nofun, nofun⟩
  | finite s m e positive =>
    cases s with
    | negative => exact ⟨fun _ => trivial, fun _ => ⟨rfl, nofun⟩⟩
    | positive => exact ⟨nofun, nofun⟩

theorem infinity_atMost {x y : Float} (bottom : x.toModel.unpack = .infinity .negative)
    (number : Score.isNaN y = false) : Score.atMost x y = true := by
  change (Score.less x y || x.toModel.unpack.compare y.toModel.unpack == some .eq) = true
  rw [less_unpack, UnpackedFloat.lt, bottom]
  rw [← Bool.not_eq_true, isNaN_iff] at number
  cases shape : y.toModel.unpack with
  | infinity s => cases s <;> rfl
  | notANumber => exact absurd shape number
  | zero s => rfl
  | finite s m e positive => rfl

end Doubles

instance : LawfulScore Float where
  zero_sunk := Doubles.sunk_iff.mpr trivial
  tolerable_left {a x} fine := by
    rw [Doubles.tolerable_iff, Doubles.add_unpack] at fine
    rw [Doubles.tolerable_iff]
    intro lost
    apply fine
    rw [Doubles.stored_lost (Doubles.lost_add_left lost)]
    exact Doubles.lost_add_left lost
  tolerable_right {a x} fine := by
    rw [Doubles.tolerable_iff, Doubles.add_unpack] at fine
    rw [Doubles.tolerable_iff]
    intro lost
    apply fine
    rw [Doubles.stored_lost (Doubles.lost_add_right lost)]
    exact Doubles.lost_add_right lost
  tolerable_of_less {t a b} above := by
    rw [Doubles.less_unpack, Doubles.sub_unpack] at above
    rw [Doubles.tolerable_iff]
    intro lost
    have gone : Doubles.Lost _ := Doubles.lost_sub (v := b.toModel.unpack) lost
    rw [Doubles.stored_lost gone, Doubles.not_lt_lost gone] at above
    cases above
  sunk_add {a x} left right := by
    rw [Doubles.sunk_iff] at left right ⊢
    exact Doubles.low_stored (Doubles.low_add left right)
  impossible_atMost {a x t} sunk impossible number := by
    rw [Doubles.sunk_iff] at sunk
    rw [Doubles.isImpossible_iff] at impossible
    apply Doubles.infinity_atMost _ number
    rw [Doubles.add_unpack, impossible]
    cases shape : a.toModel.unpack with
    | infinity s =>
      rw [shape] at sunk
      cases s with
      | negative => exact Doubles.stored_infinity .negative
      | positive => cases sunk
    | notANumber =>
      rw [shape] at sunk
      cases sunk
    | zero s => exact Doubles.stored_infinity .negative
    | finite s m e positive => exact Doubles.stored_infinity .negative

end ProbCore
