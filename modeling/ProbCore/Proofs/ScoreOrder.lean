import ProbCore.Proofs.ScoreLaws

/-! The order of scores. Scores that are numbers compare like their ranks in a linear order, and
adding a number that is not above zero raises no score that is not. Sums may be rounded. -/

namespace ProbCore

open Kernel (tolerable)

class OrderedScore (R : Type) [Score R] extends LawfulScore R where
  Rank : Type
  order : LinearOrder Rank
  rank : R → Rank
  less_iff {x y : R} : Score.less x y = true ↔ Score.isNaN x = false ∧ Score.isNaN y = false ∧ rank x < rank y
  same_iff {x y : R} : Score.same x y = true ↔ Score.isNaN x = false ∧ Score.isNaN y = false ∧ rank x = rank y
  isNaN_neg {x : R} : Score.isNaN (-x) = Score.isNaN x
  rank_neg_lt {x y : R} : Score.isNaN x = false → Score.isNaN y = false → (rank (-x) < rank (-y) ↔ rank y < rank x)
  rank_impossible_le {x y : R} : Score.isImpossible x = true → Score.isNaN y = false → rank x ≤ rank y
  rank_add_le {x y : R} : Score.Sunk x → Score.Sunk y → rank (x + y) ≤ rank x
  sub_zero {x : R} : Score.Sunk x → Score.isNaN (x - Score.zero) = false ∧ rank (x - Score.zero) = rank x

attribute [reducible, instance] OrderedScore.order

namespace OrderedScore

variable {R : Type} [Score R] [OrderedScore R] {x y z : R}

theorem rank_neg_eq (left : Score.isNaN x = false) (right : Score.isNaN y = false) :
    rank (-x) = rank (-y) ↔ rank x = rank y := by
  rw [eq_iff_le_not_lt, eq_iff_le_not_lt, ← not_lt, ← not_lt, rank_neg_lt left right, rank_neg_lt right left]
  exact and_comm

theorem atMost_iff : Score.atMost x y = true ↔
    Score.isNaN x = false ∧ Score.isNaN y = false ∧ rank x ≤ rank y := by
  rw [Score.atMost, Bool.or_eq_true, less_iff, same_iff, le_iff_lt_or_eq]
  tauto

theorem atMost_refl (number : Score.isNaN x = false) : Score.atMost x x = true :=
  atMost_iff.mpr ⟨number, number, le_rfl⟩

theorem atMost_trans (first : Score.atMost x y = true) (second : Score.atMost y z = true) :
    Score.atMost x z = true := by
  obtain ⟨left, _, below⟩ := atMost_iff.mp first
  obtain ⟨_, right, lower⟩ := atMost_iff.mp second
  exact atMost_iff.mpr ⟨left, right, below.trans lower⟩

/-- Adding a number that is not above zero does not raise a score. -/
theorem add_atMost (left : Score.Sunk x) (right : Score.Sunk y) : Score.atMost (x + y) x = true :=
  atMost_iff.mpr ⟨(LawfulScore.sunk_add left right).2, left.2, rank_add_le left right⟩

theorem less_of_less_add (left : Score.Sunk x) (right : Score.Sunk y) (below : Score.less z (x + y) = true) :
    Score.less z x = true := by
  obtain ⟨number, _, lower⟩ := less_iff.mp below
  exact less_iff.mpr ⟨number, left.2, lower.trans_le (rank_add_le left right)⟩

theorem not_less_iff (left : Score.isNaN x = false) (right : Score.isNaN y = false) :
    ¬ Score.less x y = true ↔ Score.atMost y x = true := by
  rw [less_iff, atMost_iff]
  simp [left, right]

theorem less_sub_zero (sunk : Score.Sunk x) : Score.less y (x - Score.zero) = Score.less y x := by
  obtain ⟨number, same⟩ := sub_zero sunk
  rw [Bool.eq_iff_iff, less_iff, less_iff, number, same, sunk.2]

end OrderedScore

namespace Exact

noncomputable def height : Exact → EReal
  | real x => x
  | posInf => ⊤
  | negInf | nan => ⊥

theorem less_iff_height {x y : Exact} :
    less x y = true ↔ isNaN x = false ∧ isNaN y = false ∧ height x < height y := by
  cases x <;> cases y <;>
    simp [less, isNaN, height, bot_lt_iff_ne_bot, lt_top_iff_ne_top]

theorem same_iff_height {x y : Exact} :
    same x y = true ↔ isNaN x = false ∧ isNaN y = false ∧ height x = height y := by
  cases x <;> cases y <;>
    simp [same, isNaN, height, EReal.coe_ne_top, EReal.coe_ne_bot]

theorem height_neg (x : Exact) (number : isNaN x = false) : height (-x) = -height x := by
  cases x with
  | real x => exact EReal.coe_neg x
  | negInf => exact EReal.neg_bot.symm
  | posInf => exact EReal.neg_top.symm
  | nan => cases number

theorem height_add_le {x y : Exact} (left : Score.Sunk x) (right : Score.Sunk y) : height (x + y) ≤ height x := by
  rw [Score.Sunk, zero_eq] at left right
  cases x with
  | real x =>
    cases y with
    | real y =>
      have below : y ≤ 0 := not_lt.mp (of_decide_eq_false right.1)
      rw [real_add]
      exact EReal.coe_le_coe_iff.mpr (by linarith)
    | negInf => exact bot_le
    | posInf => cases right.1
    | nan => cases right.2
  | negInf => cases y <;> exact bot_le
  | posInf => cases left.1
  | nan => cases left.2

noncomputable instance : OrderedScore Exact where
  Rank := EReal
  order := inferInstance
  rank := height
  less_iff := less_iff_height
  same_iff := same_iff_height
  isNaN_neg {x} := by cases x <;> rfl
  rank_neg_lt {x y} left right := by
    rw [height_neg x left, height_neg y right]
    exact EReal.neg_lt_neg_iff
  rank_impossible_le {x y} impossible _ := by
    cases x with
    | negInf => exact bot_le
    | real | posInf | nan => cases impossible
  rank_add_le := height_add_le
  sub_zero {x} sunk := by
    rw [zero_eq, sub_zero]
    exact ⟨sunk.2, rfl⟩

end Exact

end ProbCore
