import ProbCore.Proofs.ExactScore
import ProbCore.Proofs.RoundedSums

/-! Parts of a count. A count divided by one that is no less is between zero and one, and it stays there
when both counts and their quotient are rounded to doubles: rounding keeps the order of what it rounds, so
the rounded counts are still in order, and what is at most one is rounded to at most one. -/

namespace ProbCore

/-- Scores in which a part of a count is between zero and one of it. -/
class ProportionalScore (R : Type) [Score R] : Prop where
  ratio_within {a n : Nat} : a ≤ n → 1 ≤ n →
    Score.less (Score.ofNat a / Score.ofNat n : R) Score.zero = false ∧
      Score.less (Score.ofNat 1) (Score.ofNat a / Score.ofNat n : R) = false

instance : ProportionalScore Exact where
  ratio_within {a n} within positive := by
    have above : (0 : ℝ) < n := by exact_mod_cast positive
    have ratio : (Score.ofNat a / Score.ofNat n : Exact) = .real (a / n) := if_neg above.ne'
    rw [ratio]
    constructor
    · refine decide_eq_false (not_lt.mpr ?_)
      rw [Nat.cast_zero]
      positivity
    · refine decide_eq_false (not_lt.mpr ?_)
      rw [Nat.cast_one, div_le_one above]
      exact_mod_cast within

namespace Doubles

open Float.Model Float.Model.UnpackedFloat
open Decimal (Binary)

/-! ### Rounding keeps the order -/

/-- The bits that are kept and what is known of those that were lost, as one number. -/
def grade (em : ExtendedMantissa) : Nat := 4 * em.mantissa + 2 * em.roundBit.toNat + em.stickyBit.toNat

theorem grade_shiftRightOne {em em' : ExtendedMantissa} (ordered : grade em ≤ grade em') :
    grade em.shiftRightOne ≤ grade em'.shiftRightOne := by
  obtain ⟨m, half, rest⟩ := em
  obtain ⟨m', half', rest'⟩ := em'
  have parity (n : Nat) : (n % 2 != 0).toNat = n % 2 := by
    rcases Nat.mod_two_eq_zero_or_one n with even | odd
    · rw [even]
      rfl
    · rw [odd]
      rfl
  simp only [grade, ExtendedMantissa.shiftRightOne, parity] at ordered ⊢
  cases half <;> cases rest <;> cases half' <;> cases rest' <;>
    simp only [Bool.toNat_true, Bool.toNat_false, Bool.or_true, Bool.or_false] at ordered ⊢ <;> omega

theorem grade_shift {em em' : ExtendedMantissa} (ordered : grade em ≤ grade em') (k : Nat) :
    grade (em >>> k) ≤ grade (em' >>> k) := by
  induction k with
  | zero => exact ordered
  | succ k ih => exact grade_shiftRightOne ih

theorem rounded_le {em em' : ExtendedMantissa} (ordered : grade em ≤ grade em') :
    em.roundedMantissa ≤ em'.roundedMantissa := by
  obtain ⟨m, half, rest⟩ := em
  obtain ⟨m', half', rest'⟩ := em'
  simp only [grade] at ordered
  unfold ExtendedMantissa.roundedMantissa
  cases half <;> cases rest <;> cases half' <;> cases rest' <;>
    simp only [ExtendedMantissa.accuracy, Accuracy.roundToNearestEven, Bool.toNat_true, Bool.toNat_false]
      at ordered ⊢ <;> omega

/-- An exact mantissa, with nothing lost. -/
abbrev exactly (m : Nat) : ExtendedMantissa := .ofMantissaAndAccuracy m .exact

/-- Shifting out zeros loses nothing. -/
theorem shift_exactly (m k : Nat) : exactly (m * 2 ^ k) >>> k = exactly m := by
  induction k generalizing m with
  | zero =>
    rw [Nat.pow_zero, Nat.mul_one]
    rfl
  | succ k ih =>
    change (exactly (m * 2 ^ (k + 1)) >>> k).shiftRightOne = exactly m
    rw [Nat.pow_succ', ← Nat.mul_assoc, ih]
    simp [ExtendedMantissa.ofMantissaAndAccuracy, ExtendedMantissa.shiftRightOne]

theorem shift_shift (em : ExtendedMantissa) (j k : Nat) : em >>> (j + k) = (em >>> j) >>> k := by
  induction k with
  | zero => rfl
  | succ k ih =>
    change (em >>> (j + k)).shiftRightOne = ((em >>> j) >>> k).shiftRightOne
    rw [ih]

/-- The rounded mantissa of a number and of a lesser one, cut at the same place. -/
theorem rounded_shift_le {m m' : Nat} (ordered : m ≤ m') (k : Nat) :
    (exactly m >>> k).roundedMantissa ≤ (exactly m' >>> k).roundedMantissa :=
  rounded_le (grade_shift (by simpa [grade, ExtendedMantissa.ofMantissaAndAccuracy] using ordered) k)

/-! ### Where a rounded mantissa comes to lie -/

/-- A rounded mantissa at its exponent. One that has carried over is halved. -/
def settled (s : Sign) (r : Nat) (t : Int) : UnpackedFloat :=
  if none_left : r = 0 then .zero s
  else if r < 2 ^ 53 then .finite s r t (Nat.pos_of_ne_zero none_left)
  else .finite s (2 ^ 52) (t + 1) (by decide)

theorem rounded_bounds (em : ExtendedMantissa) :
    em.mantissa ≤ em.roundedMantissa ∧ em.roundedMantissa ≤ em.mantissa + 1 := by
  rcases rounded_or em with same | more
  · omega
  · omega

theorem roundWithAccuracy_settled {m k : Nat} {e : Int} {accuracy : Accuracy} (s : Sign)
    (down : k = (Format.binary64.targetExponent (totalExponent m e) - e).toNat) (low : -1074 ≤ e + k)
    (few : (ExtendedMantissa.ofMantissaAndAccuracy m accuracy >>> k).mantissa < 2 ^ 53) :
    roundWithAccuracy .binary64 s m e accuracy =
      settled s (ExtendedMantissa.ofMantissaAndAccuracy m accuracy >>> k).roundedMantissa (e + k) := by
  obtain ⟨em, cut⟩ : ∃ em, em = ExtendedMantissa.ofMantissaAndAccuracy m accuracy >>> k := ⟨_, rfl⟩
  have shifted : shiftToTargetExponent .binary64 m e accuracy = (em, e + k) := by
    unfold shiftToTargetExponent shiftToExponent
    rw [cut, down]
  rw [← cut] at few ⊢
  unfold roundWithAccuracy settled
  rw [shifted]
  dsimp only
  by_cases kept : em.roundedMantissa < 2 ^ 53
  · rw [shift_few kept low]
    simp only [if_pos kept]
  · have full : em.roundedMantissa = 2 ^ 53 := by
      have bound := (rounded_bounds em).2
      omega
    obtain ⟨halved, raised⟩ := shift_carry low
    rw [full]
    simp only [halved, raised]
    rfl

/-- A mantissa that fills its exponent, or has carried over from it. -/
theorem settled_full {r : Nat} {t : Int} (s : Sign) (full : 2 ^ 52 ≤ r) (most : r ≤ 2 ^ 53) :
    ∃ m e, ∃ some_bits : 0 < m, settled s r t = .finite s m e some_bits ∧ 2 ^ 52 ≤ m ∧ m < 2 ^ 53 ∧
      (e = t ∧ m = r ∨ e = t + 1 ∧ m = 2 ^ 52 ∧ r = 2 ^ 53) := by
  have some_bits : r ≠ 0 := by omega
  unfold settled
  rw [dif_neg some_bits]
  by_cases few : r < 2 ^ 53
  · rw [if_pos few]
    exact ⟨r, t, Nat.pos_of_ne_zero some_bits, rfl, full, few, .inl ⟨rfl, rfl⟩⟩
  · rw [if_neg few]
    exact ⟨2 ^ 52, t + 1, by decide, rfl, le_rfl, by decide, .inr ⟨rfl, rfl, by omega⟩⟩

/-- Numbers that fill their exponents are stored in order, the largest of them as infinity. -/
theorem stored_settled_le {r r' : Nat} {t t' : Int} (low : -1074 ≤ t) (low' : -1074 ≤ t')
    (full : 2 ^ 52 ≤ r) (most : r ≤ 2 ^ 53) (full' : 2 ^ 52 ≤ r') (most' : r' ≤ 2 ^ 53)
    (ordered : t < t' ∨ t = t' ∧ r ≤ r') :
    place (stored (settled .positive r t)) ≤ place (stored (settled .positive r' t')) := by
  obtain ⟨m, e, some_bits, shape, leading, few, at_e⟩ := settled_full .positive full most (t := t)
  obtain ⟨m', e', some_bits', shape', leading', few', at_e'⟩ := settled_full .positive full' most' (t := t')
  have normal : Binary.Normal ⟨false, m, e⟩ := ⟨few, by dsimp only; omega, .inr leading⟩
  have normal' : Binary.Normal ⟨false, m', e'⟩ := ⟨few', by dsimp only; omega, .inr leading'⟩
  have lighter : e < e' ∨ e = e' ∧ m ≤ m' := by omega
  rw [shape, shape', stored_finite some_bits normal, stored_finite some_bits' normal']
  by_cases large' : 972 ≤ e'
  · rw [if_pos large']
    split
    · exact le_rfl
    · simp [place, Prod.Lex.toLex_le_toLex]
  · rw [if_neg large', if_neg (show ¬ 972 ≤ e by omega)]
    simp only [place, Prod.Lex.toLex_le_toLex]
    exact .inr ⟨trivial, lighter.imp_right (And.imp_right fun fewer => by omega)⟩

/-! ### Counts as doubles -/

theorem log2_few {m : Nat} (some_bits : 0 < m) (few : m < 2 ^ 53) : m.log2 ≤ 52 :=
  Nat.lt_succ_iff.mp ((Nat.log2_lt some_bits.ne').mpr few)

theorem log2_full {m : Nat} (leading : 2 ^ 52 ≤ m) (few : m < 2 ^ 53) : m.log2 = 52 :=
  (Nat.log2_eq_iff (by omega)).mpr ⟨leading, few⟩

/-- The rounded mantissa of a count, which has as many bits as a double keeps. -/
def countMantissa (n : Nat) : Nat := (exactly (n * 2 ^ 52) >>> n.log2).roundedMantissa

theorem padded_lt (n : Nat) : n * 2 ^ 52 / 2 ^ n.log2 < 2 ^ 53 := by
  rw [Nat.div_lt_iff_lt_mul (Nat.two_pow_pos _)]
  calc n * 2 ^ 52 < 2 ^ (n.log2 + 1) * 2 ^ 52 :=
        Nat.mul_lt_mul_of_pos_right Nat.lt_log2_self (Nat.two_pow_pos 52)
    _ = 2 ^ 53 * 2 ^ n.log2 := by
      rw [Nat.pow_succ]
      ring

theorem countMantissa_bounds {n : Nat} (positive : 0 < n) :
    2 ^ 52 ≤ countMantissa n ∧ countMantissa n ≤ 2 ^ 53 := by
  have least := Nat.log2_self_le positive.ne'
  have cut := shift_mantissa (exactly (n * 2 ^ 52)) n.log2
  have near := rounded_bounds (exactly (n * 2 ^ 52) >>> n.log2)
  have above : 2 ^ 52 ≤ n * 2 ^ 52 / 2 ^ n.log2 := by
    rw [Nat.le_div_iff_mul_le (Nat.two_pow_pos _), Nat.mul_comm n]
    exact Nat.mul_le_mul_left _ least
  have below := padded_lt n
  rw [cut] at near
  change n * 2 ^ 52 / 2 ^ n.log2 ≤ countMantissa n ∧ countMantissa n ≤ n * 2 ^ 52 / 2 ^ n.log2 + 1 at near
  omega

/-- A count with as many zeros behind it as a format has bits is rounded to its mantissa. -/
theorem round_padded {n : Nat} (positive : 0 < n) :
    roundWithAccuracy .binary64 .positive (n * 2 ^ 53) (-53) .exact =
      settled .positive (countMantissa n) (n.log2 - 52) := by
  have down : 1 + n.log2 = (Format.binary64.targetExponent (totalExponent (n * 2 ^ 53) (-53)) - -53).toNat := by
    rw [target_eq, log2_shift positive]
    omega
  have shifted : exactly (n * 2 ^ 53) >>> (1 + n.log2) = exactly (n * 2 ^ 52) >>> n.log2 := by
    have doubled : n * 2 ^ 53 = n * 2 ^ 52 * 2 ^ 1 := by rw [Nat.mul_assoc, ← Nat.pow_add]
    rw [shift_shift, doubled, shift_exactly]
  have kept : (exactly (n * 2 ^ 53) >>> (1 + n.log2)).mantissa < 2 ^ 53 := by
    rw [shifted, shift_mantissa]
    exact padded_lt n
  rw [roundWithAccuracy_settled .positive down (by omega) kept, shifted]
  exact congrArg (settled .positive _) (by omega)

/-- A count that a double holds keeps all its bits. -/
theorem countMantissa_few {n : Nat} (few : n.log2 ≤ 52) : countMantissa n = n * 2 ^ (52 - n.log2) := by
  have padded : n * 2 ^ 52 = n * 2 ^ (52 - n.log2) * 2 ^ n.log2 := by
    rw [Nat.mul_assoc, ← Nat.pow_add, Nat.sub_add_cancel few]
  rw [countMantissa, padded, shift_exactly]
  rfl

theorem countMantissa_lt {n : Nat} (few : n.log2 ≤ 52) : countMantissa n < 2 ^ 53 := by
  rw [countMantissa_few few]
  calc n * 2 ^ (52 - n.log2) < 2 ^ (n.log2 + 1) * 2 ^ (52 - n.log2) :=
        Nat.mul_lt_mul_of_pos_right Nat.lt_log2_self (Nat.two_pow_pos _)
    _ = 2 ^ 53 := by
      rw [← Nat.pow_add]
      congr 1
      omega

/-- A count that a double holds is only given the zeros that fill its exponent. -/
theorem round_count {n : Nat} (positive : 0 < n) (bits : n.log2 ≤ 52) :
    UnpackedFloat.round .binary64 .positive n 0 = settled .positive (countMantissa n) (n.log2 - 52) := by
  have filled : decreaseExponent n 0 (Format.binary64.targetExponent (totalExponent n 0)) =
      (countMantissa n, (n.log2 - 52 : Int)) := by
    have apart : (0 - Format.binary64.targetExponent (totalExponent n 0)).toNat = 52 - n.log2 := by
      rw [target_eq]
      omega
    unfold decreaseExponent
    dsimp only
    rw [apart, Nat.shiftLeft_eq, countMantissa_few bits]
    exact Prod.ext rfl (by dsimp only; omega)
  have few := countMantissa_lt bits
  have stays : 0 = (Format.binary64.targetExponent (totalExponent (countMantissa n) (n.log2 - 52)) -
      (n.log2 - 52 : Int)).toNat := by
    rw [target_eq, log2_full (countMantissa_bounds positive).1 few]
    omega
  have kept : (exactly (countMantissa n) >>> 0).mantissa < 2 ^ 53 := few
  unfold UnpackedFloat.round
  dsimp only
  rw [filled]
  exact (roundWithAccuracy_settled .positive stays (by omega) kept).trans
    (congrArg (settled .positive _) (by omega))

theorem word_unpack {n : Nat} (positive : 0 < n) (few : n < 2 ^ 53) :
    n.toUInt64.toFloat.toModel.unpack = stored (settled .positive (countMantissa n) (n.log2 - 52)) := by
  have word : n.toUInt64.toNat = n := by
    rw [Nat.toUInt64, UInt64.toNat_ofNat']
    omega
  change stored (UnpackedFloat.normalize .binary64 (n.toUInt64.toNat : Int) 0 .positive) = _
  rw [word, ← round_count positive (log2_few positive few)]
  unfold UnpackedFloat.normalize
  rw [compare_gt_iff_gt.mpr (show (n : Int) > 0 by omega)]
  rfl

theorem ofNat_few {n : Nat} (few : n < 2 ^ 53) :
    (Score.ofNat n : Float) = n.toUInt64.toFloat * Float.exactlyRepresentablePowersOfTen[0] :=
  dif_pos ⟨few, by decide⟩

theorem ofNat_many {n : Nat} (many : ¬ n < 2 ^ 53) :
    (Score.ofNat n : Float).toModel = Float.Model.ofScientific n 0 := by
  change (Float.ofScientific n false 0).toModel = _
  unfold Float.ofScientific
  rw [dif_neg fun both => many both.1]
  rfl

theorem mul_unpack (x y : Float) :
    (x * y).toModel.unpack = stored (UnpackedFloat.mul .binary64 x.toModel.unpack y.toModel.unpack) := rfl

theorem one_unpack : Float.exactlyRepresentablePowersOfTen[0].toModel.unpack =
    .finite .positive (2 ^ 52) (-52) (by decide) := rfl

/-- A full mantissa is not changed when its double is multiplied by one. -/
theorem round_times_one {m : Nat} {e : Int} (leading : 2 ^ 52 ≤ m) (few : m < 2 ^ 53) (low : -1074 ≤ e) :
    roundWithAccuracy .binary64 .positive (m * 2 ^ 52) (e + -52) .exact =
      .finite .positive m e (by omega) := by
  have some_bits : 0 < m := by omega
  have down : 52 = (Format.binary64.targetExponent (totalExponent (m * 2 ^ 52) (e + -52)) - (e + -52)).toNat := by
    rw [target_eq, log2_shift some_bits, log2_full leading few]
    omega
  have shifted := shift_exactly m 52
  have kept : (exactly (m * 2 ^ 52) >>> 52).mantissa < 2 ^ 53 := by
    rw [shifted]
    exact few
  rw [roundWithAccuracy_settled .positive down (by omega) kept, shifted, settled]
  change (if none_left : m = 0 then _ else if m < 2 ^ 53 then _ else _) = _
  rw [dif_neg some_bits.ne', if_pos few]
  exact finite_congr rfl (by omega)

/-- A count as a double: as many of its bits as a double keeps, rounded. -/
theorem count_unpack {n : Nat} (positive : 0 < n) :
    (Score.ofNat n : Float).toModel.unpack = stored (settled .positive (countMantissa n) (n.log2 - 52)) := by
  by_cases few : n < 2 ^ 53
  · obtain ⟨full, most⟩ := countMantissa_bounds positive
    obtain ⟨m, e, some_bits, shape, leading, short, at_e⟩ := settled_full .positive full most (t := (n.log2 - 52 : Int))
    have bits := log2_few positive few
    have normal : Binary.Normal ⟨false, m, e⟩ := ⟨short, by dsimp only; omega, .inr leading⟩
    have held : ¬ 972 ≤ e := by omega
    rw [ofNat_few few, mul_unpack, one_unpack, word_unpack positive few, shape, stored_finite some_bits normal,
      if_neg held]
    change stored (roundWithAccuracy .binary64 .positive (m * 2 ^ 52) (e + -52) .exact) = _
    rw [round_times_one leading short (by omega), stored_finite some_bits normal, if_neg held]
  · rw [ofNat_many few]
    change stored (UnpackedFloat.ofScientific .binary64 n 0) = _
    have padded : UnpackedFloat.ofScientific .binary64 n 0 =
        roundWithAccuracy .binary64 .positive (n <<< 53 * 10 ^ 0) (-53 + 0) .exact := by
      unfold UnpackedFloat.ofScientific
      rw [dif_neg positive.ne', if_neg (by decide), if_neg, if_pos le_rfl]
      · rfl
      · change ¬ (0 : Int) < -(2048 + (n.log2 : Int))
        omega
    rw [padded, Nat.shiftLeft_eq, Nat.pow_zero, Nat.mul_one, Int.add_zero, round_padded positive]

theorem count_le {a n : Nat} (some : 0 < a) (within : a ≤ n) :
    place (Score.ofNat a : Float).toModel.unpack ≤ place (Score.ofNat n : Float).toModel.unpack := by
  have positive := some.trans_le within
  obtain ⟨full, most⟩ := countMantissa_bounds some
  obtain ⟨full', most'⟩ := countMantissa_bounds positive
  have bits : a.log2 ≤ n.log2 := (Nat.le_log2 positive.ne').mpr ((Nat.log2_self_le some.ne').trans within)
  rw [count_unpack some, count_unpack positive]
  refine stored_settled_le (by omega) (by omega) full most full' most' ?_
  rcases bits.lt_or_eq with fewer | same
  · exact .inl (by omega)
  · refine .inr ⟨by rw [same], ?_⟩
    rw [countMantissa, countMantissa, same]
    exact rounded_shift_le (Nat.mul_le_mul_right _ within) _

/-! ### Quotients that are at most one -/

theorem div_unpack (x y : Float) :
    (x / y).toModel.unpack = stored (UnpackedFloat.div .binary64 x.toModel.unpack y.toModel.unpack) := rfl

/-- One as a double. -/
abbrev unit : UnpackedFloat := .finite .positive (2 ^ 52) (-52) (by decide)

/-- What is known of a quotient that is at most a power of two, which is known exactly when it is one. -/
theorem quotient_grade {n d power : Nat} (within : n ≤ d * power) :
    grade (.ofMantissaAndAccuracy (n / d) (accuracyOfFraction (n % d) d)) ≤ grade (exactly power) := by
  rcases (Nat.div_le_of_le_mul within).lt_or_eq with below | same
  · have some_left (accuracy : Accuracy) : grade (.ofMantissaAndAccuracy (n / d) accuracy) ≤ 4 * (n / d) + 3 := by
      rcases accuracy with _ | _ | _ | _ <;> simp [grade, ExtendedMantissa.ofMantissaAndAccuracy]
    have whole : grade (exactly power) = 4 * power := rfl
    have := some_left (accuracyOfFraction (n % d) d)
    omega
  · have nothing : n % d = 0 := by
      have parts := Nat.div_add_mod n d
      rw [same] at parts
      omega
    rw [same, nothing]
    exact le_rfl

/-- A rounded mantissa at an exponent where it is at most one is stored as at most one. -/
theorem stored_settled_unit {r u : Nat} (fine : 52 ≤ u) (low : u ≤ 1074) (most : r ≤ 2 ^ 53) (within : r ≤ 2 ^ u)
    (full : r = 0 ∨ u = 1074 ∨ 2 ^ 52 ≤ r) :
    place (.zero .positive) ≤ place (stored (settled .positive r (-u))) ∧
      place (stored (settled .positive r (-u))) ≤ place unit := by
  have finite_within {m : Nat} {e : Int} (some_bits : 0 < m) (few : m < 2 ^ 53) (lowest : -1074 ≤ e)
      (full : e = -1074 ∨ 2 ^ 52 ≤ m) (lighter : e < -52 ∨ e = -52 ∧ m ≤ 2 ^ 52) :
      place (.zero .positive) ≤ place (stored (.finite .positive m e some_bits)) ∧
        place (stored (.finite .positive m e some_bits)) ≤ place unit := by
    have normal : Binary.Normal ⟨false, m, e⟩ := ⟨few, lowest, full⟩
    rw [stored_finite some_bits normal, if_neg (show ¬ 972 ≤ e by omega)]
    simp only [place, Prod.Lex.toLex_le_toLex]
    exact ⟨.inl (by decide), .inr ⟨trivial, lighter.imp_right (And.imp_right fun fewer => by omega)⟩⟩
  unfold settled
  split
  · rw [stored_zero]
    exact ⟨le_rfl, by simp [place, Prod.Lex.toLex_le_toLex]⟩
  next some_bits =>
    split
    · refine finite_within _ ‹_› (by omega) (by omega) ?_
      rcases fine.lt_or_eq with finer | rfl
      · exact .inl (by omega)
      · exact .inr ⟨rfl, within⟩
    · have finer : 53 ≤ u := by
        by_contra coarse
        obtain rfl : u = 52 := by omega
        omega
      exact finite_within _ (by decide) (by omega) (.inr le_rfl) (by omega)

/-- What is at most one is rounded to at most as many units as there are in one. -/
theorem rounded_unit {em : ExtendedMantissa} {b u k : Nat} (parts : b = u + k)
    (graded : grade em ≤ grade (exactly (2 ^ b))) : (em >>> k).roundedMantissa ≤ 2 ^ u := by
  have one : exactly (2 ^ b) >>> k = exactly (2 ^ u) := by rw [parts, Nat.pow_add, shift_exactly]
  calc (em >>> k).roundedMantissa ≤ (exactly (2 ^ b) >>> k).roundedMantissa := rounded_le (grade_shift graded k)
    _ = 2 ^ u := by
      rw [one]
      rfl

/-- What is at most one, and known in enough bits, is rounded to a double that is at most one. -/
theorem round_unit {q b : Nat} {accuracy : Accuracy} (fine : 53 ≤ b) (within : q ≤ 2 ^ b)
    (graded : grade (.ofMantissaAndAccuracy q accuracy) ≤ grade (exactly (2 ^ b)))
    (enough : b < 1074 → 2 ^ 52 ≤ q) :
    place (.zero .positive) ≤ place (stored (roundWithAccuracy .binary64 .positive q (-b) accuracy)) ∧
      place (stored (roundWithAccuracy .binary64 .positive q (-b) accuracy)) ≤ place unit := by
  -- The bits that are rounded away, and the units of the result in one.
  obtain ⟨k, down⟩ : ∃ k, k = (Format.binary64.targetExponent (totalExponent q (-b)) - -b).toNat := ⟨_, rfl⟩
  obtain ⟨u, result⟩ : ∃ u : Nat, u = b - k := ⟨_, rfl⟩
  have target := target_eq q (-b)
  have bounded : q.log2 ≤ b := by
    by_cases none_left : q = 0
    · simp [none_left]
    · exact Nat.lt_succ_iff.mp ((Nat.log2_lt none_left).mpr (within.trans_lt (Nat.pow_lt_pow_succ (by decide))))
  have most : q / 2 ^ k < 2 ^ 53 := by
    rw [Nat.div_lt_iff_lt_mul (Nat.two_pow_pos k), ← Nat.pow_add]
    exact Nat.lt_log2_self.trans_le (Nat.pow_le_pow_right (by decide) (by omega))
  have filled : u = 1074 ∨ 2 ^ 52 ≤ q / 2 ^ k := by
    refine or_iff_not_imp_left.mpr fun higher => ?_
    by_cases all : k = 0
    · rw [all, Nat.pow_zero, Nat.div_one]
      exact enough (by omega)
    · have leading : 52 + k = q.log2 := by omega
      have some_left : q ≠ 0 := by
        rintro rfl
        simp at leading
      rw [Nat.le_div_iff_mul_le (Nat.two_pow_pos k), ← Nat.pow_add, leading]
      exact Nat.log2_self_le some_left
  have mantissa : (ExtendedMantissa.ofMantissaAndAccuracy q accuracy >>> k).mantissa = q / 2 ^ k := by
    rw [shift_mantissa]
    rcases accuracy with _ | _ | _ | _ <;> rfl
  have near := rounded_bounds (ExtendedMantissa.ofMantissaAndAccuracy q accuracy >>> k)
  have bound : (ExtendedMantissa.ofMantissaAndAccuracy q accuracy >>> k).roundedMantissa ≤ 2 ^ u :=
    rounded_unit (show b = u + k by omega) graded
  rw [roundWithAccuracy_settled .positive down (by omega) (mantissa ▸ most), show (-b + k : Int) = -u by omega]
  rw [mantissa] at near
  exact stored_settled_unit (by omega) (by omega) (by omega) bound (.inr (filled.imp_right fun full => full.trans near.1))

/-- The exponent at which a quotient is cut: fine enough for all its bits, if the format has it. -/
def quotientExponent (m : Nat) (e : Int) (m' : Nat) (e' : Int) : Int :=
  min (e - e') (max (m.log2 + e - (m'.log2 + e') - 53) (-1074))

theorem div_finite {m m' d : Nat} {e e' t : Int} (some_bits : 0 < m) (some_bits' : 0 < m')
    (cut : t = quotientExponent m e m' e') (padded : d = (e - e' - t).toNat) :
    UnpackedFloat.div .binary64 (.finite .positive m e some_bits) (.finite .positive m' e' some_bits') =
      roundWithAccuracy .binary64 .positive (m * 2 ^ d / m') t (accuracyOfFraction (m * 2 ^ d % m') m') := by
  have target : Format.binary64.targetExponent (totalExponent m e - totalExponent m' e') =
      max (m.log2 + e - (m'.log2 + e') - 53) (-1074) := by
    change max ((m.log2 : Int) + 1 + e - (m'.log2 + 1 + e') - 53) (-1074) = _
    omega
  have core : divCore .binary64 m e m' e' = (m * 2 ^ d / m', t, accuracyOfFraction (m * 2 ^ d % m') m') := by
    unfold divCore
    dsimp only
    rw [target, ← quotientExponent, ← cut, ← padded, Nat.shiftLeft_eq]
  unfold UnpackedFloat.div
  dsimp only
  rw [core]
  rfl

/-- The lighter of two doubles has no greater power of two as its first bit. -/
theorem lighter_log2 {m m' : Nat} {e e' : Int} (some_bits : 0 < m) (some_bits' : 0 < m')
    (normal : Binary.Normal ⟨false, m, e⟩) (normal' : Binary.Normal ⟨false, m', e'⟩) (lighter : Lighter m e m' e') :
    m.log2 + e ≤ m'.log2 + e' := by
  obtain ⟨few, low, -⟩ := normal
  obtain ⟨-, -, full'⟩ := normal'
  dsimp only at few low full'
  have bits := log2_few some_bits few
  rcases lighter with below | ⟨rfl, fewer⟩
  · have leading := (Nat.le_log2 some_bits'.ne').mpr (full'.resolve_left (by omega))
    omega
  · have leading := (Nat.le_log2 some_bits'.ne').mpr ((Nat.log2_self_le some_bits.ne').trans fewer)
    omega

/-- A double divided by one that is no lighter is between zero and one. -/
theorem quotient_within {m m' : Nat} {e e' : Int} (some_bits : 0 < m) (some_bits' : 0 < m')
    (normal : Binary.Normal ⟨false, m, e⟩) (normal' : Binary.Normal ⟨false, m', e'⟩) (lighter : Lighter m e m' e') :
    place (.zero .positive) ≤ place (stored (UnpackedFloat.div .binary64
        (.finite .positive m e some_bits) (.finite .positive m' e' some_bits'))) ∧
      place (stored (UnpackedFloat.div .binary64
        (.finite .positive m e some_bits) (.finite .positive m' e' some_bits'))) ≤ place unit := by
  obtain ⟨few, low, full⟩ := normal
  obtain ⟨few', low', full'⟩ := normal'
  dsimp only at few low full few' low' full'
  have bits := log2_few some_bits few
  have bits' := log2_few some_bits' few'
  have ordered := lighter_log2 some_bits some_bits' ⟨few, low, full⟩ ⟨few', low', full'⟩ lighter
  -- The exponent of the quotient, the zeros behind the dividend, and the units in one.
  obtain ⟨t, cut⟩ : ∃ t, t = quotientExponent m e m' e' := ⟨_, rfl⟩
  obtain ⟨d, padded⟩ : ∃ d : Nat, d = (e - e' - t).toNat := ⟨_, rfl⟩
  obtain ⟨b, units⟩ : ∃ b : Nat, t = -b := ⟨(-t).toNat, by unfold quotientExponent at cut; omega⟩
  have divided := div_finite some_bits some_bits' cut padded
  unfold quotientExponent at cut
  have within : m * 2 ^ d ≤ m' * 2 ^ b := by
    rcases lighter with below | ⟨rfl, fewer⟩
    · have leading : 2 ^ 52 ≤ m' := full'.resolve_left (by omega)
      calc m * 2 ^ d ≤ 2 ^ 53 * 2 ^ d := Nat.mul_le_mul_right _ few.le
        _ = 2 ^ 52 * 2 ^ (d + 1) := by
          rw [Nat.pow_succ 2 d]
          ring
        _ ≤ m' * 2 ^ b := Nat.mul_le_mul leading (Nat.pow_le_pow_right (by decide) (by omega))
    · rw [show d = b by omega]
      exact Nat.mul_le_mul_right _ fewer
  have enough (fewer : b < 1074) : 2 ^ 52 ≤ m * 2 ^ d / m' := by
    have aligned : m.log2 + d = 52 + (m'.log2 + 1) := by omega
    rw [Nat.le_div_iff_mul_le some_bits']
    calc 2 ^ 52 * m' ≤ 2 ^ 52 * 2 ^ (m'.log2 + 1) := Nat.mul_le_mul_left _ Nat.lt_log2_self.le
      _ = 2 ^ m.log2 * 2 ^ d := by rw [← Nat.pow_add, ← Nat.pow_add, aligned]
      _ ≤ m * 2 ^ d := Nat.mul_le_mul_right _ (Nat.log2_self_le some_bits.ne')
  rw [divided, units]
  exact round_unit (by omega) (Nat.div_le_of_le_mul within) (quotient_grade within) enough

/-- A count is held, unless it is too large. -/
theorem count_shape {n : Nat} (positive : 0 < n) :
    (Score.ofNat n : Float).toModel.unpack = .infinity .positive ∨
      ∃ m e, ∃ some_bits : 0 < m, (Score.ofNat n : Float).toModel.unpack = .finite .positive m e some_bits := by
  obtain ⟨full, most⟩ := countMantissa_bounds positive
  obtain ⟨m, e, some_bits, shape, leading, few, at_e⟩ := settled_full .positive full most (t := (n.log2 - 52 : Int))
  have normal : Binary.Normal ⟨false, m, e⟩ := ⟨few, by dsimp only; omega, .inr leading⟩
  rw [count_unpack positive, shape, stored_finite some_bits normal]
  split
  · exact .inl rfl
  · exact .inr ⟨m, e, some_bits, rfl⟩

/-- What is no number, or between zero and one. -/
def Proportion (u : UnpackedFloat) : Prop :=
  u = .notANumber ∨ place (.zero .positive) ≤ place u ∧ place u ≤ place unit

theorem proportion_zero : Proportion (stored (.zero .positive)) := by
  rw [stored_zero]
  exact .inr ⟨le_rfl, by simp [place, Prod.Lex.toLex_le_toLex]⟩

/-- Of two counts the lesser divided by the greater. -/
theorem proportion_ratio {a n : Nat} (within : a ≤ n) (positive : 1 ≤ n) :
    Proportion (Score.ofNat a / Score.ofNat n : Float).toModel.unpack := by
  rw [div_unpack]
  rcases Nat.eq_zero_or_pos a with rfl | some
  · rw [show (Score.ofNat 0 : Float).toModel.unpack = .zero .positive from rfl]
    rcases count_shape positive with infinite | ⟨m, e, some_bits, held⟩
    · rw [infinite]
      exact proportion_zero
    · rw [held]
      exact proportion_zero
  have ordered := count_le some within
  rcases count_shape positive with infinite | ⟨m', e', some_bits', held'⟩
  · rw [infinite]
    rcases count_shape some with infinite | ⟨m, e, some_bits, held⟩
    · rw [infinite]
      exact .inl stored_nan
    · rw [held]
      exact proportion_zero
  · rw [held'] at ordered ⊢
    rcases count_shape some with infinite | ⟨m, e, some_bits, held⟩
    · rw [infinite] at ordered
      simp [place, Prod.Lex.toLex_le_toLex] at ordered
    · rw [held] at ordered ⊢
      simp only [place, Prod.Lex.toLex_le_toLex] at ordered
      have lighter : Lighter m e m' e' := by
        rcases ordered with absurd | ⟨_, below | ⟨same, fewer⟩⟩
        · cases lt_irrefl _ absurd
        · exact .inl below
        · exact .inr ⟨same, by omega⟩
      exact .inr (quotient_within some_bits some_bits' (normal_unpack held) (normal_unpack held') lighter)

theorem not_less {x y : Float} (ordered : place y.toModel.unpack ≤ place x.toModel.unpack) : Score.less x y = false := by
  rw [← Bool.not_eq_true, OrderedScore.less_iff]
  rintro ⟨_, _, below⟩
  exact below.not_ge ordered

instance : ProportionalScore Float where
  ratio_within {a n} within positive := by
    rcases proportion_ratio within positive with undefined | ⟨above, below⟩
    · have nan : Score.isNaN (Score.ofNat a / Score.ofNat n : Float) = true := isNaN_iff.mpr undefined
      rw [← Bool.not_eq_true, ← Bool.not_eq_true, OrderedScore.less_iff, OrderedScore.less_iff, nan]
      exact ⟨fun both => Bool.false_ne_true both.1.symm, fun both => Bool.false_ne_true both.2.1.symm⟩
    · exact ⟨not_less above, not_less below⟩

end Doubles

end ProbCore
