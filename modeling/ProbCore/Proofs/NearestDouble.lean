import ProbCore.Decimal.Reading
import ProbCore.Proofs.NumberText
import ProbCore.Proofs.SinglePrecision

/-! Decimals are read as the nearest double. A quotient is rounded once, to 53 bits or to the grid of the
least numbers, halves to the even neighbour, so that it becomes the one double to which it rounds. A decimal
that rounds to a double, as the shortest digits of this double do, is read back as it. -/

namespace ProbCore.Decimal

/-- A natural number that is nearest to a rational one, and even where two are. -/
structure Closest (r : Nat) (y : ℚ) : Prop where
  below : (r : ℚ) - 1 / 2 ≤ y
  above : y ≤ r + 1 / 2
  even : y = r - 1 / 2 ∨ y = r + 1 / 2 → r % 2 = 0

theorem roundQuotient_closest (n : Nat) {d : Nat} (positive : 0 < d) : Closest (roundQuotient n d) (n / d) := by
  have whole : (0 : ℚ) < d := by exact_mod_cast positive
  have rest : n % d < d := Nat.mod_lt n positive
  have parts : (n : ℚ) / d = (n / d : Nat) + (n % d : Nat) / d := by
    rw [div_eq_iff whole.ne', add_mul, div_mul_cancel₀ _ whole.ne']
    exact_mod_cast (Nat.div_add_mod' n d).symm
  have part_nonneg : (0 : ℚ) ≤ (n % d : Nat) / d := by positivity
  have part_lt : ((n % d : Nat) : ℚ) / d < 1 := by
    rw [div_lt_one whole]
    exact_mod_cast rest
  have next : ((n / d + 1 : Nat) : ℚ) = (n / d : Nat) + 1 := Nat.cast_succ _
  unfold roundQuotient
  dsimp only
  rw [parts]
  rcases lt_trichotomy (2 * (n % d)) d with light | half | heavy
  · have small : ((n % d : Nat) : ℚ) / d < 1 / 2 := by
      rw [div_lt_div_iff₀ whole two_pos]
      exact_mod_cast (by omega)
    rw [if_pos light]
    refine ⟨by linarith, by linarith, fun tie => ?_⟩
    rcases tie with tie | tie <;> linarith
  · have middle : ((n % d : Nat) : ℚ) / d = 1 / 2 := by
      rw [div_eq_div_iff whole.ne' two_ne_zero]
      exact_mod_cast (by omega)
    rw [if_neg half.not_lt, if_neg half.not_gt, middle]
    split
    next even => exact ⟨by linarith, by linarith, fun _ => eq_of_beq even⟩
    next odd =>
      refine ⟨by rw [next]; linarith, by rw [next]; linarith, fun _ => ?_⟩
      have other : n / d % 2 ≠ 0 := fun even => odd (beq_iff_eq.mpr even)
      omega
  · have large : 1 / 2 < ((n % d : Nat) : ℚ) / d := by
      rw [div_lt_div_iff₀ two_pos whole]
      exact_mod_cast (by omega)
    rw [if_neg heavy.not_gt, if_pos heavy]
    refine ⟨by rw [next]; linarith, by rw [next]; linarith, fun tie => ?_⟩
    rw [next] at tie
    rcases tie with tie | tie <;> linarith

theorem unitsOf_closest (n : Nat) {d : Nat} (positive : 0 < d) (scale : Int) :
    Closest (unitsOf n d scale) (n / d / 2 ^ scale) := by
  unfold unitsOf
  split
  next large =>
    obtain ⟨k, rfl⟩ := Int.eq_ofNat_of_zero_le large
    have closest := roundQuotient_closest n (Nat.mul_pos positive (Nat.two_pow_pos k))
    rw [Nat.cast_mul, ← div_div, Nat.cast_pow, Nat.cast_ofNat] at closest
    rw [zpow_natCast]
    exact closest
  next small =>
    obtain ⟨k, rfl⟩ := Int.exists_eq_neg_ofNat (by omega : scale ≤ 0)
    have closest := roundQuotient_closest (n * 2 ^ k) positive
    rw [Nat.cast_mul, mul_div_right_comm, Nat.cast_pow, Nat.cast_ofNat] at closest
    rw [neg_neg, zpow_neg, zpow_natCast, div_inv_eq_mul]
    exact closest

/-- A number that is nearest in units of a double's last place rounds to the double. Below a power of two
the places are half as wide. -/
theorem Closest.rounds {b : Binary} {q : ℚ} (closest : Closest b.mantissa (q / 2 ^ b.exponent)) (nonneg : 0 ≤ q)
    (least : b.mantissa = 2 ^ 52 → -1074 < b.exponent → 2 ^ 54 - 1 ≤ 4 * (q / 2 ^ b.exponent)) : Rounds b q := by
  have unit : (0 : ℚ) < 2 ^ (b.exponent - 2) := zpow_pos two_pos _
  have units : q = 4 * (q / 2 ^ b.exponent) * 2 ^ (b.exponent - 2) := by
    have scale : (0 : ℚ) < 2 ^ b.exponent := zpow_pos two_pos _
    rw [quarters] at scale ⊢
    field_simp
  have some_units : 0 ≤ q / 2 ^ b.exponent := by positivity
  obtain ⟨below, above, even⟩ := closest
  set y := q / 2 ^ b.exponent
  have low : (b.lower : ℚ) ≤ 4 * y ∧ (b.mantissa % 2 ≠ 0 → (b.lower : ℚ) < 4 * y) := by
    unfold Binary.lower
    split
    next power =>
      obtain ⟨full, higher⟩ := (Bool.and_eq_true _ _).mp power
      have full : b.mantissa = 2 ^ 52 := eq_of_beq full
      have bound := least full (of_decide_eq_true higher)
      rw [full]
      refine ⟨?_, fun odd => absurd (by decide) odd⟩
      norm_num at bound ⊢
      exact bound
    next =>
      rcases Nat.eq_zero_or_pos b.mantissa with none_there | positive
      · rw [none_there]
        refine ⟨?_, fun odd => absurd rfl odd⟩
        norm_num
        exact some_units
      · have cast : ((4 * b.mantissa - 2 : Nat) : ℚ) = 4 * b.mantissa - 2 := by
          rw [Nat.cast_sub (by omega)]
          push_cast
          ring
        rw [cast]
        refine ⟨by linarith, fun odd => lt_of_le_of_ne (by linarith) fun tie => odd (even (.inl ?_))⟩
        linarith
  have high : 4 * y ≤ (4 * b.mantissa + 2 : Nat) ∧ (b.mantissa % 2 ≠ 0 → 4 * y < (4 * b.mantissa + 2 : Nat)) := by
    push_cast
    refine ⟨by linarith, fun odd => lt_of_le_of_ne (by linarith) fun tie => odd (even (.inr ?_))⟩
    linarith
  rw [units]
  exact ⟨mul_le_mul_of_nonneg_right low.1 unit.le, mul_le_mul_of_nonneg_right high.1 unit.le, fun odd =>
    ⟨mul_lt_mul_of_pos_right (low.2 odd) unit, mul_lt_mul_of_pos_right (high.2 odd) unit⟩⟩

/-- What a quotient of natural numbers is rounded to. -/
structure Rounded (n d : Nat) (b : Binary) : Prop where
  normal : b.Normal
  positive : b.negative = false
  rounds : Rounds b (n / d)
  toFloat_eq : (nearestBinary n d).toFloat = b.toFloat
  exponent_le : (nearestBinary n d).exponent ≤ b.exponent

theorem size_bounds {n d : Nat} (numerator : 0 < n) (denominator : 0 < d) :
    (2 : ℚ) ^ ((n.log2 : Int) - d.log2 - 1) < n / d ∧ (n : ℚ) / d < 2 ^ ((n.log2 : Int) - d.log2 + 1) := by
  have least : (2 : ℚ) ^ (n.log2 : Int) ≤ n := by
    rw [zpow_natCast]
    exact_mod_cast Nat.log2_self_le numerator.ne'
  have most : (n : ℚ) < 2 ^ ((n.log2 : Int) + 1) := by
    rw [← Nat.cast_succ, zpow_natCast]
    exact_mod_cast Nat.lt_log2_self
  have least' : (2 : ℚ) ^ (d.log2 : Int) ≤ d := by
    rw [zpow_natCast]
    exact_mod_cast Nat.log2_self_le denominator.ne'
  have most' : (d : ℚ) < 2 ^ ((d.log2 : Int) + 1) := by
    rw [← Nat.cast_succ, zpow_natCast]
    exact_mod_cast Nat.lt_log2_self
  have whole : (0 : ℚ) < d := by exact_mod_cast denominator
  constructor
  · rw [lt_div_iff₀ whole]
    calc (2 : ℚ) ^ ((n.log2 : Int) - d.log2 - 1) * d
        < 2 ^ ((n.log2 : Int) - d.log2 - 1) * 2 ^ ((d.log2 : Int) + 1) :=
          mul_lt_mul_of_pos_left most' (zpow_pos two_pos _)
      _ = 2 ^ (n.log2 : Int) := by
          rw [← zpow_add₀ two_ne_zero]
          congr 1
          ring
      _ ≤ n := least
  · rw [div_lt_iff₀ whole]
    calc (n : ℚ) < 2 ^ ((n.log2 : Int) + 1) := most
      _ = 2 ^ ((n.log2 : Int) - d.log2 + 1) * 2 ^ (d.log2 : Int) := by
          rw [← zpow_add₀ two_ne_zero]
          congr 1
          ring
      _ ≤ 2 ^ ((n.log2 : Int) - d.log2 + 1) * d := mul_le_mul_of_nonneg_left least' (zpow_pos two_pos _).le

section

variable {n d : Nat} {s : Int}

/-- Fewer than 54 bits are a double's mantissa. -/
theorem Rounded.inside (denominator : 0 < d) (shape : nearestBinary n d = ⟨false, unitsOf n d s, s⟩)
    (normal : Binary.Normal ⟨false, unitsOf n d s, s⟩)
    (least : unitsOf n d s = 2 ^ 52 → -1074 < s → 2 ^ 54 - 1 ≤ 4 * ((n : ℚ) / d / 2 ^ s)) :
    Rounded n d ⟨false, unitsOf n d s, s⟩ where
  normal := normal
  positive := rfl
  rounds := (unitsOf_closest n denominator s).rounds (by positivity) least
  toFloat_eq := by rw [shape]
  exponent_le := by rw [shape]

/-- A mantissa of one bit too many carries into the exponent. -/
theorem Rounded.carried (denominator : 0 < d) (shape : nearestBinary n d = ⟨false, unitsOf n d s, s⟩)
    (lowest : -1074 ≤ s) (full : unitsOf n d s = 2 ^ 53) (below : (n : ℚ) / d / 2 ^ s < 2 ^ 53) :
    Rounded n d ⟨false, 2 ^ 52, s + 1⟩ where
  normal := ⟨by dsimp only; omega, by dsimp only; omega, .inr le_rfl⟩
  positive := rfl
  rounds := by
    have closest := unitsOf_closest n denominator s
    have halved : (n : ℚ) / d / 2 ^ (s + 1) = n / d / 2 ^ s / 2 := by
      rw [zpow_add_one₀ two_ne_zero, ← div_div]
    have bound := closest.below
    rw [full] at bound
    push_cast at bound
    have nearest : Closest (2 ^ 52) ((n : ℚ) / d / 2 ^ (s + 1)) := by
      rw [halved]
      refine ⟨?_, ?_, fun _ => by decide⟩ <;> push_cast <;> linarith
    refine nearest.rounds (by positivity) fun _ _ => ?_
    change _ ≤ 4 * ((n : ℚ) / d / 2 ^ (s + 1))
    rw [halved]
    linarith
  toFloat_eq := by rw [shape, full, Doubles.toFloat_carry false lowest]
  exponent_le := by
    rw [shape]
    exact (lt_add_one s).le

/-- At a scale that counts one bit too many, the next one counts a double's mantissa, or one that
carries. -/
theorem Rounded.of_many (denominator : 0 < d)
    (shape : nearestBinary n d = ⟨false, unitsOf n d (s + 1), s + 1⟩) (lowest : -1074 ≤ s)
    (many : 2 ^ 53 ≤ unitsOf n d s) (most : (n : ℚ) / d / 2 ^ s < 2 ^ 54) : ∃ b, Rounded n d b := by
  have closest := unitsOf_closest n denominator s
  have closest' := unitsOf_closest n denominator (s + 1)
  have halved : (n : ℚ) / d / 2 ^ (s + 1) = n / d / 2 ^ s / 2 := by
    rw [zpow_add_one₀ two_ne_zero, ← div_div]
  have full : (2 : ℚ) ^ 53 ≤ unitsOf n d s := by exact_mod_cast many
  have quarter : 2 ^ 54 - 1 ≤ 4 * ((n : ℚ) / d / 2 ^ (s + 1)) := by
    have below := closest.below
    rw [halved]
    linarith
  have below : (n : ℚ) / d / 2 ^ (s + 1) < 2 ^ 53 := by
    rw [halved]
    linarith
  have least : 2 ^ 52 ≤ unitsOf n d (s + 1) := by
    have bound : (2 : ℚ) ^ 52 - 1 < unitsOf n d (s + 1) := by
      have above := closest'.above
      linarith
    have whole : (2 : ℚ) ^ 52 < (unitsOf n d (s + 1) + 1 : Nat) := by
      push_cast
      linarith
    exact Nat.lt_succ_iff.mp (by exact_mod_cast whole)
  have inside : unitsOf n d (s + 1) ≤ 2 ^ 53 := by
    have bound : (unitsOf n d (s + 1) : ℚ) < (2 ^ 53 + 1 : Nat) := by
      have below' := closest'.below
      push_cast
      linarith
    exact Nat.lt_succ_iff.mp (by exact_mod_cast bound)
  rcases inside.eq_or_lt with carries | few
  · exact ⟨_, .carried denominator shape (by omega) carries below⟩
  · exact ⟨_, .inside denominator shape ⟨few, by dsimp only; omega, .inr least⟩ fun _ _ => quarter⟩

/-- A scale that counts no bit too many counts a double's mantissa, unless it is the finest and
there are not as many units. -/
theorem Rounded.of_few (denominator : 0 < d) (shape : nearestBinary n d = ⟨false, unitsOf n d s, s⟩)
    (lowest : -1074 ≤ s) (few : unitsOf n d s < 2 ^ 53)
    (larger : -1074 < s → (2 : ℚ) ^ 52 < n / d / 2 ^ s) : ∃ b, Rounded n d b := by
  have full : s = -1074 ∨ 2 ^ 52 ≤ unitsOf n d s := by
    by_cases higher : -1074 < s
    · right
      have bound : (2 : ℚ) ^ 52 < (unitsOf n d s + 1 : Nat) := by
        have above := (unitsOf_closest n denominator s).above
        have above' := larger higher
        push_cast
        linarith
      exact Nat.lt_succ_iff.mp (by exact_mod_cast bound)
    · exact .inl (by omega)
  refine ⟨_, .inside denominator shape ⟨few, lowest, full⟩ fun _ higher => ?_⟩
  linarith [larger higher]

end

/-- A positive quotient is rounded to the double to which it rounds. -/
theorem nearestBinary_rounded {n d : Nat} (numerator : 0 < n) (denominator : 0 < d) : ∃ b, Rounded n d b := by
  obtain ⟨low, high⟩ := size_bounds numerator denominator
  obtain ⟨s, scale⟩ : ∃ s : Int, s = max ((n.log2 : Int) - d.log2 - 53) (-1074) := ⟨_, rfl⟩
  have lowest : -1074 ≤ s := scale ▸ le_max_right _ _
  have shape : nearestBinary n d = if unitsOf n d s ≥ pow2 53 then ⟨false, unitsOf n d (s + 1), s + 1⟩
      else ⟨false, unitsOf n d s, s⟩ := by
    rw [scale]
    unfold nearestBinary
    dsimp only
    split <;> rfl
  by_cases many : unitsOf n d s ≥ pow2 53
  · rw [if_pos many] at shape
    refine Rounded.of_many denominator shape lowest many ?_
    rw [div_lt_iff₀ (zpow_pos two_pos s), ← zpow_natCast, ← zpow_add₀ two_ne_zero]
    exact lt_of_lt_of_le high (zpow_le_zpow_right₀ one_le_two (by omega))
  · rw [if_neg many] at shape
    refine Rounded.of_few denominator shape lowest (not_le.mp many) fun higher => ?_
    rw [lt_div_iff₀ (zpow_pos two_pos s), ← zpow_natCast, ← zpow_add₀ two_ne_zero]
    exact lt_of_le_of_lt (zpow_le_zpow_right₀ one_le_two (by omega)) low

/-- A quotient that rounds to a double becomes this double. -/
theorem nearestQuotient_eq {n d : Nat} {b : Binary} (numerator : 0 < n) (denominator : 0 < d) (normal : b.Normal)
    (small : b.exponent < 972) (positive : b.negative = false) (rounds : Rounds b (n / d)) :
    nearestQuotient n d = b.toFloat := by
  obtain ⟨c, rounded⟩ := nearestBinary_rounded numerator denominator
  obtain ⟨mantissas, exponents⟩ := rounds_inj rounded.normal normal rounded.rounds rounds
  have same : c = b := by
    obtain ⟨negative, m, e⟩ := b
    obtain ⟨negative', m', e'⟩ := c
    obtain rfl : m' = m := mantissas
    obtain rfl : e' = e := exponents
    obtain rfl : negative = false := positive
    obtain rfl : negative' = false := rounded.positive
    rfl
  have inside : ¬ (nearestBinary n d).exponent > 971 := by
    have := rounded.exponent_le
    rw [same] at this
    omega
  have some_units : ¬ (n == 0) = true := fun zero => numerator.ne' (eq_of_beq zero)
  rw [nearestQuotient, if_neg some_units]
  dsimp only
  rw [if_neg inside, rounded.toFloat_eq, same]

/-- The digits of a number bracket it by powers of ten. -/
theorem length_toString {n : Nat} (positive : 0 < n) :
    n < 10 ^ (toString n).length ∧ 10 ^ ((toString n).length - 1) ≤ n := by
  have length : (toString n).length = (Nat.toDigits 10 n).length := by
    rw [Nat.toString_eq_ofList_toDigits, String.length_ofList]
  have some_digits : 0 < (Nat.toDigits 10 n).length := List.length_pos_iff.mpr Nat.toDigits_ne_nil
  rw [length]
  refine ⟨(Nat.length_toDigits_le_iff (by decide) some_digits).mp le_rfl, ?_⟩
  by_contra few
  rcases Nat.eq_zero_or_pos ((Nat.toDigits 10 n).length - 1) with single | several
  · rw [single] at few
    omega
  · have short := (Nat.length_toDigits_le_iff (b := 10) (by decide) several).mpr (not_le.mp few)
    omega

/-- What rounds to a double is within the powers of ten beyond which decimals are not computed. -/
theorem Rounds.within {b : Binary} {q : ℚ} (rounds : Rounds b q) (normal : b.Normal) (small : b.exponent < 972)
    (positive : 0 < b.mantissa) : (10 : ℚ) ^ (-400 : Int) < q ∧ q < 10 ^ (399 : Int) := by
  constructor
  · have lowest : (2 : ℚ) ≤ b.lower := by exact_mod_cast (by have := b.lower_ge; omega : 2 ≤ b.lower)
    have unit : (2 : ℚ) ^ (-1076 : Int) ≤ 2 ^ (b.exponent - 2) :=
      zpow_le_zpow_right₀ one_le_two (by have := normal.exponent_ge; omega)
    have ten : (10 : ℚ) ^ (-400 : Int) < 2 ^ (-1076 : Int) := by
      have powers : 2 ^ 1076 < 10 ^ 400 := by decide +kernel
      rw [zpow_neg, zpow_neg]
      refine inv_strictAnti₀ (by positivity) ?_
      exact_mod_cast powers
    have unit_pos : (0 : ℚ) < 2 ^ (b.exponent - 2) := zpow_pos two_pos _
    have scaled := mul_le_mul_of_nonneg_right lowest unit_pos.le
    linarith [rounds.lower_le]
  · have most : ((4 * b.mantissa + 2 : Nat) : ℚ) ≤ 2 ^ 55 := by
      have bound : 4 * b.mantissa + 2 ≤ 2 ^ 55 := by
        have := normal.mantissa_lt
        omega
      exact_mod_cast bound
    have unit : (2 : ℚ) ^ (b.exponent - 2) ≤ 2 ^ (969 : Int) := zpow_le_zpow_right₀ one_le_two (by omega)
    have ten : (2 : ℚ) ^ 55 * 2 ^ (969 : Int) < 10 ^ (399 : Int) := by
      have powers : 2 ^ 55 * 2 ^ 969 < 10 ^ 399 := by decide +kernel
      exact_mod_cast powers
    calc q ≤ (4 * b.mantissa + 2 : Nat) * 2 ^ (b.exponent - 2) := rounds.le_upper
      _ ≤ 2 ^ 55 * 2 ^ (969 : Int) := mul_le_mul most unit (zpow_pos two_pos _).le (by positivity)
      _ < _ := ten

/-- A decimal that rounds to a double is read as this double. -/
theorem nearestDecimal_eq {m : Nat} {e : Int} {b : Binary} (normal : b.Normal) (small : b.exponent < 972)
    (some_bits : 0 < b.mantissa) (positive : b.negative = false) (rounds : Rounds b (m * 10 ^ e)) :
    nearestDecimal m e = b.toFloat := by
  have above := rounds.pos some_bits
  have nonzero : 0 < m := by
    refine Nat.pos_of_ne_zero fun zero => ?_
    rw [zero, Nat.cast_zero, zero_mul] at above
    exact lt_irrefl _ above
  obtain ⟨below, least⟩ := length_toString nonzero
  obtain ⟨low, high⟩ := rounds.within normal small some_bits
  have not_large : ¬ ((toString m).length + e : Int) > 400 := by
    intro large
    have bound : (10 : ℚ) ^ (399 : Int) ≤ m * 10 ^ e := by
      have digits : (10 : ℚ) ^ (((toString m).length - 1 : Nat) : Int) ≤ m := by
        rw [zpow_natCast]
        exact_mod_cast least
      calc (10 : ℚ) ^ (399 : Int) ≤ 10 ^ ((((toString m).length - 1 : Nat) : Int) + e) :=
            zpow_le_zpow_right₀ (by norm_num) (by omega)
        _ = 10 ^ (((toString m).length - 1 : Nat) : Int) * 10 ^ e := zpow_add₀ (by norm_num) _ _
        _ ≤ m * 10 ^ e := mul_le_mul_of_nonneg_right digits (by positivity)
    exact absurd high bound.not_gt
  have not_small : ¬ ((toString m).length + e : Int) < -400 := by
    intro few
    have bound : (m : ℚ) * 10 ^ e ≤ 10 ^ (-400 : Int) := by
      have digits : (m : ℚ) ≤ 10 ^ ((toString m).length : Int) := by
        rw [zpow_natCast]
        exact_mod_cast below.le
      calc (m : ℚ) * 10 ^ e ≤ 10 ^ ((toString m).length : Int) * 10 ^ e :=
            mul_le_mul_of_nonneg_right digits (by positivity)
        _ = 10 ^ (((toString m).length : Int) + e) := (zpow_add₀ (by norm_num) _ _).symm
        _ ≤ 10 ^ (-400 : Int) := zpow_le_zpow_right₀ (by norm_num) few.le
    exact absurd low bound.not_gt
  have some_units : ¬ (m == 0) = true := fun zero => nonzero.ne' (eq_of_beq zero)
  rw [nearestDecimal, if_neg some_units]
  dsimp only
  rw [if_neg not_large, if_neg not_small]
  split
  next whole =>
    obtain ⟨k, rfl⟩ := Int.eq_ofNat_of_zero_le whole
    refine nearestQuotient_eq (Nat.mul_pos nonzero (Nat.pow_pos (by decide))) Nat.one_pos normal small positive ?_
    simpa [pow10] using rounds
  next part =>
    obtain ⟨k, rfl⟩ := Int.exists_eq_neg_ofNat (by omega : e ≤ 0)
    rw [neg_neg]
    refine nearestQuotient_eq nonzero (Nat.pow_pos (by decide)) normal small positive ?_
    rw [zpow_neg, zpow_natCast] at rounds
    simpa [pow10, div_eq_mul_inv] using rounds

theorem exponent_lt_of_ofFloat? {x : Float} {b : Binary} (taken : Binary.ofFloat? x = some b) : b.exponent < 972 := by
  rw [Binary.ofFloat?_eq] at taken
  cases shape : x.toModel.unpack with
  | zero s =>
    rw [shape] at taken
    cases taken
    exact show (-1074 : Int) < 972 by decide
  | finite s m e some_bits =>
    rw [shape] at taken
    cases taken
    exact Doubles.exponent_lt shape
  | infinity | notANumber =>
    rw [shape] at taken
    cases taken

/-- A double is made of its sign and its magnitude. -/
theorem signed_magnitude {x y : Float} {b : Binary} (taken : Binary.ofFloat? x = some b)
    (magnitude : Binary.ofFloat? y = some { b with negative := false }) : (if b.negative then -y else y) = x := by
  obtain ⟨negative, m, e⟩ := b
  cases negative with
  | false => exact Binary.ofFloat?_inj magnitude taken
  | true =>
    refine Binary.ofFloat?_inj ?_ taken
    rw [if_pos rfl, Binary.ofFloat?_eq, Doubles.neg_unpack]
    rw [Binary.ofFloat?_eq] at magnitude
    cases shape : y.toModel.unpack with
    | zero s | finite s =>
      rw [shape] at magnitude
      obtain ⟨signs, rfl, rfl⟩ := Binary.mk.inj (Option.some.inj magnitude)
      cases s with
      | negative => cases signs
      | positive => rfl
    | infinity | notANumber =>
      rw [shape] at magnitude
      cases magnitude

theorem ofFloat?_toFloat {b : Binary} (normal : b.Normal) (small : b.exponent < 972) (some_bits : 0 < b.mantissa) :
    Binary.ofFloat? b.toFloat = some b := by
  obtain ⟨negative, m, e⟩ := b
  obtain ⟨s, rfl⟩ : ∃ s, isNegative s = negative := by
    cases negative
    · exact ⟨.positive, rfl⟩
    · exact ⟨.negative, rfl⟩
  rw [Binary.ofFloat?_eq, Doubles.toFloat_finite some_bits normal small]
  rfl

/-- A decimal that rounds to the magnitude of a double is read, with the double's sign, as the double. -/
theorem nearestDecimal_signed {x : Float} {b : Binary} {m : Nat} {e : Int} (taken : Binary.ofFloat? x = some b)
    (value : b.mantissa = 0 ∧ m = 0 ∨ 0 < b.mantissa ∧ Rounds b (m * 10 ^ e)) :
    (if b.negative then -nearestDecimal m e else nearestDecimal m e) = x := by
  refine signed_magnitude taken ?_
  have normal := Binary.normal_of_ofFloat? taken
  rcases value with ⟨zero, rfl⟩ | ⟨some_bits, rounds⟩
  · have least := normal.exponent_of_zero zero
    obtain ⟨negative, m, e'⟩ := b
    obtain rfl : m = 0 := zero
    obtain rfl : e' = -1074 := least
    have nothing : nearestDecimal 0 e = 0 := rfl
    rw [nothing, Binary.ofFloat?_eq]
    rfl
  · have normal' : Binary.Normal { b with negative := false } := ⟨normal.mantissa_lt, normal.exponent_ge, normal.full⟩
    have small : b.exponent < 972 := exponent_lt_of_ofFloat? taken
    have rounds' : Rounds { b with negative := false } (m * 10 ^ e) :=
      ⟨rounds.lower_le, rounds.le_upper, rounds.inside⟩
    rw [nearestDecimal_eq normal' small some_bits rfl rounds']
    exact ofFloat?_toFloat normal' small some_bits

end ProbCore.Decimal
