import Mathlib.Tactic.Linarith
import Mathlib.Tactic.NormNum
import Mathlib.Algebra.Order.Field.Power
import ProbCore.Decimal.Shortest
import ProbCore.Proofs.NumberIdentity

/-! The shortest digits of a double lie among the reals that round to it, and no real rounds to two doubles:
the digits tell doubles apart. Seventeen digits are always enough, since the grid that they make is finer
than the doubles. -/

namespace ProbCore.Decimal

/-- What a decimal stands for. -/
def Scaled.value (d : Scaled) : ℚ := d.digits * 10 ^ d.exponent

theorem zpow_toNat {x : ℚ} (nonzero : x ≠ 0) (e : Int) : x ^ e.toNat = x ^ e * x ^ (-e).toNat := by
  rw [← zpow_natCast x e.toNat, ← zpow_natCast x (-e).toNat, ← zpow_add₀ nonzero]
  congr 1
  omega

/-- The lower end of the reals that round to a positive double, in quarters of its last place. -/
def Binary.lower (b : Binary) : Nat :=
  if b.mantissa == pow2 52 && b.exponent > -1074 then 4 * b.mantissa - 1 else 4 * b.mantissa - 2

/-- A real that rounds to a positive double. -/
structure Rounds (b : Binary) (q : ℚ) : Prop where
  lower_le : b.lower * 2 ^ (b.exponent - 2) ≤ q
  le_upper : q ≤ (4 * b.mantissa + 2 : Nat) * 2 ^ (b.exponent - 2)
  inside : b.mantissa % 2 ≠ 0 →
    b.lower * 2 ^ (b.exponent - 2) < q ∧ q < (4 * b.mantissa + 2 : Nat) * 2 ^ (b.exponent - 2)

/-- The integers that are compared are the two sides, times one factor. -/
theorem sides (d : Scaled) (e : Int) :
    ∃ c : ℚ, 0 < c ∧ ((d.digits * pow10 d.exponent.toNat * pow2 (-e).toNat : Nat) : ℚ) = d.value * c ∧
      ∀ n : Nat, ((n * (pow2 e.toNat * pow10 (-d.exponent).toNat) : Nat) : ℚ) = n * 2 ^ e * c := by
  refine ⟨10 ^ (-d.exponent).toNat * 2 ^ (-e).toNat, by positivity, ?_, fun n => ?_⟩
  · simp only [pow10, pow2, Nat.pow_eq, Nat.cast_mul, Nat.cast_pow, Nat.cast_ofNat, Scaled.value,
      zpow_toNat (show (10 : ℚ) ≠ 0 by norm_num) d.exponent]
    ring
  · simp only [pow10, pow2, Nat.pow_eq, Nat.cast_mul, Nat.cast_pow, Nat.cast_ofNat,
      zpow_toNat (two_ne_zero (α := ℚ)) e]
    ring

theorem withinRounding_eq (b : Binary) (d : Scaled) :
    withinRounding .double b d =
      (let scaled := d.digits * pow10 d.exponent.toNat * pow2 (-(b.exponent - 2)).toNat
       let unit := pow2 (b.exponent - 2).toNat * pow10 (-d.exponent).toNat
       if b.mantissa % 2 == 0 then b.lower * unit ≤ scaled && scaled ≤ (4 * b.mantissa + 2) * unit
       else b.lower * unit < scaled && scaled < (4 * b.mantissa + 2) * unit) := rfl

theorem withinRounding_iff (b : Binary) (d : Scaled) : withinRounding .double b d = true ↔ Rounds b d.value := by
  obtain ⟨c, positive, left, right⟩ := sides d (b.exponent - 2)
  have le_iff {n m : Nat} {x y : ℚ} (left : (n : ℚ) = x * c) (right : (m : ℚ) = y * c) : n ≤ m ↔ x ≤ y := by
    rw [← Nat.cast_le (α := ℚ), left, right, mul_le_mul_iff_left₀ positive]
  have lt_iff {n m : Nat} {x y : ℚ} (left : (n : ℚ) = x * c) (right : (m : ℚ) = y * c) : n < m ↔ x < y := by
    rw [← Nat.cast_lt (α := ℚ), left, right, mul_lt_mul_iff_left₀ positive]
  rw [withinRounding_eq]
  dsimp only
  split
  next even =>
    rw [beq_iff_eq] at even
    rw [Bool.and_eq_true, decide_eq_true_eq, decide_eq_true_eq, le_iff (right _) left, le_iff left (right _)]
    exact ⟨fun ⟨low, high⟩ => ⟨low, high, fun odd => absurd even odd⟩, fun within => ⟨within.lower_le, within.le_upper⟩⟩
  next odd =>
    rw [beq_iff_eq] at odd
    rw [Bool.and_eq_true, decide_eq_true_eq, decide_eq_true_eq, lt_iff (right _) left, lt_iff left (right _)]
    exact ⟨fun ⟨low, high⟩ => ⟨low.le, high.le, fun _ => ⟨low, high⟩⟩, fun within => within.inside odd⟩

theorem Binary.lower_ge (b : Binary) : 4 * b.mantissa - 2 ≤ b.lower := by
  unfold Binary.lower
  split <;> omega

/-- Above the least exponent the lower end is at most a quarter of a place below the least full mantissa. -/
theorem Binary.Normal.lower_ge {b : Binary} (normal : b.Normal) (above : -1074 < b.exponent) : 2 ^ 54 - 1 ≤ b.lower := by
  have full : 2 ^ 52 ≤ b.mantissa := normal.full.resolve_left (by omega)
  unfold Binary.lower
  split
  next => omega
  next inner =>
    have other : b.mantissa ≠ 2 ^ 52 := by
      intro least
      simp [least, above, pow2] at inner
    omega

/-- The upper end of a double is not above the lower end of a greater one, and below it if both are even. -/
theorem ends_apart {a b : Binary} (normal : a.Normal) (normal' : b.Normal)
    (below : a.exponent < b.exponent ∨ a.exponent = b.exponent ∧ a.mantissa < b.mantissa) :
    ((4 * a.mantissa + 2 : Nat) : ℚ) * 2 ^ (a.exponent - 2) ≤ b.lower * 2 ^ (b.exponent - 2) ∧
      (a.mantissa % 2 = 0 → b.mantissa % 2 = 0 →
        ((4 * a.mantissa + 2 : Nat) : ℚ) * 2 ^ (a.exponent - 2) < b.lower * 2 ^ (b.exponent - 2)) := by
  have unit : (0 : ℚ) < 2 ^ (a.exponent - 2) := zpow_pos two_pos _
  rcases below with finer | ⟨same, below⟩
  · have lowest := normal'.lower_ge (lt_of_le_of_lt normal.exponent_ge finer)
    have bound := normal.mantissa_lt
    have step : (b.lower * 2 : Nat) * (2 : ℚ) ^ (a.exponent - 2) ≤ b.lower * 2 ^ (b.exponent - 2) := by
      have scale : (2 : ℚ) ^ (a.exponent - 2 + 1) ≤ 2 ^ (b.exponent - 2) := zpow_le_zpow_right₀ one_le_two (by omega)
      rw [zpow_add_one₀ two_ne_zero] at scale
      calc ((b.lower * 2 : Nat) : ℚ) * 2 ^ (a.exponent - 2) = b.lower * (2 ^ (a.exponent - 2) * 2) := by
            push_cast
            ring
        _ ≤ b.lower * 2 ^ (b.exponent - 2) := mul_le_mul_of_nonneg_left scale (Nat.cast_nonneg _)
    refine ⟨le_trans (mul_le_mul_of_nonneg_right (Nat.cast_le.mpr ?_) unit.le) step, fun even _ =>
      lt_of_lt_of_le (mul_lt_mul_of_pos_right (Nat.cast_lt.mpr ?_) unit) step⟩ <;> omega
  · have lowest := b.lower_ge
    rw [← same]
    refine ⟨mul_le_mul_of_nonneg_right (Nat.cast_le.mpr ?_) unit.le, fun even even' =>
      mul_lt_mul_of_pos_right (Nat.cast_lt.mpr ?_) unit⟩ <;> omega

/-- No real rounds to two doubles. -/
theorem rounds_apart {a b : Binary} {q : ℚ} (normal : a.Normal) (normal' : b.Normal)
    (below : a.exponent < b.exponent ∨ a.exponent = b.exponent ∧ a.mantissa < b.mantissa)
    (first : Rounds a q) (second : Rounds b q) : False := by
  obtain ⟨apart, strict⟩ := ends_apart normal normal' below
  by_cases odd : a.mantissa % 2 = 0
  · by_cases odd' : b.mantissa % 2 = 0
    · exact absurd (le_trans second.lower_le first.le_upper) (not_le.mpr (strict odd odd'))
    · exact absurd (lt_of_lt_of_le (second.inside odd').1 first.le_upper) (not_lt.mpr apart)
  · exact absurd (lt_of_le_of_lt second.lower_le (first.inside odd).2) (not_lt.mpr apart)

theorem rounds_inj {a b : Binary} {q : ℚ} (normal : a.Normal) (normal' : b.Normal) (first : Rounds a q)
    (second : Rounds b q) : a.mantissa = b.mantissa ∧ a.exponent = b.exponent := by
  by_contra unlike
  have order : (a.exponent < b.exponent ∨ a.exponent = b.exponent ∧ a.mantissa < b.mantissa) ∨
      b.exponent < a.exponent ∨ b.exponent = a.exponent ∧ b.mantissa < a.mantissa := by omega
  rcases order with below | above
  · exact rounds_apart normal normal' below first second
  · exact rounds_apart normal' normal above second first

/-! The digits are found: the exponent is not too high, and so the last grid is fine enough. -/

/-- Powers of ten beside powers of two: `10 ^ 1233` is below `2 ^ 4096`, and ten times it is above. -/
theorem ten_le_two {k : Int} (low : -4096 ≤ k) : (10 : ℚ) ^ (k * 1233 / 4096 - 1) ≤ 2 ^ k := by
  have small : (10 : ℚ) ^ 1233 ≤ 2 ^ 4096 := by
    have powers : 10 ^ 1233 ≤ 2 ^ 4096 := by decide +kernel
    exact_mod_cast powers
  have large : (2 : ℚ) ^ 4096 ≤ 10 ^ 1234 := by
    have powers : 2 ^ 4096 ≤ 10 ^ 1234 := by decide +kernel
    exact_mod_cast powers
  have power : ((10 : ℚ) ^ (k * 1233 / 4096 - 1)) ^ 4096 ≤ (2 ^ k) ^ 4096 := by
    rw [← zpow_natCast, ← zpow_mul, ← zpow_natCast (2 ^ k), zpow_comm, zpow_natCast]
    rcases le_or_gt 0 k with positive | negative
    · obtain ⟨n, rfl⟩ := Int.eq_ofNat_of_zero_le positive
      calc (10 : ℚ) ^ ((n * 1233 / 4096 - 1) * ((4096 : Nat) : Int)) ≤ 10 ^ (((1233 : Nat) : Int) * n) :=
            zpow_le_zpow_right₀ (by norm_num) (by omega)
        _ = (10 ^ 1233) ^ n := by rw [zpow_mul, zpow_natCast, zpow_natCast]
        _ ≤ (2 ^ 4096) ^ n := pow_le_pow_left₀ (by positivity) small n
        _ = _ := (zpow_natCast _ n).symm
    · obtain ⟨n, rfl⟩ := Int.exists_eq_neg_ofNat negative.le
      calc (10 : ℚ) ^ ((-n * 1233 / 4096 - 1) * ((4096 : Nat) : Int)) ≤ 10 ^ (((1234 : Nat) : Int) * -n) :=
            zpow_le_zpow_right₀ (by norm_num) (by omega)
        _ = ((10 ^ 1234) ^ n)⁻¹ := by rw [zpow_mul, zpow_neg, zpow_natCast, zpow_natCast]
        _ ≤ ((2 ^ 4096) ^ n)⁻¹ := inv_anti₀ (by positivity) (pow_le_pow_left₀ (by positivity) large n)
        _ = _ := by rw [zpow_neg, zpow_natCast]
  exact (pow_le_pow_iff_left₀ (by positivity) (by positivity) (by norm_num)).mp power

theorem climb_reaches {numerator denominator : Nat} {fuel : Nat} {e : Int}
    (reached : decimalExponent.reaches numerator denominator e = true) :
    decimalExponent.reaches numerator denominator (decimalExponent.climb numerator denominator fuel e) = true := by
  induction fuel generalizing e with
  | zero => exact reached
  | succ fuel ih =>
    rw [decimalExponent.climb]
    split
    next next => exact ih next
    next => exact reached

theorem reaches_iff (numerator denominator : Nat) (e : Int) :
    decimalExponent.reaches numerator denominator e = true ↔ (denominator : ℚ) * 10 ^ e ≤ numerator := by
  unfold decimalExponent.reaches
  rw [apply_ite (· = true)]
  split
  next above =>
    obtain ⟨n, rfl⟩ := Int.eq_ofNat_of_zero_le above
    rw [decide_eq_true_eq, Int.toNat_natCast, ← Nat.cast_le (α := ℚ), zpow_natCast]
    simp [pow10]
  next below =>
    obtain ⟨n, rfl⟩ := Int.exists_eq_neg_ofNat (show e ≤ 0 by omega)
    rw [decide_eq_true_eq, neg_neg, Int.toNat_natCast, ← Nat.cast_le (α := ℚ), zpow_neg, zpow_natCast,
      mul_inv_le_iff₀ (by positivity)]
    simp [pow10]

theorem decimalExponent_le {numerator denominator : Nat} (positive : 0 < numerator)
    (bounded : denominator.log2 < 4096) :
    (denominator : ℚ) * 10 ^ decimalExponent numerator denominator ≤ numerator := by
  have least : (2 : ℚ) ^ numerator.log2 ≤ numerator := by exact_mod_cast Nat.log2_self_le positive.ne'
  have most : (denominator : ℚ) ≤ 2 ^ (denominator.log2 + 1) := by exact_mod_cast Nat.lt_log2_self.le
  rw [← reaches_iff]
  apply climb_reaches
  rw [reaches_iff]
  calc (denominator : ℚ) * 10 ^ (((numerator.log2 : Int) - denominator.log2 - 1) * 1233 / 4096 - 1)
      ≤ 2 ^ (denominator.log2 + 1) * 2 ^ ((numerator.log2 : Int) - denominator.log2 - 1) :=
        mul_le_mul most (ten_le_two (by omega)) (by positivity) (by positivity)
    _ = 2 ^ numerator.log2 := by
        rw [← zpow_natCast, ← zpow_natCast, ← zpow_add₀ two_ne_zero]
        congr 1
        push_cast
        ring
    _ ≤ numerator := least

theorem onGrid_within {b : Binary} {e : Int} {d : Scaled} (found : onGrid? .double b e = some d) :
    withinRounding .double b d = true := by
  unfold onGrid? at found
  dsimp only at found
  split at found
  next reads _ =>
    cases found
    exact (Bool.and_eq_true _ _ ▸ reads).2
  next _ reads =>
    cases found
    exact reads
  next => cases found
  next below above =>
    split at found
    · cases found
      exact (Bool.and_eq_true _ _ ▸ below).2
    · cases found
      exact above

/-- A double lies between two neighbours on the grid. -/
theorem grid_floor (b : Binary) (e : Int) :
    let below := b.ratio.1 * pow10 (-e).toNat / (b.ratio.2 * pow10 e.toNat)
    Scaled.value ⟨below, e⟩ ≤ b.mantissa * 2 ^ b.exponent ∧
      b.mantissa * 2 ^ b.exponent < Scaled.value ⟨below + 1, e⟩ := by
  intro below
  have denominator : (0 : ℚ) < b.ratio.2 := Nat.cast_pos.mpr b.ratio_pos
  have bottom : 0 < b.ratio.2 * pow10 e.toNat := Nat.mul_pos b.ratio_pos (Nat.pow_pos (by decide))
  have factor : (0 : ℚ) < 10 ^ (-e).toNat := by positivity
  have spread (n : Nat) : ((n * (b.ratio.2 * pow10 e.toNat) : Nat) : ℚ) =
      Scaled.value ⟨n, e⟩ * b.ratio.2 * 10 ^ (-e).toNat := by
    simp only [pow10, Nat.pow_eq, Nat.cast_mul, Nat.cast_pow, Nat.cast_ofNat, Scaled.value,
      zpow_toNat (show (10 : ℚ) ≠ 0 by norm_num) e]
    ring
  have whole : ((b.ratio.1 * pow10 (-e).toNat : Nat) : ℚ) = b.ratio.1 * 10 ^ (-e).toNat := by simp [pow10]
  have floor : below * (b.ratio.2 * pow10 e.toNat) ≤ b.ratio.1 * pow10 (-e).toNat := Nat.div_mul_le_self _ _
  have next : b.ratio.1 * pow10 (-e).toNat < (below + 1) * (b.ratio.2 * pow10 e.toNat) :=
    (Nat.div_lt_iff_lt_mul bottom).mp (Nat.lt_succ_self below)
  rw [← Nat.cast_le (α := ℚ), spread, whole, mul_le_mul_iff_left₀ factor] at floor
  rw [← Nat.cast_lt (α := ℚ), spread, whole, mul_lt_mul_iff_left₀ factor] at next
  rw [← b.ratio_eq]
  exact ⟨(le_div_iff₀ denominator).mpr floor, (div_lt_iff₀ denominator).mpr next⟩

theorem quarters (b : Binary) : (2 : ℚ) ^ b.exponent = 4 * 2 ^ (b.exponent - 2) := by
  rw [zpow_sub₀ two_ne_zero]
  norm_num
  ring

/-- Less than half a place above a double all reals round to it. -/
theorem rounds_above {b : Binary} {q : ℚ} (above : b.mantissa * 2 ^ b.exponent < q)
    (near : 2 * (q - b.mantissa * 2 ^ b.exponent) < 2 ^ b.exponent) : Rounds b q := by
  have unit : (0 : ℚ) < 2 ^ (b.exponent - 2) := zpow_pos two_pos _
  rw [quarters] at above near
  have lowest : (b.lower : ℚ) ≤ 4 * b.mantissa := by
    have bound : b.lower ≤ 4 * b.mantissa := by
      unfold Binary.lower
      split <;> omega
    exact_mod_cast bound
  have low : b.lower * 2 ^ (b.exponent - 2) < q := by
    have scaled := mul_le_mul_of_nonneg_right lowest unit.le
    linarith
  have high : q < (4 * b.mantissa + 2 : Nat) * 2 ^ (b.exponent - 2) := by
    push_cast
    linarith
  exact ⟨low.le, high.le, fun _ => ⟨low, high⟩⟩

/-- Less than half a place below it they do too, unless it is a power of two. -/
theorem rounds_below {b : Binary} {q : ℚ} (positive : 0 < b.mantissa) (inner : b.mantissa ≠ 2 ^ 52)
    (below : q ≤ b.mantissa * 2 ^ b.exponent) (near : 2 * (b.mantissa * 2 ^ b.exponent - q) < 2 ^ b.exponent) :
    Rounds b q := by
  have unit : (0 : ℚ) < 2 ^ (b.exponent - 2) := zpow_pos two_pos _
  rw [quarters] at below near
  have lowest : (b.lower : ℚ) = 4 * b.mantissa - 2 := by
    have bound : b.lower + 2 = 4 * b.mantissa := by
      have other : ¬ (b.mantissa == pow2 52 && b.exponent > -1074) = true := fun least =>
        inner (eq_of_beq ((Bool.and_eq_true _ _).mp least).1)
      rw [Binary.lower, if_neg other]
      omega
    rw [eq_sub_iff_add_eq]
    exact_mod_cast bound
  have low : b.lower * 2 ^ (b.exponent - 2) < q := by
    rw [lowest]
    linarith
  have high : q < (4 * b.mantissa + 2 : Nat) * 2 ^ (b.exponent - 2) := by
    push_cast
    linarith
  exact ⟨low.le, high.le, fun _ => ⟨low, high⟩⟩

/-- On a grid finer than the doubles one of the two neighbours of a double rounds to it. -/
theorem onGrid_found {b : Binary} {e : Int} (positive : 0 < b.mantissa)
    (coarse : (10 : ℚ) ^ e ≤ b.mantissa * 2 ^ b.exponent) (fine : (10 : ℚ) ^ e < 2 ^ b.exponent)
    (finer : b.mantissa = 2 ^ 52 → (10 : ℚ) ^ e * 2 < 2 ^ b.exponent) :
    ∃ d, onGrid? .double b e = some d := by
  obtain ⟨floor, next⟩ := grid_floor b e
  set below := b.ratio.1 * pow10 (-e).toNat / (b.ratio.2 * pow10 e.toNat)
  have step : Scaled.value ⟨below + 1, e⟩ = Scaled.value ⟨below, e⟩ + 10 ^ e := by
    simp only [Scaled.value]
    push_cast
    ring
  have some_below : below ≠ 0 := by
    intro none_below
    rw [step, none_below] at next
    simp only [Scaled.value, Nat.cast_zero, zero_mul, zero_add] at next
    exact absurd next (not_lt.mpr coarse)
  have reads : withinRounding .double b ⟨below, e⟩ = true ∨ withinRounding .double b ⟨below + 1, e⟩ = true := by
    rw [withinRounding_iff, withinRounding_iff]
    by_cases near : 2 * (Scaled.value ⟨below + 1, e⟩ - b.mantissa * 2 ^ b.exponent) < 2 ^ b.exponent
    · exact .inr (rounds_above next near)
    · have inner : b.mantissa ≠ 2 ^ 52 := fun least => near (by linarith [finer least])
      exact .inl (rounds_below positive inner floor (by linarith))
  have first : (below != 0) = true := bne_iff_ne.mpr some_below
  unfold onGrid?
  dsimp only
  split
  · exact ⟨_, rfl⟩
  · exact ⟨_, rfl⟩
  next no_below no_above =>
    rw [Bool.and_eq_false_imp] at no_below
    rcases reads with reads | reads
    · cases (no_below first).symm.trans reads
    · cases no_above.symm.trans reads
  · split <;> exact ⟨_, rfl⟩

theorem search_within {b : Binary} {top : Int} {fuel places : Nat}
    (found : ∃ d, onGrid? .double b (top - (places + fuel : Nat)) = some d) :
    withinRounding .double b (shortestIn.search .double b top fuel places) = true := by
  induction fuel generalizing places with
  | zero =>
    obtain ⟨d, found⟩ := found
    rw [Nat.add_zero] at found
    rw [shortestIn.search, found]
    exact onGrid_within found
  | succ fuel ih =>
    rw [shortestIn.search]
    split
    next d here => exact onGrid_within here
    next =>
      apply ih
      rwa [Nat.succ_add_eq_add_succ]

/-- The shortest digits of a positive double round to it. -/
theorem shortest_rounds {b : Binary} (normal : b.Normal) (positive : 0 < b.mantissa) : Rounds b (shortest b).value := by
  rw [← withinRounding_iff]
  change withinRounding .double b (shortestIn.search .double b (decimalExponent b.ratio.1 b.ratio.2) 16 0) = true
  apply search_within
  have scale : (0 : ℚ) < 2 ^ b.exponent := zpow_pos two_pos _
  have numerator : 0 < b.ratio.1 := by
    unfold Binary.ratio
    split
    · exact Nat.mul_pos positive (Nat.two_pow_pos _)
    · exact positive
  have denominator : b.ratio.2.log2 < 4096 := by
    have low := normal.exponent_ge
    unfold Binary.ratio
    split
    · exact Nat.zero_lt_succ _
    · change (2 ^ _).log2 < 4096
      rw [Nat.log2_two_pow]
      omega
  have leading := decimalExponent_le numerator denominator
  have below : (10 : ℚ) ^ (decimalExponent b.ratio.1 b.ratio.2) ≤ b.mantissa * 2 ^ b.exponent := by
    rw [← b.ratio_eq, le_div_iff₀ (Nat.cast_pos.mpr b.ratio_pos), mul_comm]
    exact leading
  have last : (10 : ℚ) ^ (decimalExponent b.ratio.1 b.ratio.2 - (0 + 16 : Nat)) * 10 ^ 16 ≤ b.mantissa * 2 ^ b.exponent := by
    rw [← zpow_natCast, ← zpow_add₀ (by norm_num)]
    simpa using below
  set grid : ℚ := 10 ^ (decimalExponent b.ratio.1 b.ratio.2 - (0 + 16 : Nat))
  have some_grid : 0 < grid := zpow_pos (by norm_num) _
  apply onGrid_found positive
  · linarith
  · have bound : (b.mantissa : ℚ) < 2 ^ 53 := by exact_mod_cast normal.mantissa_lt
    have most := mul_lt_mul_of_pos_right bound scale
    linarith
  · intro least
    rw [least, Nat.cast_pow] at last
    change grid * 2 < _
    norm_num at last
    linarith

end ProbCore.Decimal
