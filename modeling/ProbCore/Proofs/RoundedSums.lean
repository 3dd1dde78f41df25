import ProbCore.Proofs.NumberIdentity
import ProbCore.Proofs.ScoreOrder

/-! Rounded sums of doubles. A double has one mantissa and one exponent in its format, so doubles of
one sign compare by their exponents and then by their mantissas. Rounding a sum to the nearest
double cannot bring it below a double that it was not below, and so what is added to a number below
zero, if it is not above zero itself, never raises it. -/

namespace ProbCore.Doubles

open Float.Model Float.Model.UnpackedFloat
open Decimal (isNegative Binary)

theorem target_eq (m : Nat) (e : Int) :
    Format.binary64.targetExponent (totalExponent m e) = max (m.log2 + e - 52) (-1074) := by
  change max ((m.log2 : Int) + 1 + e - 53) (-1074) = _
  omega

theorem shift_mantissa (em : ExtendedMantissa) (k : Nat) : (em >>> k).mantissa = em.mantissa / 2 ^ k := by
  induction k with
  | zero => exact (Nat.div_one em.mantissa).symm
  | succ k ih =>
    change (em >>> k).mantissa / 2 = _
    rw [ih, Nat.div_div_eq_div_mul, Nat.pow_succ]

theorem rounded_or (em : ExtendedMantissa) :
    em.roundedMantissa = em.mantissa ∨ em.roundedMantissa = em.mantissa + 1 := by
  obtain ⟨m, half, rest⟩ := em
  change Accuracy.roundToNearestEven m _ = m ∨ Accuracy.roundToNearestEven m _ = m + 1
  cases half
  · cases rest
    · exact .inl rfl
    · exact .inl rfl
  · cases rest
    · change m + m % 2 = m ∨ m + m % 2 = m + 1
      omega
    · exact .inr rfl

/-- Few bits stay as they are. -/
theorem shift_few {m : Nat} {e : Int} (few : m < 2 ^ 53) (low : -1074 ≤ e) :
    shiftToTargetExponent .binary64 m e .exact = (⟨m, false, false⟩, e) := by
  have bits : m.log2 ≤ 52 := by
    by_cases zero : m = 0
    · simp [zero]
    · exact Nat.lt_succ_iff.mp ((Nat.log2_lt zero).mpr few)
  have nothing : (Format.binary64.targetExponent (totalExponent m e) - e).toNat = 0 := by
    rw [target_eq]
    omega
  unfold shiftToTargetExponent shiftToExponent
  dsimp only
  rw [nothing]
  exact Prod.ext rfl (Int.add_zero e)

/-- One bit too many is shifted out. -/
theorem shift_carry {e : Int} (low : -1074 ≤ e) :
    (shiftToTargetExponent .binary64 (2 ^ 53) e .exact).1.mantissa = 2 ^ 52 ∧
      (shiftToTargetExponent .binary64 (2 ^ 53) e .exact).2 = e + 1 := by
  have once : (Format.binary64.targetExponent (totalExponent (2 ^ 53) e) - e).toNat = 1 := by
    rw [target_eq, Nat.log2_two_pow]
    omega
  unfold shiftToTargetExponent shiftToExponent
  dsimp only
  rw [once]
  exact ⟨rfl, rfl⟩

theorem log2_shift {m : Nat} (positive : 0 < m) (d : Nat) : (m * 2 ^ d).log2 = m.log2 + d := by
  have shifted : 0 < m * 2 ^ d := Nat.mul_pos positive (Nat.two_pow_pos d)
  refine (Nat.log2_eq_iff shifted.ne').mpr ⟨?_, ?_⟩
  · rw [Nat.pow_add]
    exact Nat.mul_le_mul_right _ (Nat.log2_self_le positive.ne')
  · rw [Nat.add_right_comm, Nat.pow_add]
    exact Nat.mul_lt_mul_of_pos_right Nat.lt_log2_self (Nat.two_pow_pos d)

/-- Where a result may come to lie: at a mantissa and an exponent, or at the next one. -/
inductive Near (q : Nat) (t : Int) : Nat → Int → Prop where
  | here : Near q t q t
  | next (few : q + 1 < 2 ^ 53) : Near q t (q + 1) t
  | carry (full : q + 1 = 2 ^ 53) : Near q t (2 ^ 52) (t + 1)

theorem roundWithAccuracy_near {m k q : Nat} {e : Int} (s : Sign)
    (down : k = (Format.binary64.targetExponent (totalExponent m e) - e).toNat) (low : -1074 ≤ e + k)
    (cut : q = m / 2 ^ k) (positive : 0 < q) (few : q < 2 ^ 53) :
    ∃ m' e', ∃ positive' : 0 < m', roundWithAccuracy .binary64 s m e .exact = .finite s m' e' positive' ∧
      Near q (e + k) m' e' := by
  have shifted : shiftToTargetExponent .binary64 m e .exact = (ExtendedMantissa.mk m false false >>> k, e + k) := by
    unfold shiftToTargetExponent shiftToExponent
    rw [down]
    rfl
  have mantissa : (ExtendedMantissa.mk m false false >>> k).mantissa = q := by rw [shift_mantissa, cut]
  unfold roundWithAccuracy
  rw [shifted]
  dsimp only
  have kept {r : Nat} (some_bits : 0 < r) (few : r < 2 ^ 53) (near : Near q (e + k) r (e + k)) :
      ∃ m' e', ∃ positive' : 0 < m',
        (if none_left : (shiftToTargetExponent .binary64 r (e + k) .exact).1.mantissa = 0 then .zero s
          else .finite s (shiftToTargetExponent .binary64 r (e + k) .exact).1.mantissa
            (shiftToTargetExponent .binary64 r (e + k) .exact).2 (Nat.pos_of_ne_zero none_left)) =
          UnpackedFloat.finite s m' e' positive' ∧ Near q (e + k) m' e' := by
    rw [shift_few few low]
    exact ⟨r, e + k, some_bits, dif_neg some_bits.ne', near⟩
  rcases rounded_or (ExtendedMantissa.mk m false false >>> k) with same | more
  · rw [same, mantissa]
    exact kept positive few .here
  · rw [more, mantissa]
    by_cases carries : q + 1 < 2 ^ 53
    · exact kept (Nat.succ_pos q) carries (.next carries)
    · have full : q + 1 = 2 ^ 53 := by omega
      obtain ⟨halved, raised⟩ := shift_carry low
      rw [full]
      refine ⟨2 ^ 52, e + k + 1, by decide, ?_, .carry full⟩
      simp only [halved, raised]
      rfl

/-- A number is rounded to the double just below it or to the one just above. -/
theorem round_near {m d k q : Nat} {e t : Int} (s : Sign) (some_bits : 0 < m)
    (target : t = max (m.log2 + e - 52) (-1074)) (up : d = (e - t).toNat) (down : k = (t - e).toNat)
    (cut : q = m * 2 ^ d / 2 ^ k) (positive : 0 < q) (few : q < 2 ^ 53) :
    ∃ m' e', ∃ positive' : 0 < m', UnpackedFloat.round .binary64 s m e = .finite s m' e' positive' ∧
      Near q t m' e' := by
  have moved : decreaseExponent m e (Format.binary64.targetExponent (totalExponent m e)) = (m * 2 ^ d, e - d) := by
    unfold decreaseExponent
    dsimp only
    rw [target_eq, ← target, ← up, Nat.shiftLeft_eq]
  have lower : k = (Format.binary64.targetExponent (totalExponent (m * 2 ^ d) (e - d)) - (e - d)).toNat := by
    rw [target_eq, log2_shift some_bits]
    omega
  have placed : e - d + k = t := by omega
  unfold UnpackedFloat.round
  dsimp only
  rw [moved, ← placed]
  exact roundWithAccuracy_near s lower (by omega) cut positive few

/-- The bits that remain at the exponent of the result. -/
theorem bits_left {m d k : Nat} {e t : Int} (some_bits : 0 < m) (low : -1074 ≤ e)
    (target : t = max (m.log2 + e - 52) (-1074)) (up : d = (e - t).toNat) (down : k = (t - e).toNat) :
    0 < m * 2 ^ d / 2 ^ k ∧ m * 2 ^ d / 2 ^ k < 2 ^ 53 ∧ (t = -1074 ∨ 2 ^ 52 ≤ m * 2 ^ d / 2 ^ k) := by
  have least := Nat.log2_self_le some_bits.ne'
  have most := Nat.lt_log2_self (n := m)
  have full : t = -1074 ∨ 2 ^ 52 ≤ m * 2 ^ d / 2 ^ k := by
    by_cases lowest : t = -1074
    · exact .inl lowest
    · right
      rw [Nat.le_div_iff_mul_le (Nat.two_pow_pos k), ← Nat.pow_add, show 52 + k = m.log2 + d by omega, Nat.pow_add]
      exact Nat.mul_le_mul_right _ least
  refine ⟨?_, ?_, full⟩
  · rcases full with lowest | full
    · have none_lost : k = 0 := by omega
      rw [none_lost, Nat.pow_zero, Nat.div_one]
      exact Nat.mul_pos some_bits (Nat.two_pow_pos d)
    · omega
  · rw [Nat.div_lt_iff_lt_mul (Nat.two_pow_pos k), ← Nat.pow_add]
    refine lt_of_lt_of_le (Nat.mul_lt_mul_of_pos_right most (Nat.two_pow_pos d)) ?_
    rw [← Nat.pow_add]
    exact Nat.pow_le_pow_right (by decide) (by omega)

/-- One double is no heavier than another one of its sign. -/
def Lighter (m : Nat) (e : Int) (m' : Nat) (e' : Int) : Prop := e < e' ∨ e = e' ∧ m ≤ m'

theorem lighter_iff {m m' : Nat} {e e' : Int} {s s' : Bool} (normal : Binary.Normal ⟨s, m, e⟩)
    (normal' : Binary.Normal ⟨s', m', e'⟩) :
    Lighter m e m' e' ↔ (m : ℚ) * 2 ^ e ≤ m' * 2 ^ e' := by
  rcases lt_trichotomy e e' with below | rfl | above
  · exact iff_of_true (.inl below) (Binary.magnitude_lt normal normal' below).le
  · rw [mul_le_mul_iff_left₀ (zpow_pos two_pos e), Nat.cast_le, Lighter]
    exact ⟨fun lighter => (lighter.resolve_left (lt_irrefl e)).2, fun fewer => .inr ⟨rfl, fewer⟩⟩
  · have heavier := Binary.magnitude_lt normal' normal above
    refine iff_of_false (fun lighter => ?_) heavier.not_ge
    rcases lighter with below | ⟨same, _⟩
    · exact lt_asymm below above
    · exact above.ne same.symm

theorem Near.normal {q m : Nat} {t e : Int} {s : Bool} (near : Near q t m e) (normal : Binary.Normal ⟨s, q, t⟩) :
    Binary.Normal ⟨s, m, e⟩ := by
  obtain ⟨few, low, full⟩ := normal
  dsimp only at few low full
  cases near with
  | here => exact ⟨few, low, full⟩
  | next few => exact ⟨few, low, full.imp_right Nat.le_succ_of_le⟩
  | carry => exact ⟨Nat.pow_lt_pow_right (by decide) (by decide), by dsimp only; omega, .inr (le_refl _)⟩

/-- The same number at a lower exponent. -/
theorem at_finer (m : Nat) {e f : Int} {d : Nat} (apart : f + d = e) :
    (m : ℚ) * 2 ^ e = (m * 2 ^ d : Nat) * 2 ^ f := by
  rw [← apart, Nat.cast_mul, Nat.cast_pow, Nat.cast_ofNat, mul_assoc, ← zpow_natCast, ← zpow_add₀ two_ne_zero,
    add_comm]

/-- A number lies at a double or between it and the next one, and is rounded to one of them. -/
theorem round_between {m : Nat} {e : Int} (s : Sign) (some_bits : 0 < m) (low : -1074 ≤ e) :
    ∃ q t m' e', ∃ positive : 0 < m', UnpackedFloat.round .binary64 s m e = .finite s m' e' positive ∧
      Near q t m' e' ∧ (∀ negative, Binary.Normal ⟨negative, q, t⟩) ∧
      (q : ℚ) * 2 ^ t ≤ m * 2 ^ e ∧ (m : ℚ) * 2 ^ e < (q + 1) * 2 ^ t := by
  obtain ⟨t, target⟩ : ∃ t : Int, t = max (m.log2 + e - 52) (-1074) := ⟨_, rfl⟩
  obtain ⟨d, up⟩ : ∃ d : Nat, d = (e - t).toNat := ⟨_, rfl⟩
  obtain ⟨k, down⟩ : ∃ k : Nat, k = (t - e).toNat := ⟨_, rfl⟩
  obtain ⟨positive, few, full⟩ := bits_left some_bits low target up down
  obtain ⟨m', e', positive', rounded, near⟩ := round_near s some_bits target up down rfl positive few
  obtain ⟨q, cut⟩ : ∃ q, q = m * 2 ^ d / 2 ^ k := ⟨_, rfl⟩
  rw [← cut] at few full near
  have lowest : -1074 ≤ t := by omega
  have scale := at_finer m (f := e - d) (d := d) (e := e) (by omega)
  have scale' (n : Nat) := at_finer n (f := e - d) (d := k) (e := t) (by omega)
  have above := scale' (q + 1)
  rw [Nat.cast_add_one] at above
  refine ⟨q, t, m', e', positive', rounded, near, fun _ => ⟨few, lowest, full⟩, ?_, ?_⟩
  · rw [scale, scale', mul_le_mul_iff_left₀ (zpow_pos two_pos _), Nat.cast_le, cut]
    exact Nat.div_mul_le_self _ _
  · rw [scale, above, mul_lt_mul_iff_left₀ (zpow_pos two_pos _), Nat.cast_lt, ← Nat.div_lt_iff_lt_mul
      (Nat.two_pow_pos k), ← cut]
    exact Nat.lt_succ_self q

/-- Rounding does not go below a double that was not above. -/
theorem round_heavier {m m₀ : Nat} {e e₀ : Int} (s : Sign) {negative : Bool} (some_bits : 0 < m) (low : -1074 ≤ e)
    (normal : Binary.Normal ⟨negative, m₀, e₀⟩) (within : (m₀ : ℚ) * 2 ^ e₀ ≤ m * 2 ^ e) :
    ∃ m' e', ∃ positive : 0 < m', UnpackedFloat.round .binary64 s m e = .finite s m' e' positive ∧
      Binary.Normal ⟨negative, m', e'⟩ ∧ Lighter m₀ e₀ m' e' := by
  obtain ⟨q, t, m', e', positive, rounded, near, place, _, below⟩ := round_between s some_bits low
  refine ⟨m', e', positive, rounded, near.normal (place negative), ?_⟩
  have lighter : Lighter m₀ e₀ q t := by
    have bound := within.trans_lt below
    rcases lt_trichotomy e₀ t with lower | rfl | above
    · exact .inl lower
    · rw [mul_lt_mul_iff_left₀ (zpow_pos two_pos _)] at bound
      exact .inr ⟨rfl, Nat.lt_succ_iff.mp (by exact_mod_cast bound)⟩
    · have full : (2 ^ 52 : ℚ) ≤ m₀ := by
        have lowest := (place negative).exponent_ge
        exact_mod_cast normal.full.resolve_left (by dsimp only at lowest ⊢; omega)
      have few : (q : ℚ) + 1 ≤ 2 ^ 53 := by exact_mod_cast (place negative).mantissa_lt
      have large : ((q : ℚ) + 1) * 2 ^ t ≤ m₀ * 2 ^ e₀ := by
        calc ((q : ℚ) + 1) * 2 ^ t ≤ 2 ^ 53 * 2 ^ t := mul_le_mul_of_nonneg_right few (zpow_pos two_pos t).le
          _ = 2 ^ 52 * 2 ^ (t + 1) := by
            rw [zpow_add_one₀ two_ne_zero]
            ring
          _ ≤ m₀ * 2 ^ e₀ :=
            mul_le_mul full (zpow_le_zpow_right₀ one_le_two above) (zpow_pos two_pos _).le (by positivity)
      exact absurd bound large.not_gt
  cases near with
  | here => exact lighter
  | next => exact lighter.imp_right fun both => ⟨both.1, Nat.le_succ_of_le both.2⟩
  | carry => exact .inl (by rcases lighter with below | ⟨same, _⟩ <;> omega)

/-- Nor does it go above a double that was above. -/
theorem round_lighter {m m₀ : Nat} {e e₀ : Int} (s : Sign) {negative : Bool} (some_bits : 0 < m) (low : -1074 ≤ e)
    (normal : Binary.Normal ⟨negative, m₀, e₀⟩) (below : (m : ℚ) * 2 ^ e < m₀ * 2 ^ e₀) :
    ∃ m' e', ∃ positive : 0 < m', UnpackedFloat.round .binary64 s m e = .finite s m' e' positive ∧
      Binary.Normal ⟨negative, m', e'⟩ ∧ Lighter m' e' m₀ e₀ := by
  obtain ⟨q, t, m', e', positive, rounded, near, place, within, _⟩ := round_between s some_bits low
  refine ⟨m', e', positive, rounded, near.normal (place negative), ?_⟩
  have lighter : ¬ Lighter m₀ e₀ q t := fun lighter =>
    (within.trans_lt below).not_ge ((lighter_iff normal (place negative)).mp lighter)
  obtain ⟨few, _, full⟩ := normal
  have lowest := (place negative).exponent_ge
  unfold Lighter at *
  dsimp only at few full lowest
  cases near with
  | here => omega
  | next => omega
  | carry => omega

/-- Where a double stands among all: its sign first, then its exponent and its mantissa. -/
def place : UnpackedFloat → ℤ ×ₗ (ℤ ×ₗ ℤ)
  | .notANumber | .infinity .negative => toLex (-2, toLex (0, 0))
  | .finite .negative m e _ => toLex (-1, toLex (-e, -m))
  | .zero _ => toLex (0, toLex (0, 0))
  | .finite .positive m e _ => toLex (1, toLex (e, m))
  | .infinity .positive => toLex (2, toLex (0, 0))

theorem compare_lt_iff (u v : UnpackedFloat) :
    u.compare v = some .lt ↔ u ≠ .notANumber ∧ v ≠ .notANumber ∧ place u < place v := by
  rcases u with (_ | _) | _ | _ | ⟨_ | _, m, e, _⟩ <;> rcases v with (_ | _) | _ | _ | ⟨_ | _, m', e', _⟩ <;>
    simp [UnpackedFloat.compare, place, Prod.Lex.toLex_lt_toLex, Ordering.then_eq_lt, Ordering.then_eq_gt,
      compare_lt_iff_lt, compare_gt_iff_gt]
  case infinity.negative.infinity.positive => rfl

theorem compare_eq_iff (u v : UnpackedFloat) :
    u.compare v = some .eq ↔ u ≠ .notANumber ∧ v ≠ .notANumber ∧ place u = place v := by
  rcases u with (_ | _) | _ | _ | ⟨_ | _, m, e, _⟩ <;> rcases v with (_ | _) | _ | _ | ⟨_ | _, m', e', _⟩ <;>
    simp [UnpackedFloat.compare, place, Ordering.then_eq_eq]
  case infinity.negative.infinity.negative => rfl
  case infinity.positive.infinity.positive => rfl

theorem neg_negative : -Sign.negative = Sign.positive := rfl

theorem neg_positive : -Sign.positive = Sign.negative := rfl

theorem place_neg_lt {u v : UnpackedFloat} (left : u ≠ .notANumber) (right : v ≠ .notANumber) :
    place u.neg < place v.neg ↔ place v < place u := by
  rcases u with (_ | _) | _ | _ | ⟨_ | _, m, e, _⟩ <;> rcases v with (_ | _) | _ | _ | ⟨_ | _, m', e', _⟩ <;>
    simp_all [UnpackedFloat.neg, place, Prod.Lex.toLex_lt_toLex, neg_negative, neg_positive, eq_comm]

theorem place_bottom (u : UnpackedFloat) : place (.infinity .negative) ≤ place u := by
  rcases u with (_ | _) | _ | _ | ⟨_ | _, m, e, _⟩ <;>
    simp [place, Prod.Lex.toLex_le_toLex]

theorem place_finite_le {m m' : Nat} {e e' : Int} (some_bits : 0 < m) (some_bits' : 0 < m')
    (lighter : Lighter m e m' e') :
    place (.finite .negative m' e' some_bits') ≤ place (.finite .negative m e some_bits) := by
  simp only [place, Prod.Lex.toLex_le_toLex]
  right
  rcases lighter with below | ⟨same, fewer⟩
  · exact ⟨trivial, .inl (by omega)⟩
  · exact ⟨trivial, .inr ⟨by omega, by omega⟩⟩

theorem normal_unpack {x : Float} {s : Sign} {m : Nat} {e : Int} {some_bits : 0 < m}
    (shape : x.toModel.unpack = .finite s m e some_bits) : Binary.Normal ⟨isNegative s, m, e⟩ := by
  refine Binary.normal_of_ofFloat? (x := x) ?_
  rw [Binary.ofFloat?_eq, shape]
  rfl

theorem finite_congr {s : Sign} {m m' : Nat} {e e' : Int} {positive : 0 < m} {positive' : 0 < m'}
    (mantissas : m = m') (exponents : e = e') : UnpackedFloat.finite s m e positive = .finite s m' e' positive' := by
  subst mantissas exponents
  rfl

/-- The words of a large number. -/
theorem unpack_large (s : Sign) {m biased : Nat} {e : Int} (some_bits : 0 < m) (leading : 2 ^ 52 ≤ m)
    (few : m < 2 ^ 53) (above : 1 ≤ biased) (below : biased < 2047) (field : e = biased - 1075) :
    unpack .binary64 (packComponents .binary64 s (BitVec.ofNat 11 biased) (BitVec.ofNat 52 m)) =
      .finite s m e some_bits := by
  have exponent : (BitVec.ofNat 11 biased).toNat = biased := by
    rw [BitVec.toNat_ofNat]
    omega
  have not_ones : BitVec.ofNat 11 biased ≠ -1#11 := by
    intro ones
    rw [ones] at exponent
    change 2047 = biased at exponent
    omega
  have not_zeros : BitVec.ofNat 11 biased ≠ 0#11 := by
    intro zeros
    rw [zeros] at exponent
    change 0 = biased at exponent
    omega
  unfold UnpackedFloat.unpack
  simp only [unpackMantissa_packComponents, unpackExponent_packComponents, unpackSign_packComponents]
  rw [if_neg not_ones, if_neg not_zeros]
  apply finite_congr
  · rw [Decimal.leading_toNat, BitVec.toNat_ofNat]
    omega
  · change ((BitVec.ofNat 11 biased).toNat : Int) - 1075 = e
    rw [exponent, field]

/-- The words of a small number. -/
theorem unpack_small (s : Sign) {m : Nat} (some_bits : 0 < m) (few : m < 2 ^ 52) :
    unpack .binary64 (packComponents .binary64 s 0#11 (BitVec.ofNat 52 m)) = .finite s m (-1074) some_bits := by
  have mantissa : (BitVec.ofNat 52 m).toNat = m := by
    rw [BitVec.toNat_ofNat]
    omega
  have not_zeros : BitVec.ofNat 52 m ≠ 0#52 := by
    intro zeros
    rw [zeros] at mantissa
    change 0 = m at mantissa
    omega
  unfold UnpackedFloat.unpack
  simp only [unpackMantissa_packComponents, unpackExponent_packComponents, unpackSign_packComponents]
  rw [if_neg (by decide), if_pos trivial, dif_neg not_zeros]
  exact finite_congr mantissa rfl

/-- A double is stored as it is, unless its exponent is too large: then it becomes an infinity. -/
theorem stored_finite {s : Sign} {m : Nat} {e : Int} (some_bits : 0 < m) {negative : Bool}
    (normal : Binary.Normal ⟨negative, m, e⟩) :
    stored (.finite s m e some_bits) = if 972 ≤ e then .infinity s else .finite s m e some_bits := by
  obtain ⟨few, low, full⟩ := normal
  dsimp only at few low full
  obtain ⟨biased, same⟩ : ∃ biased : Nat, biased = (e + 1075).toNat := ⟨_, rfl⟩
  have field : (e + (Format.binary64.exponentBias : Int) + (52 : Nat)).toNat = biased := by
    change (e + 1023 + 52).toNat = biased
    omega
  unfold stored UnpackedFloat.pack
  dsimp only
  rw [field]
  by_cases large : 972 ≤ e
  · rw [if_pos large, if_pos (show 2 ^ 11 ≤ biased + 1 by omega)]
    exact stored_infinity s
  rw [if_neg large, if_neg (show ¬ 2 ^ 11 ≤ biased + 1 by omega)]
  by_cases leading : 2 ^ 52 ≤ m
  · have bits : m.log2 = 52 := (Nat.log2_eq_iff some_bits.ne').mpr ⟨leading, few⟩
    rw [if_pos (show m.log2 + 1 = Format.mantissaBits .binary64 by rw [bits]; rfl)]
    exact unpack_large s some_bits leading few (by omega) (by omega) (by omega)
  · have bits : m.log2 < 52 := (Nat.log2_lt some_bits.ne').mpr (by omega)
    obtain rfl : e = -1074 := full.resolve_right leading
    rw [if_neg (show ¬ m.log2 + 1 = Format.mantissaBits .binary64 from fun full => by
      change m.log2 + 1 = 53 at full
      omega)]
    exact unpack_small s some_bits (by omega)

theorem exponent_lt {x : Float} {s : Sign} {m : Nat} {e : Int} {some_bits : 0 < m}
    (shape : x.toModel.unpack = .finite s m e some_bits) : e < 972 := by
  have taken : Binary.ofFloat? x = some ⟨isNegative s, m, e⟩ := by
    rw [Binary.ofFloat?_eq, shape]
    rfl
  have field : x.toBits.toNat / Decimal.pow2 52 % Decimal.pow2 11 < 2048 := Nat.mod_lt _ (by decide)
  unfold Binary.ofFloat? Binary.ofBits? at taken
  dsimp only at taken
  split at taken
  next => cases taken
  next special =>
    have below : x.toBits.toNat / Decimal.pow2 52 % Decimal.pow2 11 ≠ 2047 := by simpa using special
    split at taken
    next =>
      obtain ⟨_, _, exponents⟩ := Binary.mk.inj (Option.some.inj taken)
      omega
    next =>
      obtain ⟨_, _, exponents⟩ := Binary.mk.inj (Option.some.inj taken)
      omega

/-- What is stored does not change when it is stored again. -/
theorem stored_unpack (x : Float) : stored x.toModel.unpack = x.toModel.unpack := by
  cases shape : x.toModel.unpack with
  | notANumber => exact stored_nan
  | infinity s => exact stored_infinity s
  | zero s => exact stored_zero s
  | finite s m e some_bits => rw [stored_finite some_bits (normal_unpack shape), if_neg (exponent_lt shape).not_ge]

theorem place_low {u : UnpackedFloat} (low : Low u) (s : Sign) : place u ≤ place (.zero s) := by
  rcases u with (_ | _) | _ | _ | ⟨_ | _, m, e, _⟩ <;> simp_all [Low, place, Prod.Lex.toLex_le_toLex]

/-- The exact sum of two numbers below zero, at the exponent of the finer one. -/
theorem add_negative {m m' : Nat} {e e' : Int} (some_bits : 0 < m) (some_bits' : 0 < m') :
    UnpackedFloat.add .binary64 (.finite .negative m e some_bits) (.finite .negative m' e' some_bits') =
      UnpackedFloat.round .binary64 .negative
        (m * 2 ^ (e - min e e').toNat + m' * 2 ^ (e' - min e e').toNat) (min e e') := by
  have positive : 0 < m * 2 ^ (e - min e e').toNat := Nat.mul_pos some_bits (Nat.two_pow_pos _)
  unfold UnpackedFloat.add UnpackedFloat.normalize decreaseExponent
  dsimp only [Sign.apply]
  rw [Nat.shiftLeft_eq, Nat.shiftLeft_eq]
  split
  next => congr 1; omega
  next same =>
    rw [compare_eq_iff_eq] at same
    omega
  next above =>
    rw [compare_gt_iff_gt] at above
    omega

/-- A rounded sum of two numbers below zero is not above the first of them. -/
theorem place_add_negative_le {x y : Float} {m m' : Nat} {e e' : Int} {some_bits : 0 < m} {some_bits' : 0 < m'}
    (shape : x.toModel.unpack = .finite .negative m e some_bits)
    (shape' : y.toModel.unpack = .finite .negative m' e' some_bits') :
    place (stored (UnpackedFloat.add .binary64 (.finite .negative m e some_bits) (.finite .negative m' e' some_bits'))) ≤
      place (.finite .negative m e some_bits) := by
  have positive : 0 < m * 2 ^ (e - min e e').toNat := Nat.mul_pos some_bits (Nat.two_pow_pos _)
  have lowest := (normal_unpack shape).exponent_ge
  have lowest' := (normal_unpack shape').exponent_ge
  have within : (m : ℚ) * 2 ^ e ≤
      (m * 2 ^ (e - min e e').toNat + m' * 2 ^ (e' - min e e').toNat : Nat) * 2 ^ min e e' := by
    rw [at_finer m (f := min e e') (d := (e - min e e').toNat) (by omega), mul_le_mul_iff_left₀
      (zpow_pos two_pos _), Nat.cast_le]
    exact Nat.le_add_right _ _
  obtain ⟨m₁, e₁, some_bits₁, rounded, normal, lighter⟩ := round_heavier .negative
    (m := m * 2 ^ (e - min e e').toNat + m' * 2 ^ (e' - min e e').toNat) (Nat.add_pos_left positive _)
    (le_min lowest lowest') (normal_unpack shape) within
  rw [add_negative, rounded, stored_finite some_bits₁ normal]
  split
  · exact place_bottom _
  · exact place_finite_le some_bits some_bits₁ lighter

/-- A rounded sum of numbers that are not above zero is not above either of them. -/
theorem place_add_le {x y : Float} (left : Low x.toModel.unpack) (right : Low y.toModel.unpack) :
    place (stored (UnpackedFloat.add .binary64 x.toModel.unpack y.toModel.unpack)) ≤ place x.toModel.unpack := by
  cases shape : x.toModel.unpack with
  | notANumber =>
    rw [shape] at left
    cases left
  | infinity s =>
    rw [shape] at left
    cases s with
    | positive => cases left
    | negative =>
      have lost : Lost (UnpackedFloat.add .binary64 (.infinity .negative) y.toModel.unpack) :=
        lost_add_left (.inl rfl)
      rw [stored_lost lost]
      rcases lost with bottom | undefined
      · rw [bottom]
      · rw [undefined]
        exact le_refl _
  | zero s =>
    apply place_low
    rw [shape] at left
    exact low_stored (low_add left right)
  | finite s m e some_bits =>
    rw [shape] at left
    cases s with
    | positive => cases left
    | negative =>
      cases shape' : y.toModel.unpack with
      | notANumber =>
        rw [shape'] at right
        cases right
      | infinity s =>
        rw [shape'] at right
        cases s with
        | positive => cases right
        | negative =>
          change place (stored (.infinity .negative)) ≤ _
          rw [stored_infinity]
          exact place_bottom _
      | zero s =>
        change place (stored (.finite .negative m e some_bits)) ≤ _
        rw [← shape, stored_unpack]
      | finite s m' e' some_bits' =>
        rw [shape'] at right
        cases s with
        | positive => cases right
        | negative =>
          exact place_add_negative_le shape shape'

theorem neg_unpack (x : Float) : (-x).toModel.unpack = x.toModel.unpack.neg := by
  change stored x.toModel.unpack.neg = _
  cases shape : x.toModel.unpack with
  | notANumber => exact stored_nan
  | infinity s => exact stored_infinity (-s)
  | zero s => exact stored_zero (-s)
  | finite s m e some_bits =>
    exact (stored_finite some_bits (normal_unpack shape)).trans (if_neg (exponent_lt shape).not_ge)

theorem isNaN_false_iff {x : Float} : Score.isNaN x = false ↔ x.toModel.unpack ≠ .notANumber := by
  rw [← Bool.not_eq_true, isNaN_iff]

/-- Taking nothing away changes nothing but the sign of a zero. -/
theorem sub_zero_unpack (x : Float) :
    (x - Score.zero).toModel.unpack = x.toModel.unpack ∨
      ∃ s s', x.toModel.unpack = .zero s ∧ (x - Score.zero).toModel.unpack = .zero s' := by
  rw [sub_unpack, zero_unpack]
  have kept := stored_unpack x
  cases shape : x.toModel.unpack with
  | zero s =>
    refine .inr ⟨s, ?_⟩
    cases s
    · exact ⟨.negative, rfl, stored_zero _⟩
    · exact ⟨.positive, rfl, stored_zero _⟩
  | notANumber | infinity s | finite s m e some_bits =>
    rw [shape] at kept
    exact .inl kept

instance : OrderedScore Float where
  Rank := ℤ ×ₗ (ℤ ×ₗ ℤ)
  order := inferInstance
  rank x := place x.toModel.unpack
  less_iff {x y} := by
    rw [less_unpack, UnpackedFloat.lt, beq_iff_eq, compare_lt_iff, isNaN_false_iff, isNaN_false_iff]
  same_iff {x y} := by
    change (x.toModel.unpack.compare y.toModel.unpack == some .eq) = true ↔ _
    rw [beq_iff_eq, compare_eq_iff, isNaN_false_iff, isNaN_false_iff]
  isNaN_neg {x} := by
    rw [Bool.eq_iff_iff, isNaN_iff, isNaN_iff, neg_unpack]
    cases x.toModel.unpack <;> simp [UnpackedFloat.neg]
  rank_neg_lt {x y} left right := by
    rw [neg_unpack, neg_unpack]
    exact place_neg_lt (isNaN_false_iff.mp left) (isNaN_false_iff.mp right)
  rank_impossible_le {x y} impossible _ := by
    rw [isImpossible_iff.mp impossible]
    exact place_bottom _
  rank_add_le {x y} left right := by
    rw [add_unpack]
    exact place_add_le (sunk_iff.mp left) (sunk_iff.mp right)
  sub_zero {x} sunk := by
    rw [isNaN_false_iff]
    rcases sub_zero_unpack x with same | ⟨s, s', zero, zero'⟩
    · rw [same]
      exact ⟨isNaN_false_iff.mp sunk.2, rfl⟩
    · rw [zero, zero']
      exact ⟨nofun, rfl⟩

end ProbCore.Doubles
