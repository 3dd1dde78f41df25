import ProbCore.Value.Equality
import Mathlib

/-! Numbers compare equal exactly when they are the same real number, or the same infinity,
whichever of their forms they come in. A float has one mantissa and one exponent in the format
of doubles, so floats are the same number only when these are the same. -/

namespace ProbCore.Decimal

open Float.Model Float.Model.UnpackedFloat

/-- A real number that is a binary fraction, or an infinity. -/
inductive Quantity where
  | finite (q : ℚ)
  | infinite (negative : Bool)

def isNegative : Sign → Bool
  | .negative => true
  | .positive => false

/-- The finite doubles by sign, mantissa and exponent. -/
def Binary.ofUnpacked? : UnpackedFloat → Option Binary
  | .zero s => some ⟨isNegative s, 0, -1074⟩
  | .finite s m e _ => some ⟨isNegative s, m, e⟩
  | _ => none

theorem mantissa_toNat (b : BitVec 64) :
    (@unpackMantissa .binary64 b).toNat = b.toNat % 2 ^ 52 := by
  simp [unpackMantissa]

theorem exponent_toNat (b : BitVec 64) :
    (@unpackExponent .binary64 b).toNat = b.toNat / 2 ^ 52 % 2 ^ 11 := by
  simp [unpackExponent, BitVec.extractLsb_toNat, Nat.shiftRight_eq_div_pow]

theorem sign_toNat (b : BitVec 64) :
    isNegative (Sign.ofBitVec (@unpackSign .binary64 b)) =
      (b.toNat / 2 ^ 63 == 1) := by
  have small := b.isLt
  have bit : (@unpackSign .binary64 b).toNat = b.toNat / 2 ^ 63 := by
    simp [unpackSign, BitVec.extractLsb_toNat, Nat.shiftRight_eq_div_pow]
    omega
  by_cases positive : @unpackSign .binary64 b = 0#1
  · rw [positive] at bit
    rw [← bit, positive]
    rfl
  · have nonzero : b.toNat / 2 ^ 63 ≠ 0 := by
      rw [← bit]
      exact fun zero => positive (BitVec.eq_of_toNat_eq zero)
    have one : b.toNat / 2 ^ 63 = 1 := by omega
    rw [one, Sign.ofBitVec, if_neg positive]
    rfl

theorem leading_toNat (mantissa : BitVec 52) :
    (1#1 ++ mantissa).toNat = 2 ^ 52 + mantissa.toNat := by
  rw [BitVec.toNat_append]
  exact (Nat.shiftLeft_add_eq_or_of_lt mantissa.isLt 1).symm

/-- Taking a word apart gives the fields of the format of doubles. -/
theorem Binary.ofBits?_eq (b : BitVec 64) :
    Binary.ofBits? b.toNat = Binary.ofUnpacked? (UnpackedFloat.unpack .binary64 b) := by
  have mantissa : b.toNat % pow2 52 = (@unpackMantissa .binary64 b).toNat := (mantissa_toNat b).symm
  have exponent : b.toNat / pow2 52 % pow2 11 = (@unpackExponent .binary64 b).toNat :=
    (exponent_toNat b).symm
  have negative : (b.toNat / pow2 63 == 1) = isNegative (Sign.ofBitVec (@unpackSign .binary64 b)) :=
    (sign_toNat b).symm
  have ones : ((@unpackExponent .binary64 b).toNat == 2047) =
      decide (@unpackExponent .binary64 b = 2047#11) := by
    rw [Bool.eq_iff_iff]
    simp [← BitVec.toNat_inj]
  have zeros : ((@unpackExponent .binary64 b).toNat == 0) =
      decide (@unpackExponent .binary64 b = 0#_) := by
    rw [Bool.eq_iff_iff]
    simp [← BitVec.toNat_inj]
  rw [Binary.ofBits?, mantissa, exponent, negative, ones, zeros]
  unfold UnpackedFloat.unpack
  by_cases special : @unpackExponent .binary64 b = 2047#11
  · by_cases whole : @unpackMantissa .binary64 b = 0#_ <;>
      simp [special, whole, Binary.ofUnpacked?]
  by_cases small : @unpackExponent .binary64 b = 0#_
  · by_cases whole : @unpackMantissa .binary64 b = 0#_ <;>
      simp [small, whole, Binary.ofUnpacked?, Format.exponentBias]
  · have leading := leading_toNat (@unpackMantissa .binary64 b)
    simp [special, small, Binary.ofUnpacked?, Format.exponentBias, leading, pow2, Nat.add_comm]

theorem Binary.ofFloat?_eq (x : Float) :
    Binary.ofFloat? x = Binary.ofUnpacked? x.toModel.unpack :=
  Binary.ofBits?_eq x.toModel.toBits.toBitVec

noncomputable section

/-- The fraction as a rational number. -/
def Binary.value (b : Binary) : ℚ := (if b.negative then -1 else 1) * (b.mantissa * 2 ^ b.exponent)

/-- What a float stands for, if it is a number. -/
def ofUnpacked? : UnpackedFloat → Option Quantity
  | .notANumber => none
  | .infinity s => some (.infinite (isNegative s))
  | .zero _ => some (.finite 0)
  | .finite s m e _ => some (.finite (Binary.value ⟨isNegative s, m, e⟩))

def quantity? (x : Float) : Option Quantity := ofUnpacked? x.toModel.unpack

end

theorem Binary.ratio_pos (b : Binary) : 0 < b.ratio.2 := by
  unfold Binary.ratio
  split
  · exact Nat.one_pos
  · exact Nat.two_pow_pos _

/-- The numerator with its sign. -/
def Binary.signed (b : Binary) : Int := if b.negative then -(b.ratio.1 : Int) else b.ratio.1

theorem Binary.ratio_eq (b : Binary) : (b.ratio.1 : ℚ) / b.ratio.2 = b.mantissa * 2 ^ b.exponent := by
  unfold Binary.ratio
  split
  next whole =>
    obtain ⟨n, same⟩ := Int.eq_ofNat_of_zero_le whole
    rw [same]
    simp [pow2]
  next fraction =>
    obtain ⟨n, same⟩ := Int.eq_ofNat_of_zero_le (show 0 ≤ -b.exponent by omega)
    have negated : b.exponent = -(n : Int) := by omega
    rw [same, negated, zpow_neg]
    simp [pow2, div_eq_mul_inv]

theorem Binary.value_eq (b : Binary) : b.value = (b.signed : ℚ) / b.ratio.2 := by
  rw [Binary.value, ← Binary.ratio_eq, Binary.signed]
  split <;> simp [neg_div]

theorem ofUnpacked?_finite {u : UnpackedFloat} {b : Binary}
    (taken : Binary.ofUnpacked? u = some b) : ofUnpacked? u = some (.finite b.value) := by
  cases u with
  | zero s =>
    cases taken
    simp [ofUnpacked?, Binary.value]
  | finite s m e nonzero =>
    cases taken
    rfl
  | notANumber | infinity => cases taken

theorem quantity?_finite {x : Float} {b : Binary} (taken : Binary.ofFloat? x = some b) :
    quantity? x = some (.finite b.value) :=
  ofUnpacked?_finite ((Binary.ofFloat?_eq x).symm.trans taken)

/-- An integer equals a float exactly when the float stands for it. -/
theorem compareInt?_eq_eq (n : Int) (x : Float) :
    compareInt? n x = some .eq ↔ quantity? x = some (.finite n) := by
  unfold compareInt? quantity?
  rw [Binary.ofFloat?_eq]
  cases taken : Binary.ofUnpacked? x.toModel.unpack with
  | some b =>
    have positive : (b.ratio.2 : ℚ) ≠ 0 := Nat.cast_ne_zero.mpr b.ratio_pos.ne'
    change some (compare (n * (b.ratio.2 : Int)) b.signed) = some .eq ↔ _
    simp only [ofUnpacked?_finite taken, Option.some.injEq, Quantity.finite.injEq]
    rw [Std.compare_eq_iff_eq, Binary.value_eq, div_eq_iff positive, eq_comm,
      ← @Int.cast_inj ℚ, Int.cast_mul, Int.cast_natCast]
  | none =>
    have unequal : ¬ (if x.isNaN then none else if x > 0 then some Ordering.lt
        else some Ordering.gt) = some .eq := by
      split
      · exact nofun
      · split <;> exact nofun
    simp only [unequal, false_iff]
    cases shape : x.toModel.unpack with
    | zero | finite =>
      rw [shape] at taken
      cases taken
    | notANumber | infinity => exact nofun

/-- The mantissas and exponents of doubles. -/
structure Binary.Normal (b : Binary) : Prop where
  mantissa_lt : b.mantissa < 2 ^ 53
  exponent_ge : -1074 ≤ b.exponent
  full : b.exponent = -1074 ∨ 2 ^ 52 ≤ b.mantissa

theorem Binary.normal_of_ofBits? {bits : Nat} {b : Binary} (taken : Binary.ofBits? bits = some b) :
    b.Normal := by
  have fraction : bits % 2 ^ 52 < 2 ^ 52 := Nat.mod_lt _ (Nat.two_pow_pos 52)
  unfold Binary.ofBits? at taken
  dsimp only at taken
  split at taken
  next => cases taken
  next =>
    split at taken
    next small =>
      cases taken
      exact ⟨Nat.lt_trans fraction (by decide), le_refl _, .inl rfl⟩
    next large =>
      cases taken
      have biased : bits / pow2 52 % pow2 11 ≠ 0 := by simpa using large
      refine ⟨Nat.add_lt_add_right fraction (2 ^ 52), ?_, .inr (Nat.le_add_left _ _)⟩
      change -1074 ≤ ((bits / pow2 52 % pow2 11 : Nat) : Int) - 1075
      omega

theorem Binary.normal_of_ofFloat? {x : Float} {b : Binary} (taken : Binary.ofFloat? x = some b) :
    b.Normal :=
  normal_of_ofBits? taken

theorem Binary.magnitude_lt {a b : Binary} (normal : a.Normal) (normal' : b.Normal)
    (below : a.exponent < b.exponent) :
    (a.mantissa : ℚ) * 2 ^ a.exponent < b.mantissa * 2 ^ b.exponent := by
  have full : 2 ^ 52 ≤ b.mantissa := normal'.full.resolve_left (by
    have := normal.exponent_ge
    omega)
  calc (a.mantissa : ℚ) * 2 ^ a.exponent < 2 ^ 53 * 2 ^ a.exponent := by
        have bound : (a.mantissa : ℚ) < 2 ^ 53 := by exact_mod_cast normal.mantissa_lt
        exact mul_lt_mul_of_pos_right bound (by positivity)
    _ = 2 ^ 52 * 2 ^ (a.exponent + 1) := by
        rw [zpow_add₀ two_ne_zero, zpow_one]
        ring
    _ ≤ b.mantissa * 2 ^ b.exponent := by
        have bound : (2 ^ 52 : ℚ) ≤ b.mantissa := by exact_mod_cast full
        have scale : (2 : ℚ) ^ (a.exponent + 1) ≤ 2 ^ b.exponent :=
          zpow_le_zpow_right₀ one_le_two below
        exact mul_le_mul bound scale (by positivity) (by positivity)

/-- Doubles of the same magnitude have the same mantissa and the same exponent. -/
theorem Binary.magnitude_inj {a b : Binary} (normal : a.Normal) (normal' : b.Normal)
    (same : (a.mantissa : ℚ) * 2 ^ a.exponent = b.mantissa * 2 ^ b.exponent) :
    a.mantissa = b.mantissa ∧ a.exponent = b.exponent := by
  have exponents : a.exponent = b.exponent := by
    rcases lt_trichotomy a.exponent b.exponent with below | equal | above
    · exact absurd same (Binary.magnitude_lt normal normal' below).ne
    · exact equal
    · exact absurd same (Binary.magnitude_lt normal' normal above).ne'
  refine ⟨?_, exponents⟩
  rw [exponents] at same
  exact_mod_cast mul_right_cancel₀ (zpow_ne_zero _ two_ne_zero) same

theorem Binary.value_inj {a b : Binary} (normal : a.Normal) (normal' : b.Normal)
    (nonzero : 0 < a.mantissa) (nonzero' : 0 < b.mantissa) (same : a.value = b.value) :
    a = b := by
  have positive : 0 < (a.mantissa : ℚ) * 2 ^ a.exponent := by positivity
  have positive' : 0 < (b.mantissa : ℚ) * 2 ^ b.exponent := by positivity
  obtain ⟨sign, m, e⟩ := a
  obtain ⟨sign', m', e'⟩ := b
  simp only [Binary.value] at same positive positive'
  have signs : sign = sign' := by
    cases sign <;> cases sign' <;> simp only [Bool.false_eq_true, if_false, if_true] at same <;>
      first | rfl | linarith
  subst signs
  have magnitudes : (m : ℚ) * 2 ^ e = m' * 2 ^ e' := by
    cases sign <;> simp only [Bool.false_eq_true, if_false, if_true] at same <;> linarith
  obtain ⟨rfl, rfl⟩ := Binary.magnitude_inj normal normal' magnitudes
  rfl

private theorem value_ne_zero {b : Binary} (nonzero : 0 < b.mantissa) : b.value ≠ 0 := by
  have positive : 0 < (b.mantissa : ℚ) * 2 ^ b.exponent := by positivity
  unfold Binary.value
  split
  · linarith
  · linarith

theorem isNegative_inj {s t : Sign} : isNegative s = isNegative t ↔ s = t := by
  cases s <;> cases t <;> simp [isNegative]

private theorem compare_finite {s t : Sign} {m n : Nat} {e f : Int} (left : 0 < m) (right : 0 < n) :
    UnpackedFloat.compare (.finite s m e left) (.finite t n f right) = some .eq ↔
      s = t ∧ m = n ∧ e = f := by
  cases s <;> cases t <;>
    simp [UnpackedFloat.compare, Ordering.then_eq_eq, and_comm]

private theorem compare_iff {u v : UnpackedFloat}
    (normal : ∀ b, Binary.ofUnpacked? u = some b → b.Normal)
    (normal' : ∀ b, Binary.ofUnpacked? v = some b → b.Normal) :
    u.compare v = some .eq ↔ ∃ q, ofUnpacked? u = some q ∧ ofUnpacked? v = some q := by
  cases u with
  | notANumber => simp [UnpackedFloat.compare, ofUnpacked?]
  | infinity s =>
    cases v with
    | infinity t => cases s <;> cases t <;> simp [UnpackedFloat.compare, ofUnpacked?, isNegative] <;> rfl
    | notANumber | zero | finite => cases s <;> simp [UnpackedFloat.compare, ofUnpacked?]
  | zero s =>
    cases v with
    | infinity t => cases t <;> simp [UnpackedFloat.compare, ofUnpacked?]
    | finite t n f nonzero =>
      have apart := value_ne_zero (b := ⟨isNegative t, n, f⟩) nonzero
      cases t <;> simpa [UnpackedFloat.compare, ofUnpacked?] using apart
    | notANumber | zero => simp [UnpackedFloat.compare, ofUnpacked?]
  | finite s m e nonzero =>
    have apart := value_ne_zero (b := ⟨isNegative s, m, e⟩) nonzero
    cases v with
    | infinity t => cases t <;> simp [UnpackedFloat.compare, ofUnpacked?]
    | zero t => cases s <;> simpa [UnpackedFloat.compare, ofUnpacked?] using apart.symm
    | notANumber => simp [UnpackedFloat.compare, ofUnpacked?]
    | finite t n f nonzero' =>
      rw [compare_finite]
      constructor
      · rintro ⟨rfl, rfl, rfl⟩
        exact ⟨_, rfl, rfl⟩
      · rintro ⟨q, left, right⟩
        have values := Quantity.finite.inj (Option.some.inj (left.trans right.symm))
        have same := Binary.value_inj (normal _ rfl) (normal' _ rfl) nonzero nonzero' values
        obtain ⟨signs, rfl, rfl⟩ := Binary.mk.inj same
        exact ⟨isNegative_inj.mp signs, rfl, rfl⟩

/-- Floats are equal when they stand for the same number. -/
theorem float_beq_iff (x y : Float) :
    (x == y) = true ↔ ∃ q, quantity? x = some q ∧ quantity? y = some q := by
  have normal (z : Float) (b : Binary) (taken : Binary.ofUnpacked? z.toModel.unpack = some b) :
      b.Normal := Binary.normal_of_ofFloat? ((Binary.ofFloat?_eq z).trans taken)
  change (x.toModel.unpack.compare y.toModel.unpack == some .eq) = true ↔ _
  rw [beq_iff_eq]
  exact compare_iff (normal x) (normal y)

private theorem sign_word {bits : Nat} (word : bits < 2 ^ 64) :
    (if (bits / 2 ^ 63 == 1) = true then 2 ^ 63 else 0) = bits / 2 ^ 63 * 2 ^ 63 := by
  rcases (show bits / 2 ^ 63 = 0 ∨ bits / 2 ^ 63 = 1 by omega) with zero | one
  · rw [zero]
    rfl
  · rw [one]
    rfl

/-- The parts of a double give back its word. -/
theorem Binary.bits_ofBits? {bits : Nat} {b : Binary} (word : bits < 2 ^ 64) (taken : Binary.ofBits? bits = some b) :
    b.bits = bits := by
  have two (n : Nat) : pow2 n = 2 ^ n := rfl
  unfold Binary.ofBits? at taken
  simp only [two, beq_iff_eq] at taken
  split at taken
  next => cases taken
  next =>
    split at taken
    next least =>
      cases taken
      simp only [Binary.bits, two, sign_word word]
      omega
    next large =>
      cases taken
      simp only [Binary.bits, two, sign_word word]
      omega

theorem infinity_fields {b : BitVec 64} {s : Sign} (shape : UnpackedFloat.unpack .binary64 b = .infinity s) :
    @unpackExponent .binary64 b = 2047#11 ∧ @unpackMantissa .binary64 b = 0#52 ∧
      Sign.ofBitVec (@unpackSign .binary64 b) = s := by
  unfold UnpackedFloat.unpack at shape
  dsimp only at shape
  split at shape
  next special =>
    split at shape
    next whole => exact ⟨special, whole, UnpackedFloat.infinity.inj shape⟩
    next => cases shape
  next =>
    split at shape
    next => split at shape <;> cases shape
    next => cases shape

/-- The word of an infinity. -/
theorem infinity_bits {x : Float} {s : Sign} (shape : x.toModel.unpack = .infinity s) :
    x.toBits.toNat = (if isNegative s then 2 ^ 63 else 0) + 2047 * 2 ^ 52 := by
  obtain ⟨special, whole, sign⟩ := infinity_fields shape
  have exponent : (2047#11).toNat = x.toBits.toNat / 2 ^ 52 % 2 ^ 11 :=
    (congrArg BitVec.toNat special).symm.trans (exponent_toNat x.toBits.toBitVec)
  have mantissa : (0#52).toNat = x.toBits.toNat % 2 ^ 52 :=
    (congrArg BitVec.toNat whole).symm.trans (mantissa_toNat x.toBits.toBitVec)
  have negative : isNegative s = (x.toBits.toNat / 2 ^ 63 == 1) :=
    (congrArg isNegative sign).symm.trans (sign_toNat x.toBits.toBitVec)
  have word := x.toBits.toNat_lt
  rw [negative, sign_word word]
  change 2047 = _ at exponent
  change 0 = _ at mantissa
  omega

theorem float_ext {x y : Float} (same : x.toBits.toNat = y.toBits.toNat) : x = y := by
  obtain ⟨⟨bits, valid⟩⟩ := x
  obtain ⟨⟨bits', valid'⟩⟩ := y
  obtain rfl : bits = bits' := UInt64.toNat_inj.mp same
  rfl

theorem Binary.ofFloat?_inj {x y : Float} {b : Binary} (taken : Binary.ofFloat? x = some b)
    (taken' : Binary.ofFloat? y = some b) : x = y :=
  float_ext ((Binary.bits_ofBits? x.toBits.toNat_lt taken).symm.trans
    (Binary.bits_ofBits? y.toBits.toNat_lt taken'))

theorem infinity_inj {x y : Float} {s : Sign} (shape : x.toModel.unpack = .infinity s)
    (shape' : y.toModel.unpack = .infinity s) : x = y :=
  float_ext ((infinity_bits shape).trans (infinity_bits shape').symm)

/-- All floats that are no number are the same. -/
theorem nan_inj {x y : Float} (shape : x.toModel.unpack = .notANumber) (shape' : y.toModel.unpack = .notANumber) :
    x = y := by
  have word {z : Float} (shape : z.toModel.unpack = .notANumber) : z.toBits.toBitVec = packedNaN .binary64 := by
    change UnpackedFloat.unpack .binary64 z.toModel.toBits.toBitVec = _ at shape
    unfold UnpackedFloat.unpack at shape
    dsimp only at shape
    split at shape
    next special =>
      split at shape
      next => cases shape
      next other => exact z.toModel.valid.eq_packedNaN special other
    next =>
      split at shape
      next => split at shape <;> cases shape
      next => cases shape
  exact float_ext (congrArg BitVec.toNat ((word shape).trans (word shape').symm))

end ProbCore.Decimal

namespace ProbCore.Value

open Decimal

noncomputable def Number.quantity? : Number → Option Quantity
  | .int n => some (.finite n)
  | .float x => Decimal.quantity? x

/-- Numbers are equal when they stand for the same number, whatever their forms. -/
theorem Number.beq_iff (a b : Number) :
    Number.beq a b = true ↔ ∃ q, a.quantity? = some q ∧ b.quantity? = some q := by
  cases a with
  | int n =>
    cases b with
    | int m => simp [Number.beq, Number.quantity?, @eq_comm _ m n]
    | float y => simp [Number.beq, Number.quantity?, compareInt?_eq_eq]
  | float x =>
    cases b with
    | int m => simp [Number.beq, Number.quantity?, compareInt?_eq_eq]
    | float y => exact float_beq_iff x y

end ProbCore.Value
