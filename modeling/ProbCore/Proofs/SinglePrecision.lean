import ProbCore.Proofs.RoundedSums
import ProbCore.Tensor

/-! Doubles in single precision. The word of a double is taken apart as it was put together. A double
that lies at the middle between the largest number of single precision and the next power of two, or
beyond it, becomes an infinity; any other becomes a number that is no larger than the largest. -/

namespace ProbCore.Decimal

/-- The word of a double stands for this double. -/
theorem Binary.ofBits?_bits {b : Binary} (normal : b.Normal) (small : b.exponent < 972) :
    Binary.ofBits? b.bits = some b ∧ b.bits < 2 ^ 64 := by
  obtain ⟨negative, m, e⟩ := b
  obtain ⟨few, low, full⟩ := normal
  dsimp only at few low full small
  obtain ⟨field, placed⟩ : ∃ field : Nat, field = (e + 1074).toNat := ⟨_, rfl⟩
  obtain ⟨sign, signed⟩ : ∃ sign : Nat, sign = if negative then 1 else 0 := ⟨_, rfl⟩
  obtain ⟨word, put⟩ : ∃ word, word = sign * 2 ^ 63 + field * 2 ^ 52 + m := ⟨_, rfl⟩
  have one : sign ≤ 1 := by
    rw [signed]
    split <;> omega
  have bits : (⟨negative, m, e⟩ : Binary).bits = word := by
    rw [Binary.bits, put, signed, placed]
    cases negative <;> simp [pow2]
  have top : (word / 2 ^ 63 == 1) = negative := by
    rw [show word / 2 ^ 63 = sign by omega, signed]
    cases negative <;> rfl
  rw [bits]
  refine ⟨?_, by omega⟩
  unfold Binary.ofBits?
  change (if word / 2 ^ 52 % 2 ^ 11 == 2047 then none
    else if word / 2 ^ 52 % 2 ^ 11 == 0 then some (⟨word / 2 ^ 63 == 1, word % 2 ^ 52, -1074⟩ : Binary)
    else some ⟨word / 2 ^ 63 == 1, word % 2 ^ 52 + 2 ^ 52, (word / 2 ^ 52 % 2 ^ 11 : Nat) - 1075⟩) = _
  rw [top]
  by_cases leading : 2 ^ 52 ≤ m
  · have exponent : word / 2 ^ 52 % 2 ^ 11 = field + 1 := by omega
    have fraction : word % 2 ^ 52 + 2 ^ 52 = m := by omega
    rw [exponent, fraction, if_neg (by simp; omega), if_neg (by simp)]
    congr 2
    omega
  · obtain rfl : e = -1074 := full.resolve_right leading
    have exponent : word / 2 ^ 52 % 2 ^ 11 = 0 := by omega
    have fraction : word % 2 ^ 52 = m := by omega
    rw [exponent, fraction]
    rfl

theorem roundQuotient_or (n d : Nat) : roundQuotient n d = n / d ∨ roundQuotient n d = n / d + 1 := by
  unfold roundQuotient
  dsimp only
  split
  · exact .inl rfl
  · split
    · exact .inr rfl
    · split
      · exact .inl rfl
      · exact .inr rfl

theorem roundQuotient_down {n d : Nat} (light : 2 * (n % d) < d) : roundQuotient n d = n / d := by
  unfold roundQuotient
  dsimp only
  rw [if_pos light]

theorem roundQuotient_up {n d : Nat} (heavy : d ≤ 2 * (n % d)) (odd : n / d % 2 = 1) :
    roundQuotient n d = n / d + 1 := by
  unfold roundQuotient
  dsimp only
  rw [if_neg heavy.not_gt, odd]
  split <;> rfl

namespace Binary

variable {b : Binary}

/-- At least 29 bits of a mantissa are rounded away, and just these unless the number is very small. -/
theorem keptSingle_eq (normal : b.Normal) (leading : 2 ^ 52 ≤ b.mantissa) :
    ∃ k, 29 ≤ k ∧ (-178 ≤ b.exponent → k = 29) ∧ b.keptSingle = roundQuotient b.mantissa (2 ^ k) * 2 ^ k := by
  have bits : b.mantissa.log2 = 52 :=
    (Nat.log2_eq_iff (by omega)).mpr ⟨leading, normal.mantissa_lt⟩
  refine ⟨(max ((52 : Nat) + b.exponent - 23) (-149) - b.exponent).toNat, by omega, by omega, ?_⟩
  rw [keptSingle, bits]
  rfl

/-- Nothing is kept, or all bits are. -/
theorem keptSingle_cases (normal : b.Normal) :
    b.keptSingle = 0 ∨ 2 ^ 52 ≤ b.mantissa ∧ 2 ^ 52 ≤ b.keptSingle ∧ b.keptSingle ≤ 2 ^ 53 := by
  have few := normal.mantissa_lt
  have nothing {k : Nat} (wide : 54 ≤ k) : roundQuotient b.mantissa (2 ^ k) * 2 ^ k = 0 := by
    have unit : 2 ^ 54 ≤ 2 ^ k := Nat.pow_le_pow_right (by decide) wide
    rw [roundQuotient_down (by rw [Nat.mod_eq_of_lt (by omega)]; omega), Nat.div_eq_of_lt (by omega), Nat.zero_mul]
  by_cases leading : 2 ^ 52 ≤ b.mantissa
  · obtain ⟨k, least, _, kept⟩ := keptSingle_eq normal leading
    rw [kept]
    rcases Nat.lt_or_ge k 54 with narrow | wide
    · have whole : 2 ^ (53 - k) * 2 ^ k = 2 ^ 53 := by
        rw [← Nat.pow_add, Nat.sub_add_cancel (by omega)]
      have floor : b.mantissa / 2 ^ k < 2 ^ (53 - k) := by
        rw [Nat.div_lt_iff_lt_mul (Nat.two_pow_pos k), whole]
        exact few
      have most : roundQuotient b.mantissa (2 ^ k) ≤ 2 ^ (53 - k) := by
        rcases roundQuotient_or b.mantissa (2 ^ k) with down | up <;> omega
      rcases Nat.eq_zero_or_pos (roundQuotient b.mantissa (2 ^ k)) with none_kept | some_kept
      · exact .inl (by rw [none_kept, Nat.zero_mul])
      refine .inr ⟨leading, ?_, (Nat.mul_le_mul_right _ most).trans whole.le⟩
      rcases Nat.lt_or_ge k 53 with inside | single
      · have half : 2 ^ (52 - k) * 2 ^ k = 2 ^ 52 := by
          rw [← Nat.pow_add, Nat.sub_add_cancel (by omega)]
        have least : 2 ^ (52 - k) ≤ b.mantissa / 2 ^ k := by
          rw [Nat.le_div_iff_mul_le (Nat.two_pow_pos k), half]
          exact leading
        have kept_least : 2 ^ (52 - k) ≤ roundQuotient b.mantissa (2 ^ k) := by
          rcases roundQuotient_or b.mantissa (2 ^ k) with down | up <;> omega
        exact half.ge.trans (Nat.mul_le_mul_right _ kept_least)
      · obtain rfl : k = 53 := by omega
        omega
    · exact .inl (nothing wide)
  · left
    have bits : b.mantissa.log2 < 53 := by
      by_cases zero : b.mantissa = 0
      · rw [zero]
        decide
      · exact (Nat.log2_lt zero).mpr few
    have lowest := normal.full.resolve_right leading
    rw [keptSingle, lowest]
    exact nothing (by omega)

/-- What is kept is past the largest number of single precision exactly from the middle between this and
the next power of two on. -/
theorem overflows_iff (normal : b.Normal) (some_kept : b.keptSingle ≠ 0) :
    pow2 128 ≤ b.keptSingle * pow2 b.exponent.toNat ↔
      75 < b.exponent ∨ 75 = b.exponent ∧ 2 ^ 53 - 2 ^ 28 ≤ b.mantissa := by
  obtain ⟨leading, least, most⟩ := (keptSingle_cases normal).resolve_left some_kept
  have few := normal.mantissa_lt
  rcases lt_trichotomy b.exponent 75 with lower | same | higher
  · have scale : 2 ^ b.exponent.toNat ≤ 2 ^ 74 := Nat.pow_le_pow_right (by decide) (by omega)
    have light : b.keptSingle * 2 ^ b.exponent.toNat ≤ 2 ^ 53 * 2 ^ 74 := Nat.mul_le_mul most scale
    refine iff_of_false (fun heavy => ?_) (by omega)
    have heavy : 2 ^ 128 ≤ b.keptSingle * 2 ^ b.exponent.toNat := heavy
    omega
  · obtain ⟨k, _, narrow, kept⟩ := keptSingle_eq normal leading
    obtain rfl := narrow (by omega)
    rw [same, kept]
    change 2 ^ 128 ≤ roundQuotient b.mantissa (2 ^ 29) * 2 ^ 29 * 2 ^ 75 ↔ _
    have carries : roundQuotient b.mantissa (2 ^ 29) < 2 ^ 24 ↔ b.mantissa < 2 ^ 53 - 2 ^ 28 := by
      constructor
      · intro below
        by_contra above
        have up := roundQuotient_up (n := b.mantissa) (d := 2 ^ 29) (by omega) (by omega)
        omega
      · intro below
        by_cases last : b.mantissa / 2 ^ 29 = 2 ^ 24 - 1
        · have down := roundQuotient_down (n := b.mantissa) (d := 2 ^ 29) (by omega)
          omega
        · rcases roundQuotient_or b.mantissa (2 ^ 29) with down | up <;> omega
    omega
  · have scale : 2 ^ 76 ≤ 2 ^ b.exponent.toNat := Nat.pow_le_pow_right (by decide) (by omega)
    have heavy : 2 ^ 52 * 2 ^ 76 ≤ b.keptSingle * 2 ^ b.exponent.toNat := Nat.mul_le_mul least scale
    refine iff_of_true ?_ (.inl higher)
    change 2 ^ 128 ≤ b.keptSingle * 2 ^ b.exponent.toNat
    omega

theorem keptSingle_pos (normal : b.Normal) (leading : 2 ^ 52 ≤ b.mantissa) (large : -178 ≤ b.exponent) :
    0 < b.keptSingle := by
  obtain ⟨k, _, narrow, kept⟩ := keptSingle_eq normal leading
  obtain rfl := narrow large
  rcases roundQuotient_or b.mantissa (2 ^ 29) with down | up <;> omega

/-- What is kept without overflow is at most the largest number of single precision. -/
theorem keptSingle_le (normal : b.Normal) (fits : b.keptSingle * pow2 b.exponent.toNat < pow2 128)
    (same : b.exponent = 75) : b.keptSingle ≤ 2 ^ 53 - 2 ^ 29 := by
  rcases keptSingle_cases normal with none_kept | ⟨leading, _⟩
  · omega
  · obtain ⟨k, _, narrow, kept⟩ := keptSingle_eq normal leading
    obtain rfl := narrow (by omega)
    rw [same] at fits
    have fits : b.keptSingle * 2 ^ 75 < 2 ^ 128 := fits
    omega

end Binary

end ProbCore.Decimal

namespace ProbCore.Doubles

open Float.Model Float.Model.UnpackedFloat
open Decimal (Binary isNegative isNegative_inj)

theorem toFloat_unpack {b : Binary} (normal : b.Normal) (small : b.exponent < 972) :
    ∃ u, Binary.ofUnpacked? u = some b ∧ b.toFloat.toModel.unpack = stored u := by
  obtain ⟨known, inside⟩ := Binary.ofBits?_bits normal small
  have same : (BitVec.ofNat 64 b.bits).toNat = b.bits := by
    rw [BitVec.toNat_ofNat, Nat.mod_eq_of_lt inside]
  have taken := Binary.ofBits?_eq (BitVec.ofNat 64 b.bits)
  rw [same, known] at taken
  exact ⟨_, taken.symm, rfl⟩

theorem toFloat_finite {s : Sign} {m : Nat} {e : Int} (some_bits : 0 < m)
    (normal : Binary.Normal ⟨isNegative s, m, e⟩) (small : e < 972) :
    (Binary.toFloat ⟨isNegative s, m, e⟩).toModel.unpack = .finite s m e some_bits := by
  obtain ⟨u, taken, known⟩ := toFloat_unpack normal small
  cases u with
  | finite t m' e' some_bits' =>
    obtain ⟨signs, rfl, rfl⟩ := Binary.mk.inj (Option.some.inj taken)
    obtain rfl := isNegative_inj.mp signs
    rw [known, stored_finite some_bits normal, if_neg small.not_ge]
  | zero t =>
    obtain ⟨_, rfl, _⟩ := Binary.mk.inj (Option.some.inj taken)
    exact absurd some_bits (lt_irrefl 0)
  | notANumber | infinity => cases taken

theorem toFloat_zero (s : Sign) : (Binary.toFloat ⟨isNegative s, 0, -1074⟩).toModel.unpack = .zero s := by
  obtain ⟨u, taken, known⟩ := toFloat_unpack (b := ⟨isNegative s, 0, -1074⟩)
    ⟨Nat.two_pow_pos 53, le_refl _, .inl rfl⟩ (show (-1074 : Int) < 972 by decide)
  cases u with
  | zero t =>
    obtain ⟨signs, _⟩ := Binary.mk.inj (Option.some.inj taken)
    obtain rfl := isNegative_inj.mp signs
    rw [known, stored_zero]
  | finite t m e some_bits =>
    obtain ⟨_, rfl, _⟩ := Binary.mk.inj (Option.some.inj taken)
    exact absurd some_bits (lt_irrefl 0)
  | notANumber | infinity => cases taken

/-- A mantissa one too large carries into the exponent. -/
theorem toFloat_carry (negative : Bool) {e : Int} (low : -1074 ≤ e) :
    Binary.toFloat ⟨negative, 2 ^ 53, e⟩ = Binary.toFloat ⟨negative, 2 ^ 52, e + 1⟩ := by
  have bits : (⟨negative, 2 ^ 53, e⟩ : Binary).bits = (⟨negative, 2 ^ 52, e + 1⟩ : Binary).bits := by
    unfold Binary.bits
    dsimp only
    rw [show (e + 1 + 1074).toNat = (e + 1074).toNat + 1 by omega, Nat.add_mul]
    change _ + _ * 2 ^ 52 + 2 ^ 53 = _ + (_ * 2 ^ 52 + 1 * 2 ^ 52) + 2 ^ 52
    omega
  rw [Binary.toFloat, bits, Binary.toFloat]

/-- From the middle between the largest number of single precision and the next power of two on. -/
def Beyond (m : Nat) (e : Int) : Prop := Lighter (2 ^ 53 - 2 ^ 28) 75 m e

/-- At most the largest number of single precision. -/
def Within (m : Nat) (e : Int) : Prop := Lighter m e (2 ^ 53 - 2 ^ 29) 75

/-- A finite double becomes an infinity or a number in single precision. -/
theorem single_finite {x : Float} {s : Sign} {m : Nat} {e : Int} {some_bits : 0 < m}
    (shape : x.toModel.unpack = .finite s m e some_bits) :
    Beyond m e ∧ (single x).toModel.unpack = .infinity s ∨
      ¬ Beyond m e ∧ ((single x).toModel.unpack = .zero s ∨
        ∃ m' e', ∃ positive : 0 < m', (single x).toModel.unpack = .finite s m' e' positive ∧ Within m' e') := by
  have normal := normal_unpack shape
  have taken : Binary.ofFloat? x = some ⟨isNegative s, m, e⟩ := by
    rw [Binary.ofFloat?_eq, shape]
    rfl
  unfold single
  rw [taken]
  dsimp only
  by_cases none_kept : (⟨isNegative s, m, e⟩ : Binary).keptSingle = 0
  · refine .inr ⟨?_, .inl ?_⟩
    · rintro beyond
      have leading : 2 ^ 52 ≤ m := normal.full.resolve_left (by unfold Beyond Lighter at beyond; dsimp only; omega)
      have large : -178 ≤ e := by unfold Beyond Lighter at beyond; omega
      exact (Binary.keptSingle_pos normal leading large).ne' none_kept
    · rw [none_kept]
      exact toFloat_zero s
  · rw [if_neg (by simpa using none_kept)]
    have beyond_iff := Binary.overflows_iff normal none_kept
    split
    next heavy =>
      refine .inl ⟨beyond_iff.mp heavy, ?_⟩
      cases s with
      | negative =>
        rw [isNegative, if_pos rfl]
        rfl
      | positive =>
        rw [isNegative, if_neg Bool.false_ne_true]
        rfl
    next fits =>
      refine .inr ⟨fun beyond => fits (beyond_iff.mpr beyond), .inr ?_⟩
      have lowest := normal.exponent_ge
      have lower : ¬ 75 < e := fun higher => fits (beyond_iff.mpr (.inl higher))
      have few := Binary.keptSingle_le normal (not_le.mp fits)
      obtain ⟨_, least, most⟩ := (Binary.keptSingle_cases normal).resolve_left none_kept
      dsimp only at lowest few
      rcases most.eq_or_lt with carries | inside
      · have positive : 0 < 2 ^ 52 := Nat.two_pow_pos 52
        refine ⟨2 ^ 52, e + 1, positive, ?_, ?_⟩
        · rw [carries, toFloat_carry _ lowest]
          exact toFloat_finite positive ⟨by dsimp only; omega, by dsimp only; omega, .inr le_rfl⟩ (by omega)
        · unfold Within Lighter
          omega
      · have positive := Nat.pos_of_ne_zero none_kept
        refine ⟨_, e, positive, toFloat_finite positive ⟨inside, lowest, .inr least⟩ (by omega), ?_⟩
        unfold Within Lighter
        omega

theorem single_zero {x : Float} {s : Sign} (shape : x.toModel.unpack = .zero s) :
    (single x).toModel.unpack = .zero s := by
  have taken : Binary.ofFloat? x = some ⟨isNegative s, 0, -1074⟩ := by
    rw [Binary.ofFloat?_eq, shape]
    rfl
  have nothing : (⟨isNegative s, 0, -1074⟩ : Binary).keptSingle = 0 := by
    refine (Binary.keptSingle_cases (Binary.normal_of_ofFloat? taken)).resolve_right fun leading => ?_
    exact absurd leading.1 (show ¬ 2 ^ 52 ≤ 0 by decide)
  unfold single
  rw [taken]
  dsimp only
  rw [nothing]
  exact toFloat_zero s

theorem single_infinity {x : Float} {s : Sign} (shape : x.toModel.unpack = .infinity s) :
    (single x).toModel.unpack = .infinity s := by
  unfold single
  rw [Binary.ofFloat?_eq, shape]
  exact shape

/-- Numbers down to a negative one, and what is above all numbers. -/
def NotBelow (m₀ : Nat) (e₀ : Int) : UnpackedFloat → Prop
  | .notANumber | .infinity .negative => False
  | .finite .negative m e _ => Lighter m e m₀ e₀
  | .zero _ | .finite .positive .. | .infinity .positive => True

/-- What single precision takes for the negative infinity. -/
def Swallowed : UnpackedFloat → Prop
  | .infinity .negative => True
  | .finite .negative m e _ => Beyond m e
  | .notANumber | .zero _ | .finite .positive .. | .infinity .positive => False

theorem single_swallowed {x : Float} (swallowed : Swallowed x.toModel.unpack) :
    (single x).toModel.unpack = .infinity .negative := by
  cases shape : x.toModel.unpack with
  | infinity s =>
    rw [shape] at swallowed
    cases s with
    | negative => exact single_infinity shape
    | positive => cases swallowed
  | finite s m e some_bits =>
    rw [shape] at swallowed
    cases s with
    | negative => exact ((single_finite shape).resolve_right fun spared => spared.1 swallowed).2
    | positive => cases swallowed
  | notANumber | zero =>
    rw [shape] at swallowed
    cases swallowed

theorem single_spared {x : Float} (number : x.toModel.unpack ≠ .notANumber)
    (spared : ¬ Swallowed x.toModel.unpack) :
    NotBelow (2 ^ 53 - 2 ^ 29) 75 (single x).toModel.unpack := by
  cases shape : x.toModel.unpack with
  | infinity s =>
    rw [shape] at spared
    rw [single_infinity shape]
    cases s with
    | negative => exact absurd trivial spared
    | positive => trivial
  | finite s m e some_bits =>
    rw [shape] at spared
    rcases single_finite shape with ⟨beyond, infinite⟩ | ⟨_, zero | ⟨m', e', positive, finite, within⟩⟩
    · rw [infinite]
      cases s with
      | negative => exact absurd beyond spared
      | positive => trivial
    · rw [zero]
      trivial
    · rw [finite]
      cases s with
      | negative => exact within
      | positive => trivial
  | notANumber => exact absurd shape number
  | zero s =>
    rw [single_zero shape]
    trivial

end ProbCore.Doubles
