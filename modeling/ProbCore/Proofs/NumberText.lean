import Mathlib.Tactic.FieldSimp
import ProbCore.Proofs.ScoreLaws
import ProbCore.Proofs.ShortestDecimal

/-! The text of a number determines it: read back with its point and its power of ten, the text of a decimal
has the value of the decimal. -/

namespace ProbCore.Decimal

def Digits (cs : List Char) : Prop := ∀ c ∈ cs, c.isDigit = true

/-- The number that digits stand for. -/
def numeral (cs : List Char) : Nat := Nat.ofDigitChars 10 cs 0

theorem numeral_append (cs ds : List Char) : numeral (cs ++ ds) = numeral cs * 10 ^ ds.length + numeral ds := by
  rw [numeral, Nat.ofDigitChars_append, Nat.ofDigitChars_eq_ofDigitChars_zero, mul_comm]
  rfl

theorem numeral_zeros (n : Nat) : numeral (List.replicate n '0') = 0 := by
  rw [numeral, Nat.ofDigitChars_replicate_zero, mul_zero]

theorem numeral_zero : numeral ['0'] = 0 := rfl

/-- The power of ten at the end of a text, which is behind an `e` and a sign. -/
def powerOf : List Char → Int
  | 'e' :: '-' :: ds => -(numeral ds : Int)
  | 'e' :: _ :: ds => numeral ds
  | _ => 0

/-- What the text of a decimal without sign stands for. -/
def textValue (cs : List Char) : ℚ :=
  let body := cs.takeWhile (· != 'e')
  let whole := body.takeWhile (· != '.')
  let decimals := (body.dropWhile (· != '.')).drop 1
  numeral (whole ++ decimals) * 10 ^ (powerOf (cs.dropWhile (· != 'e')) - decimals.length)

theorem upto {stop : Char} {cs rest : List Char} (absent : ∀ c ∈ cs, c ≠ stop)
    (last : rest = [] ∨ ∃ ds, rest = stop :: ds) :
    (cs ++ rest).takeWhile (· != stop) = cs ∧ (cs ++ rest).dropWhile (· != stop) = rest := by
  have passed : ∀ c ∈ cs, (c != stop) = true := fun c member => bne_iff_ne.mpr (absent c member)
  rw [List.takeWhile_append_of_pos passed, List.dropWhile_append_of_pos passed]
  rcases last with rfl | ⟨ds, rfl⟩ <;> simp

theorem Digits.ne {cs : List Char} (digits : Digits cs) {stop : Char} (other : stop.isDigit = false) :
    ∀ c ∈ cs, c ≠ stop := by
  rintro c member rfl
  rw [digits c member] at other
  cases other

theorem digits_zeros (n : Nat) : Digits (List.replicate n '0') := by
  intro c member
  rw [List.eq_of_mem_replicate member]
  rfl

theorem digits_zero : Digits ['0'] := digits_zeros 1

theorem Digits.append {cs ds : List Char} (left : Digits cs) (right : Digits ds) : Digits (cs ++ ds) :=
  fun c member => (List.mem_append.mp member).elim (left c) (right c)

theorem Digits.take {cs : List Char} (digits : Digits cs) (n : Nat) : Digits (cs.take n) :=
  fun c member => digits c (List.mem_of_mem_take member)

theorem Digits.drop {cs : List Char} (digits : Digits cs) (n : Nat) : Digits (cs.drop n) :=
  fun c member => digits c (List.mem_of_mem_drop member)

/-- A power of ten, or none. -/
def Power (cs : List Char) : Prop := cs = [] ∨ ∃ e, cs = 'e' :: (exponentText e).toList

theorem Power.starts {cs : List Char} (power : Power cs) : cs = [] ∨ ∃ ds, cs = 'e' :: ds :=
  power.imp_right fun ⟨_, same⟩ => ⟨_, same⟩

/-- Digits that do not start with a zero, unless it is the only one. -/
def Leading (cs : List Char) : Prop := cs = ['0'] ∨ cs.head? ≠ some '0'

/-- The text of a decimal without sign, with a point or a power of ten, and what it stands for. -/
inductive Unsigned : List Char → ℚ → Prop
  | pointed {whole decimals power : List Char} (digits : Digits whole) (some_there : whole ≠ [])
      (digits' : Digits decimals) (last : Power power) (leading : Leading whole) (some_decimals : decimals ≠ []) :
      Unsigned (whole ++ '.' :: decimals ++ power)
        (numeral (whole ++ decimals) * 10 ^ (powerOf power - decimals.length))
  | powered {whole power : List Char} (digits : Digits whole) (some_there : whole ≠ []) (last : Power power)
      (some_power : power ≠ []) (leading : Leading whole) :
      Unsigned (whole ++ power) (numeral whole * 10 ^ powerOf power)

/-- Read back, the text has that value. -/
theorem Unsigned.read {cs : List Char} {q : ℚ} (written : Unsigned cs q) : textValue cs = q := by
  have mark : '.'.isDigit = false := rfl
  cases written with
  | @pointed whole decimals power digits _ digits' last =>
    have absent : ∀ c ∈ whole ++ '.' :: decimals, c ≠ 'e' := by
      intro c member
      rcases List.mem_append.mp member with member | member
      · exact digits.ne rfl c member
      · rcases List.mem_cons.mp member with rfl | member
        · decide
        · exact digits'.ne rfl c member
    have body := upto absent last.starts
    have point := upto (digits.ne mark) (.inr ⟨decimals, rfl⟩)
    rw [textValue, body.1, body.2, point.1, point.2, List.drop_one, List.tail_cons]
  | @powered whole power digits _ last =>
    have body := upto (digits.ne rfl) last.starts
    have point := upto (digits.ne mark) (.inl rfl)
    rw [List.append_nil] at point
    rw [textValue, body.1, body.2, point.1, point.2]
    simp

theorem Unsigned.inj {cs : List Char} {q r : ℚ} (left : Unsigned cs q) (right : Unsigned cs r) : q = r :=
  left.read.symm.trans right.read

theorem digits_toString (n : Nat) : Digits (toString n).toList := by
  rw [Nat.toString_eq_ofList_toDigits, String.toList_ofList]
  exact fun c => Nat.isDigit_of_mem_toDigits (by decide) (by decide)

theorem numeral_toString (n : Nat) : numeral (toString n).toList = n := by
  rw [Nat.toString_eq_ofList_toDigits, String.toList_ofList]
  exact Nat.ofDigitChars_ten_toDigits

theorem toString_some (n : Nat) : (toString n).toList ≠ [] := by
  rw [Ne, String.toList_eq_nil_iff]
  exact Nat.repr_ne_empty

/-- A power of ten has a sign before its digits. -/
theorem exponentText_written (e : Int) :
    ∃ ds, Digits ds ∧ ds ≠ [] ∧ numeral ds = e.natAbs ∧ (exponentText e).toList = (if e < 0 then '-' else '+') :: ds := by
  have signed (s : String) : ((if e < 0 then "-" else "+") ++ s).toList = (if e < 0 then '-' else '+') :: s.toList := by
    split <;> simp
  refine ⟨_, ?_, ?_, ?_, signed _⟩
  · split
    · rw [String.toList_append]
      exact digits_zero.append (digits_toString _)
    · exact digits_toString _
  · split
    · rw [String.toList_append]
      exact List.append_ne_nil_of_right_ne_nil _ (toString_some _)
    · exact toString_some _
  · split
    · have zero : numeral "0".toList = 0 := rfl
      rw [String.toList_append, numeral_append, numeral_toString, zero, zero_mul, zero_add]
    · exact numeral_toString _

theorem powerOf_exponentText (e : Int) : powerOf ('e' :: (exponentText e).toList) = e := by
  obtain ⟨ds, _, _, value, written⟩ := exponentText_written e
  rw [written]
  split
  next negative =>
    change -(numeral ds : Int) = e
    omega
  next =>
    change (numeral ds : Int) = e
    omega

theorem positional_written {digits : List Char} (known : Digits digits) (some_there : digits ≠ [])
    (leading : digits.head? ≠ some '0') (point : Int) :
    Unsigned (positional digits point).toList (numeral digits * 10 ^ (point - digits.length)) := by
  unfold positional
  split
  next small =>
    have written := Unsigned.pointed digits_zero (List.cons_ne_nil _ _) ((digits_zeros (-point).toNat).append known)
      (.inl rfl) (.inl rfl) (List.append_ne_nil_of_right_ne_nil _ some_there)
    have value : numeral (['0'] ++ (List.replicate (-point).toNat '0' ++ digits)) = numeral digits := by
      rw [numeral_append, numeral_append, numeral_zeros, numeral_zero, zero_mul, zero_mul, zero_add, zero_add]
    have places : powerOf [] - (List.replicate (-point).toNat '0' ++ digits).length = point - digits.length := by
      simp only [powerOf, List.length_append, List.length_replicate]
      omega
    rw [value, places] at written
    simpa using written
  next large =>
    dsimp only
    split
    next short =>
      rw [List.isEmpty_iff, List.drop_eq_nil_iff] at short
      have written := Unsigned.pointed (known.append (digits_zeros (point.toNat - digits.length)))
        (List.append_ne_nil_of_left_ne_nil some_there _) digits_zero (.inl rfl)
        (.inr (by rwa [List.head?_append_of_ne_nil _ some_there])) (List.cons_ne_nil _ _)
      have value : numeral (digits ++ List.replicate (point.toNat - digits.length) '0' ++ ['0']) =
          numeral digits * 10 ^ (point.toNat - digits.length) * 10 := by
        rw [numeral_append, numeral_append, numeral_zeros, numeral_zero, add_zero, add_zero, List.length_replicate]
        rfl
      have places : point - digits.length = ((point.toNat - digits.length : Nat) : Int) := by omega
      have last : powerOf [] - (['0'].length : Int) = -1 := rfl
      rw [value, last, zpow_neg_one, Nat.cast_mul, Nat.cast_ofNat, mul_inv_cancel_right₀ (by norm_num), Nat.cast_mul,
        Nat.cast_pow, ← zpow_natCast, ← places] at written
      rw [List.take_of_length_le short]
      simpa using written
    next long =>
      rw [List.isEmpty_iff, List.drop_eq_nil_iff, not_le] at long
      have filled : point.toNat - (digits.take point.toNat).length = 0 := by
        rw [List.length_take]
        omega
      have whole : digits.take point.toNat ≠ [] := by
        rw [Ne, List.take_eq_nil_iff]
        exact fun none_there => none_there.elim (by omega) some_there
      have first : (digits.take point.toNat).head? = digits.head? := by
        rw [List.head?_take, if_neg (by omega)]
      have written := Unsigned.pointed (known.take point.toNat) whole (known.drop point.toNat) (.inl rfl)
        (.inr (first ▸ leading)) (by rw [Ne, List.drop_eq_nil_iff]; omega)
      have places : powerOf [] - (digits.drop point.toNat).length = point - digits.length := by
        simp only [powerOf, List.length_drop]
        omega
      rw [List.take_append_drop, places] at written
      rw [filled]
      simpa using written

theorem withPower_written {digits : List Char} (known : Digits digits) (some_there : digits ≠ [])
    (leading : digits.head? ≠ some '0') (e : Int) :
    Unsigned (withPower digits e).toList (numeral digits * 10 ^ (e + 1 - digits.length)) := by
  obtain ⟨d, ds, rfl⟩ := List.exists_cons_of_ne_nil some_there
  have last : Power ('e' :: (exponentText e).toList) := .inr ⟨e, rfl⟩
  have first : Digits [d] := known.take 1
  cases ds with
  | nil =>
    have written := Unsigned.powered first (List.cons_ne_nil _ _) last (List.cons_ne_nil _ _) (.inr leading)
    rw [powerOf_exponentText] at written
    simpa [withPower] using written
  | cons d' ds =>
    have written := Unsigned.pointed first (List.cons_ne_nil _ _) (known.drop 1) last (.inr leading)
      (List.cons_ne_nil _ _)
    have places : e - ((d :: d' :: ds).drop 1).length = e + 1 - (d :: d' :: ds).length := by
      simp only [List.drop_one, List.tail_cons, List.length_cons]
      push_cast
      ring
    rw [powerOf_exponentText, places] at written
    simpa [withPower] using written

theorem Rounds.pos {b : Binary} {q : ℚ} (rounds : Rounds b q) (positive : 0 < b.mantissa) : 0 < q := by
  have lowest := b.lower_ge
  have low : (0 : ℚ) < b.lower := Nat.cast_pos.mpr (by omega)
  exact lt_of_lt_of_le (mul_pos low (zpow_pos two_pos _)) rounds.lower_le

theorem dropZeros_eq (cs : List Char) : ∃ n, cs = List.replicate n '0' ++ dropZeros cs := by
  fun_induction dropZeros cs with
  | case1 rest ih =>
    obtain ⟨n, same⟩ := ih
    refine ⟨n + 1, ?_⟩
    rw [List.replicate_succ, List.cons_append, ← same]
  | case2 digits => exact ⟨0, rfl⟩

/-- The digits of a decimal but for the zeros at their end. -/
def Scaled.significant (d : Scaled) : List Char := (dropZeros (toString d.digits).toList.reverse).reverse

theorem Scaled.significant_eq (d : Scaled) :
    ∃ n, (toString d.digits).toList = d.significant ++ List.replicate n '0' := by
  obtain ⟨n, same⟩ := dropZeros_eq (toString d.digits).toList.reverse
  refine ⟨n, ?_⟩
  rw [← List.reverse_reverse (toString d.digits).toList, same, List.reverse_append, List.reverse_replicate]
  rfl

theorem numeral_lt {cs : List Char} (digits : Digits cs) : numeral cs < 10 ^ cs.length := by
  induction cs using List.reverseRecOn with
  | nil => exact Nat.one_pos
  | append_singleton cs c ih =>
    have digit : c.isDigit = true := digits c (by simp)
    have last : numeral [c] < 10 := by
      have value : numeral [c] = c.toNat - 48 := by simp [numeral, Nat.ofDigitChars_cons]
      have bound := (Char.isDigit_iff_toNat.mp digit).2
      change c.toNat ≤ 57 at bound
      omega
    have before := ih fun c member => digits c (List.mem_append_left _ member)
    rw [numeral_append, List.length_append, List.length_singleton, Nat.pow_succ]
    omega

/-- A positive number does not start with a zero. -/
theorem head_toString {n : Nat} (positive : 0 < n) : (toString n).toList.head? ≠ some '0' := by
  intro zero
  obtain ⟨cs, same⟩ := List.head?_eq_some_iff.mp zero
  have digits : Digits cs := fun c member => digits_toString n c (same ▸ List.mem_cons_of_mem _ member)
  have value : numeral cs = n := by
    rw [← numeral_toString n, same, ← List.singleton_append, numeral_append, numeral_zero, Nat.zero_mul, Nat.zero_add]
  have small := value ▸ numeral_lt digits
  rw [Nat.toString_eq_ofList_toDigits, String.toList_ofList] at same
  rcases Nat.eq_zero_or_pos cs.length with none_there | some_there
  · rw [none_there] at small
    omega
  · have short := (Nat.length_toDigits_le_iff (by decide) some_there).mpr small
    rw [same, List.length_cons] at short
    omega

theorem Scaled.significant_head {d : Scaled} (nonzero : d.digits ≠ 0) (some_there : d.significant ≠ []) :
    d.significant.head? ≠ some '0' := by
  obtain ⟨n, same⟩ := d.significant_eq
  have first := head_toString (Nat.pos_of_ne_zero nonzero)
  rwa [same, List.head?_append_of_ne_nil _ some_there] at first

/-- The text of a decimal without its sign. -/
def unsigned (format : FloatFormat) (zero : Bool) (d : Scaled) : String :=
  if zero then "0.0" else
    let e := d.exponent + (toString d.digits).toList.length - 1
    if format.leastPositional ≤ e && e ≤ format.mostPositional then positional d.significant (e + 1)
    else withPower d.significant e

theorem decimalText_eq (format : FloatFormat) (negative zero : Bool) (d : Scaled) :
    decimalText format negative zero d = (if negative then "-" else "") ++ unsigned format zero d := by
  unfold decimalText unsigned
  dsimp only
  split
  · rfl
  · split <;> rfl

theorem unsigned_written (format : FloatFormat) {d : Scaled} (nonzero : d.digits ≠ 0) :
    Unsigned (unsigned format false d).toList d.value := by
  obtain ⟨n, same⟩ := d.significant_eq
  have digits : Digits d.significant := fun c member => digits_toString d.digits c (same ▸ List.mem_append_left _ member)
  have value : d.digits = numeral d.significant * 10 ^ n := by
    rw [← numeral_toString d.digits, same, numeral_append, numeral_zeros, List.length_replicate, add_zero]
  have some_there : d.significant ≠ [] := by
    intro none_there
    rw [none_there] at value
    exact nonzero (value.trans (zero_mul _))
  have places : d.exponent + ((toString d.digits).toList.length : Int) - 1 + 1 - d.significant.length = n + d.exponent := by
    rw [same, List.length_append, List.length_replicate]
    push_cast
    ring
  have whole : d.value = numeral d.significant * 10 ^ ((n : Int) + d.exponent) := by
    rw [Scaled.value, value, zpow_add₀ (by norm_num), zpow_natCast]
    push_cast
    ring
  rw [whole, ← places]
  unfold unsigned
  rw [if_neg Bool.false_ne_true]
  dsimp only
  split
  · exact positional_written digits some_there (d.significant_head nonzero some_there) _
  · exact withPower_written digits some_there (d.significant_head nonzero some_there) _

theorem zero_written (format : FloatFormat) (d : Scaled) : Unsigned (unsigned format true d).toList 0 := by
  have written := Unsigned.pointed digits_zero (List.cons_ne_nil _ _) digits_zero (.inl rfl) (.inl rfl)
    (List.cons_ne_nil _ _)
  have value : numeral (['0'] ++ ['0']) = 0 := rfl
  rw [value, Nat.cast_zero, zero_mul] at written
  rw [unsigned, if_pos rfl]
  simpa using written

theorem Unsigned.head {cs : List Char} {q : ℚ} (written : Unsigned cs q) : ∃ c, cs.head? = some c ∧ c.isDigit = true := by
  have first {whole : List Char} (rest : List Char) (digits : Digits whole) (some_there : whole ≠ []) :
      ∃ c, (whole ++ rest).head? = some c ∧ c.isDigit = true := by
    obtain ⟨c, ds, rfl⟩ := List.exists_cons_of_ne_nil some_there
    exact ⟨c, rfl, digits c List.mem_cons_self⟩
  cases written with
  | pointed digits some_there =>
    rw [List.append_assoc]
    exact first _ digits some_there
  | powered digits some_there => exact first _ digits some_there

theorem Unsigned.unlike {text : String} {q : ℚ} (written : Unsigned text.toList q) {c : Char} (other : c.isDigit = false) :
    text.toList.head? ≠ some c := by
  obtain ⟨d, first, digit⟩ := written.head
  intro same
  cases first.symm.trans same
  rw [digit] at other
  cases other

/-- The characters of a number's text, its name or NaN apart. -/
def Numeric (c : Char) : Prop := c.isDigit = true ∨ c ∈ ['.', 'e', '+', '-']

theorem Power.numeric {cs : List Char} (power : Power cs) : ∀ c ∈ cs, Numeric c := by
  rcases power with rfl | ⟨e, rfl⟩
  · exact nofun
  · obtain ⟨ds, digits, _, _, written⟩ := exponentText_written e
    rw [written]
    intro c member
    rcases List.mem_cons.mp member with rfl | member
    · exact .inr (by decide)
    · rcases List.mem_cons.mp member with rfl | member
      · split <;> exact .inr (by decide)
      · exact .inl (digits c member)

theorem Unsigned.numeric {cs : List Char} {q : ℚ} (written : Unsigned cs q) : ∀ c ∈ cs, Numeric c := by
  intro c member
  cases written with
  | pointed digits _ digits' last =>
    rcases List.mem_append.mp member with member | member
    · rcases List.mem_append.mp member with member | member
      · exact .inl (digits c member)
      · rcases List.mem_cons.mp member with rfl | member
        · exact .inr (by decide)
        · exact .inl (digits' c member)
    · exact last.numeric c member
  | powered digits _ last =>
    rcases List.mem_append.mp member with member | member
    · exact .inl (digits c member)
    · exact last.numeric c member

/-- The mark by which the text of a float is told from that of an integer. -/
theorem Unsigned.marked {cs : List Char} {q : ℚ} (written : Unsigned cs q) : '.' ∈ cs ∨ 'e' ∈ cs := by
  cases written with
  | pointed => exact .inl (by simp)
  | powered _ _ last some_power =>
    obtain rfl | ⟨e, rfl⟩ := last
    · exact absurd rfl some_power
    · exact .inr (by simp)

/-- The sign of a text is told from what follows it. -/
theorem signed_inj {s t : Bool} {x y : String} (left : x.toList.head? ≠ some '-') (right : y.toList.head? ≠ some '-')
    (same : (if s then "-" else "") ++ x = (if t then "-" else "") ++ y) : s = t ∧ x = y := by
  have letters := congrArg String.toList same
  rw [String.toList_append, String.toList_append] at letters
  cases s <;> cases t
  · exact ⟨rfl, String.toList_inj.mp letters⟩
  · exact absurd (congrArg List.head? letters) left
  · exact absurd (congrArg List.head? letters).symm right
  · exact ⟨rfl, String.toList_inj.mp (List.cons.inj letters).2⟩

/-- The text of a finite float is a sign and the text of a real that rounds to it. -/
theorem floatText_finite (format : FloatFormat) {x : Float} {b : Binary} (taken : Binary.ofFloat? x = some b) :
    ∃ text q, floatText format x = (if b.negative then "-" else "") ++ text ∧ Unsigned text.toList q ∧
      (b.mantissa = 0 ∧ q = 0 ∨ 0 < b.mantissa ∧ 0 < q ∧ Rounds b q) := by
  have written : floatText format x =
      (if b.negative then "-" else "") ++ unsigned format (b.mantissa == 0) (shortest b) := by
    rw [← decimalText_eq, floatText, taken]
  rcases Nat.eq_zero_or_pos b.mantissa with none_there | positive
  · rw [none_there] at written
    exact ⟨_, _, written, zero_written format _, .inl ⟨none_there, rfl⟩⟩
  · have rounds := shortest_rounds (Binary.normal_of_ofFloat? taken) positive
    have above := rounds.pos positive
    have nonzero : (shortest b).digits ≠ 0 := by
      intro none_there
      rw [Scaled.value, none_there, Nat.cast_zero, zero_mul] at above
      exact lt_irrefl _ above
    rw [beq_false_of_ne positive.ne'] at written
    exact ⟨_, _, written, unsigned_written format nonzero, .inr ⟨positive, above, rounds⟩⟩

open Float.Model (UnpackedFloat)

/-- The text of an infinite one is its name. -/
theorem floatText_infinite {x : Float} {s : UnpackedFloat.Sign} (shape : x.toModel.unpack = .infinity s) :
    floatText dataFormat x = (if isNegative s then "-" else "") ++ "Infinity" := by
  have number : x.isNaN = false := by
    rw [← Bool.not_eq_true]
    intro same
    cases shape.symm.trans (Doubles.isNaN_iff.mp same)
  have above : decide (x > 0) = !isNegative s := by
    change Score.less Score.zero x = _
    rw [Doubles.less_unpack, Doubles.zero_unpack, shape]
    cases s <;> rfl
  rw [floatText, Binary.ofFloat?_eq, shape]
  dsimp only [Binary.ofUnpacked?]
  rw [number, if_neg Bool.false_ne_true]
  cases s with
  | negative => rw [if_neg (of_decide_eq_false above)]; rfl
  | positive => rw [if_pos (of_decide_eq_true above)]; rfl

theorem finite_or_infinite {x : Float} (number : x.isNaN = false) :
    (∃ b, Binary.ofFloat? x = some b) ∨ ∃ s, x.toModel.unpack = .infinity s := by
  rw [Binary.ofFloat?_eq]
  cases shape : x.toModel.unpack with
  | notANumber =>
    cases (show Score.isNaN x = false from number).symm.trans (Doubles.isNaN_iff.mpr shape)
  | infinity s => exact .inr ⟨s, rfl⟩
  | zero s | finite s m e some_bits => exact .inl ⟨_, rfl⟩

theorem Binary.Normal.exponent_of_zero {b : Binary} (normal : b.Normal) (zero : b.mantissa = 0) : b.exponent = -1074 :=
  normal.full.resolve_right (by omega)

/-- Floats of the same text are the same, zeros with their sign. -/
theorem floatText_inj {x y : Float} (number : x.isNaN = false) (number' : y.isNaN = false)
    (same : floatText dataFormat x = floatText dataFormat y) : x = y := by
  have name : "Infinity".toList.head? ≠ some '-' := by simp
  have unlike {text : String} {q : ℚ} (written : Unsigned text.toList q) : text ≠ "Infinity" := by
    rintro rfl
    exact written.unlike (c := 'I') rfl (by simp)
  rcases finite_or_infinite number with ⟨b, taken⟩ | ⟨s, shape⟩ <;>
    rcases finite_or_infinite number' with ⟨b', taken'⟩ | ⟨s', shape'⟩
  · obtain ⟨text, q, signed, written, value⟩ := floatText_finite dataFormat taken
    obtain ⟨text', q', signed', written', value'⟩ := floatText_finite dataFormat taken'
    have normal := Binary.normal_of_ofFloat? taken
    have normal' := Binary.normal_of_ofFloat? taken'
    rw [signed, signed'] at same
    obtain ⟨signs, rfl⟩ := signed_inj (written.unlike rfl) (written'.unlike rfl) same
    obtain rfl := written.inj written'
    have magnitudes : b.mantissa = b'.mantissa ∧ b.exponent = b'.exponent := by
      rcases value with ⟨zero, rfl⟩ | ⟨positive, above, rounds⟩
      · have zero' := (value'.resolve_right fun value' => lt_irrefl _ value'.2.1).1
        exact ⟨zero.trans zero'.symm, (normal.exponent_of_zero zero).trans (normal'.exponent_of_zero zero').symm⟩
      · obtain ⟨positive', _, rounds'⟩ := value'.resolve_left fun value' => above.ne' value'.2
        exact rounds_inj normal normal' rounds rounds'
    obtain ⟨negative, mantissa, exponent⟩ := b
    obtain ⟨rfl, rfl⟩ := magnitudes
    obtain rfl : negative = b'.negative := signs
    exact Binary.ofFloat?_inj taken taken'
  · obtain ⟨text, q, signed, written, _⟩ := floatText_finite dataFormat taken
    rw [signed, floatText_infinite shape'] at same
    exact absurd (signed_inj (written.unlike rfl) name same).2 (unlike written)
  · obtain ⟨text, q, signed, written, _⟩ := floatText_finite dataFormat taken'
    rw [signed, floatText_infinite shape] at same
    exact absurd (signed_inj name (written.unlike rfl) same).2.symm (unlike written)
  · rw [floatText_infinite shape, floatText_infinite shape'] at same
    obtain rfl := isNegative_inj.mp (signed_inj name name same).1
    exact infinity_inj shape shape'

end ProbCore.Decimal
