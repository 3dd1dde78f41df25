import ProbCore.Data.Reader
import ProbCore.Proofs.CanonicalText
import ProbCore.Proofs.NearestDouble
import ProbCore.Proofs.WrittenData

/-! Reading the words of the data notation. Texts in quotes, integers and floats are read back from what is
written for them, up to what follows them. -/

namespace ProbCore.Data

open Decimal (Digits Unsigned Leading numeral)

/-! Texts. -/

theorem hex_digits {n : Nat} : ∀ c ∈ Nat.toDigits 16 n, ∃ d < 16, c = d.digitChar := by
  induction n using Nat.strongRecOn with
  | ind n ih =>
    intro c member
    rcases Nat.lt_or_ge n 16 with small | large
    · rw [Nat.toDigits_of_lt_base small, List.mem_singleton] at member
      exact ⟨n, small, member⟩
    · rw [Nat.toDigits_of_base_le (by decide) large, List.mem_append, List.mem_singleton] at member
      rcases member with member | rfl
      · exact ih (n / 16) (by omega) c member
      · exact ⟨n % 16, Nat.mod_lt n (by decide), rfl⟩

theorem hexValue?_digitChar {d : Nat} (small : d < 16) : hexValue? d.digitChar = some d := by
  revert d
  decide

/-- A unit is read from its four digits. -/
theorem unit?_hex {n : Nat} (small : n < 0x10000) (rest : List Char) :
    unit? ((Text.hex 4 n).toList ++ rest) = some (n, rest) := by
  obtain ⟨ds, written, four, value⟩ := Text.hex_unit small
  have known : ∀ c ∈ ds, hexValue? c = some (Text.hexDigit c) := by
    intro c member
    obtain ⟨d, few, rfl⟩ : ∃ d : Nat, d < 16 ∧ c = d.digitChar := by
      rw [← written, Text.hex, String.toList_ofList, List.mem_append] at member
      rcases member with zero | digit
      · exact ⟨0, by decide, List.eq_of_mem_replicate zero⟩
      · exact hex_digits c digit
    rw [hexValue?_digitChar few, Text.hexDigit_digitChar few]
  obtain ⟨a, b, c, d, rfl⟩ : ∃ a b c d, ds = [a, b, c, d] := by
    obtain _ | ⟨a, _ | ⟨b, _ | ⟨c, _ | ⟨d, _ | ⟨e, more⟩⟩⟩⟩⟩ := ds
    case cons.cons.cons.cons.nil => exact ⟨a, b, c, d, rfl⟩
    all_goals cases four
  have letters : ∀ x ∈ [a, b, c, d], hexValue? x = some (Text.hexDigit x) := known
  simp only [List.forall_mem_cons, List.not_mem_nil, false_implies, implies_true, and_true] at letters
  obtain ⟨first, second, third, fourth⟩ := letters
  rw [written]
  simp only [List.cons_append, List.nil_append, unit?, first, second, third, fourth, bind, Option.bind, pure]
  refine congrArg (fun m => some (m, rest)) ?_
  rw [← value]
  simp only [Text.hexValue, List.foldl_cons, List.foldl_nil]
  omega

section

variable {fuel : Nat} {done rest : List Char}

theorem readText_letter {d : Char} (known : d ∈ ['n', 'r', 't', 'b', 'f', '\\', Text.doubleQuote]) :
    readText (fuel + 1) done ('\\' :: d :: rest) = readText fuel (Text.escaped d :: done) rest := by
  simp only [List.mem_cons, List.not_mem_nil, or_false] at known
  rcases known with rfl | rfl | rfl | rfl | rfl | rfl | rfl <;> rfl

theorem readText_plain {c : Char} (bare : c ≠ '\\') (inner : c ≠ Text.doubleQuote) (visible : 32 ≤ c.toNat) :
    readText (fuel + 1) done (c :: rest) = readText fuel (c :: done) rest := by
  rw [readText, if_neg (by simpa using inner), if_neg visible.not_gt]
  exact bare

/-- A unit that is none of two. -/
theorem readText_unit {n : Nat} (small : n < 0x10000) (single : n < 0xd800 ∨ 0xe000 ≤ n) :
    readText (fuel + 1) done ((Text.unit16 n).toList ++ rest) = readText fuel (Char.ofNat n :: done) rest := by
  have shape : (Text.unit16 n).toList ++ rest = '\\' :: 'u' :: ((Text.hex 4 n).toList ++ rest) := by
    rw [Text.unit16, String.toList_append]
    rfl
  have unit : escaped? ((Text.hex 4 n).toList ++ rest) = some (Char.ofNat n, rest) := by
    have not_first : ¬ (0xd800 ≤ n ∧ n < 0xdc00) := by omega
    have not_second : ¬ (0xdc00 ≤ n ∧ n < 0xe000) := by omega
    simp [escaped?, unit?_hex small, not_first, not_second]
  rw [shape, readText, unit]

theorem readText_pair {high low : Nat} (first : 0xd800 ≤ high ∧ high < 0xdc00) (second : 0xdc00 ≤ low ∧ low < 0xe000) :
    readText (fuel + 1) done ((Text.unit16 high ++ Text.unit16 low).toList ++ rest) =
      readText fuel (Char.ofNat (0x10000 + (high - 0xd800) * 0x400 + (low - 0xdc00)) :: done) rest := by
  have shape : (Text.unit16 high ++ Text.unit16 low).toList ++ rest = '\\' :: 'u' :: ((Text.hex 4 high).toList ++
      '\\' :: 'u' :: ((Text.hex 4 low).toList ++ rest)) := by
    simp [Text.unit16]
  have pair : escaped? ((Text.hex 4 high).toList ++ '\\' :: 'u' :: ((Text.hex 4 low).toList ++ rest)) =
      some (Char.ofNat (0x10000 + (high - 0xd800) * 0x400 + (low - 0xdc00)), rest) := by
    simp [escaped?, unit?_hex (show high < 0x10000 by omega), unit?_hex (show low < 0x10000 by omega), first, second]
  rw [shape, readText, pair]

/-- A character of a quoted text is read back. -/
theorem readText_written {c : Char} {cs : List Char} (written : Text.Written c cs) :
    readText (fuel + 1) done (cs ++ rest) = readText fuel (c :: done) rest := by
  cases written with
  | letter short => exact readText_letter short
  | plain bare inner visible => exact readText_plain bare inner visible
  | unit small single => exact readText_unit small single
  | pair first second => exact readText_pair first second

theorem readText_letters (cs : List Char) (enough : cs.length < fuel) :
    readText fuel done (cs.flatMap (fun c => (Text.dataChar c).toList) ++ Text.doubleQuote :: rest) =
      .ok (String.ofList (done.reverse ++ cs), rest) := by
  induction cs generalizing fuel done with
  | nil =>
    obtain ⟨fuel, rfl⟩ : ∃ k, fuel = k + 1 := ⟨fuel - 1, by simp at enough; omega⟩
    rw [List.append_nil]
    rfl
  | cons c cs ih =>
    obtain ⟨fuel, rfl⟩ : ∃ k, fuel = k + 1 := ⟨fuel - 1, by simp at enough; omega⟩
    rw [List.flatMap_cons, List.append_assoc, readText_written (Text.dataChar_written c),
      ih (by simpa using enough), List.reverse_cons, List.append_assoc]
    rfl

end

theorem dataChar_some (c : Char) : 0 < (Text.dataChar c).toList.length := by
  have read := Text.readChar_dataChar c []
  rw [List.append_nil] at read
  refine List.length_pos_iff.mpr fun none_there => ?_
  rw [none_there] at read
  cases read

/-- What is behind the opening quote is enough fuel for what is behind it. -/
theorem readText_quoted (s : String) (rest : List Char) :
    ∃ inner, (Text.quoted s).toList ++ rest = Text.doubleQuote :: inner ∧
      readText (inner.length + 1) [] inner = .ok (s, rest) := by
  refine ⟨s.toList.flatMap (fun c => (Text.dataChar c).toList) ++ Text.doubleQuote :: rest, ?_, ?_⟩
  · rw [Text.quoted_letters, List.cons_append, List.append_assoc]
    rfl
  · have enough : s.toList.length ≤ (s.toList.flatMap fun c => (Text.dataChar c).toList).length := by
      rw [List.length_flatMap]
      refine (List.length_le_sum_of_one_le _ ?_).trans_eq' (by simp)
      intro n member
      obtain ⟨c, _, rfl⟩ := List.mem_map.mp member
      exact dataChar_some c
    rw [readText_letters _ (by rw [List.length_append]; omega), List.reverse_nil, List.nil_append,
      String.ofList_toList]

/-! Numbers. -/

theorem natural_eq (cs : List Char) : natural cs = numeral cs := rfl

/-- No digit follows. -/
def Ends (cs : List Char) : Prop := ∀ c, cs.head? = some c → c.isDigit = false

theorem Closes.ends {rest : List Char} (closes : Closes rest) : Ends rest := by
  intro c first
  rcases closes c first with rfl | rfl | rfl <;> rfl

section

variable {cs ds rest : List Char}

theorem span_digits (digits : Digits ds) (ends : Ends rest) : (ds ++ rest).span Char.isDigit = (ds, rest) := by
  have stop : rest.takeWhile Char.isDigit = [] ∧ rest.dropWhile Char.isDigit = rest := by
    cases rest with
    | nil => exact ⟨rfl, rfl⟩
    | cons c rest =>
      have other := Bool.eq_false_iff.mp (ends c rfl)
      exact ⟨List.takeWhile_cons_of_neg other, List.dropWhile_cons_of_neg other⟩
  rw [List.span_eq_takeWhile_dropWhile, List.takeWhile_append_of_pos digits, List.dropWhile_append_of_pos digits,
    stop.1, stop.2, List.append_nil]

theorem wholePart_digits (digits : Digits ds) (some_there : ds ≠ []) (leading : Leading ds) (ends : Ends rest) :
    wholePart (ds ++ rest) = (ds, rest) := by
  rcases leading with rfl | other
  · rfl
  · obtain ⟨c, cs, rfl⟩ := List.exists_cons_of_ne_nil some_there
    rw [wholePart.eq_def]
    split
    next same =>
      cases same
      exact absurd rfl other
    next => exact span_digits digits ends

theorem readFraction_point (digits : Digits ds) (some_there : ds ≠ []) (ends : Ends rest) :
    readFraction ('.' :: ds ++ rest) = some (ds, rest) := by
  rw [List.cons_append, readFraction, span_digits digits ends]
  obtain ⟨c, cs, rfl⟩ := List.exists_cons_of_ne_nil some_there
  rfl

theorem readFraction_none (other : cs.head? ≠ some '.') : readFraction cs = none := by
  unfold readFraction
  split
  next => exact absurd rfl other
  next => rfl

theorem readPower_none (other : ∀ c, cs.head? = some c → c ≠ 'e' ∧ c ≠ 'E') : readPower cs = none := by
  cases cs with
  | nil => rfl
  | cons c cs =>
    obtain ⟨small, capital⟩ := other c rfl
    unfold readPower
    dsimp only
    rw [if_neg (by simp [small, capital])]

theorem readPower_exponent (e : Int) (ends : Ends rest) :
    readPower ('e' :: (Decimal.exponentText e).toList ++ rest) = some (e, rest) := by
  obtain ⟨ds, digits, some_there, value, written⟩ := Decimal.exponentText_written e
  have powered (negative : Bool) : readPower ('e' :: (if negative then '-' else '+') :: ds ++ rest) =
      some (if negative then -(natural ds : Int) else natural ds, rest) := by
    obtain ⟨c, cs, rfl⟩ := List.exists_cons_of_ne_nil some_there
    have taken := span_digits digits ends
    cases negative <;> simp only [readPower, List.cons_append, beq_self_eq_true, Bool.true_or, if_true, if_false,
      Bool.false_eq_true] <;> rw [← List.cons_append, taken]
  rw [List.cons_append, written]
  have signed := powered (decide (e < 0))
  simp only [decide_eq_true_eq, List.cons_append] at signed ⊢
  rw [signed, natural_eq, value]
  congr 2
  split <;> omega

theorem readPower_closes (closes : Closes rest) : readPower rest = none := by
  refine readPower_none fun c first => ?_
  rcases closes c first with rfl | rfl | rfl <;> decide

theorem readFraction_closes (closes : Closes rest) : readFraction rest = none := by
  refine readFraction_none fun first => ?_
  rcases closes _ first with same | same | same <;> cases same

theorem readPower_power {ps : List Char} (power : Decimal.Power ps) (closes : Closes rest) :
    readPower (ps ++ rest) = if ps = [] then none else some (Decimal.powerOf ps, rest) := by
  rcases power with rfl | ⟨e, rfl⟩
  · exact readPower_closes closes
  · rw [Decimal.powerOf_exponentText]
    exact readPower_exponent e closes.ends

theorem power_ends {ps : List Char} (power : Decimal.Power ps) (closes : Closes rest) : Ends (ps ++ rest) := by
  rcases power with rfl | ⟨e, rfl⟩
  · exact closes.ends
  · intro c first
    cases first
    rfl

/-- Digits alone are an integer. -/
theorem readNumber_digits (negative : Bool) (digits : Digits ds) (some_there : ds ≠ []) (leading : Leading ds)
    (few : ds.length ≤ mostDigits) (closes : Closes rest) :
    readNumber negative (ds ++ rest) = .ok (.int (if negative then -(numeral ds : Int) else numeral ds), rest) := by
  unfold readNumber
  rw [wholePart_digits digits some_there leading closes.ends]
  obtain ⟨c, cs, rfl⟩ := List.exists_cons_of_ne_nil some_there
  dsimp only
  rw [readFraction_closes closes]
  dsimp only [Option.map_none, Option.getD_none]
  rw [readPower_closes closes]
  dsimp only [Option.map_none, Option.getD_none]
  rw [if_neg few.not_gt]
  rfl

/-- With a point or a power of ten they are a float, the nearest to what they stand for. -/
theorem readNumber_unsigned (negative : Bool) {text : List Char} {q : ℚ} (written : Unsigned text q)
    (closes : Closes rest) :
    ∃ (m : Nat) (e : Int), q = m * 10 ^ e ∧ readNumber negative (text ++ rest) =
      .ok (.float (if negative then -Decimal.nearestDecimal m e else Decimal.nearestDecimal m e), rest) := by
  cases written with
  | @pointed whole decimals power digits some_there digits' last leading some_decimals =>
    refine ⟨_, _, rfl, ?_⟩
    have ends : Ends ('.' :: decimals ++ (power ++ rest)) := by
      intro c first
      cases first
      rfl
    have fraction := readFraction_point digits' some_decimals (power_ends last closes)
    unfold readNumber
    rw [List.append_assoc, List.append_assoc, wholePart_digits digits some_there leading ends]
    obtain ⟨c, cs, rfl⟩ := List.exists_cons_of_ne_nil some_there
    dsimp only
    rw [fraction]
    dsimp only [Option.map_some, Option.getD_some]
    rw [readPower_power last closes]
    rcases eq_or_ne power [] with rfl | some_power
    · rfl
    · rw [if_neg some_power]
      rfl
  | @powered whole power digits some_there last some_power leading =>
    refine ⟨_, _, rfl, ?_⟩
    have fraction : readFraction (power ++ rest) = none := by
      refine readFraction_none fun first => ?_
      obtain ⟨ds, rfl⟩ := last.starts.resolve_left some_power
      cases first
    unfold readNumber
    rw [List.append_assoc, wholePart_digits digits some_there leading (power_ends last closes)]
    obtain ⟨c, cs, rfl⟩ := List.exists_cons_of_ne_nil some_there
    dsimp only
    rw [fraction]
    dsimp only [Option.map_none, Option.getD_none]
    rw [readPower_power last closes, if_neg some_power]
    dsimp only [Option.map_some, Option.getD_some]
    rw [List.append_nil, List.length_nil, Nat.cast_zero, sub_zero]
    rfl

end

/-! Values that are one word. -/

theorem digit_cases {c : Char} (digit : c.isDigit = true) : c ∈ ['0', '1', '2', '3', '4', '5', '6', '7', '8', '9'] := by
  have code : Char.ofNat c.toNat = c := Char.ofNat_toNat c
  have bounds : 48 ≤ c.toNat ∧ c.toNat ≤ 57 := by
    simpa [Char.isDigit, UInt32.le_iff_toNat_le] using digit
  obtain ⟨least, most⟩ := bounds
  rw [← code]
  generalize c.toNat = n at least most
  interval_cases n <;> decide

section

variable {fuel : Nat} {rest : List Char}

theorem readValue_digit {c : Char} (digit : c.isDigit = true) (cs : List Char) :
    readValue (fuel + 1) (c :: cs) = readNumber false (c :: cs) := by
  have known := digit_cases digit
  simp only [List.mem_cons, List.not_mem_nil, or_false] at known
  rcases known with rfl | rfl | rfl | rfl | rfl | rfl | rfl | rfl | rfl | rfl <;> rfl

theorem readValue_minus {c : Char} (digit : c.isDigit = true) (cs : List Char) :
    readValue (fuel + 1) ('-' :: c :: cs) = readNumber true (c :: cs) := by
  have known := digit_cases digit
  simp only [List.mem_cons, List.not_mem_nil, or_false] at known
  rcases known with rfl | rfl | rfl | rfl | rfl | rfl | rfl | rfl | rfl | rfl <;> rfl

theorem readValue_signed (negative : Bool) {text : List Char} (first : ∃ c, text.head? = some c ∧ c.isDigit = true) :
    readValue (fuel + 1) ((if negative then ['-'] else []) ++ text) = readNumber negative text := by
  obtain ⟨c, same, digit⟩ := first
  obtain ⟨cs, rfl⟩ : ∃ cs, text = c :: cs := by
    cases text with
    | nil => cases same
    | cons d ds =>
      cases same
      exact ⟨ds, rfl⟩
  cases negative
  · exact readValue_digit digit cs
  · exact readValue_minus digit cs

theorem readValue_text (s : String) (rest : List Char) :
    readValue (fuel + 1) ((Text.quoted s).toList ++ rest) = .ok (.text s, rest) := by
  obtain ⟨inner, shape, read⟩ := readText_quoted s rest
  rw [shape]
  change (readText (inner.length + 1) [] inner >>= _) = _
  rw [read]
  rfl

theorem readValue_int {n : Int} (few : (toString n.natAbs).length ≤ mostDigits) (closes : Closes rest) :
    readValue (fuel + 1) ((toString n).toList ++ rest) = .ok (.int n, rest) := by
  have digits := Decimal.digits_toString n.natAbs
  have some_there := Decimal.toString_some n.natAbs
  have leading : Leading (toString n.natAbs).toList := by
    rcases Nat.eq_zero_or_pos n.natAbs with zero | positive
    · rw [zero]
      exact .inl (by decide)
    · exact .inr (Decimal.head_toString positive)
  have first : ∃ c, ((toString n.natAbs).toList ++ rest).head? = some c ∧ c.isDigit = true := by
    obtain ⟨c, cs, shape⟩ := List.exists_cons_of_ne_nil some_there
    rw [shape] at digits ⊢
    exact ⟨c, rfl, digits c List.mem_cons_self⟩
  rw [int_letters, List.append_assoc, readValue_signed _ first,
    readNumber_digits _ digits some_there leading (String.length_toList.trans_le few) closes, Decimal.numeral_toString]
  congr 3
  simp only [decide_eq_true_eq]
  split <;> omega

theorem readValue_float (x : Float) (closes : Closes rest) :
    readValue (fuel + 1) ((numberText x).toList ++ rest) = .ok (.float x, rest) := by
  have minus (negative : Bool) : (if negative then "-" else "").toList = if negative then ['-'] else [] := by
    cases negative <;> simp
  cases number : x.isNaN with
  | true =>
    have shape := Doubles.isNaN_iff.mp number
    obtain rfl : x = 0 / 0 := Decimal.nan_inj shape (Doubles.isNaN_iff.mp rfl)
    rfl
  | false =>
    rcases Decimal.finite_or_infinite number with ⟨b, taken⟩ | ⟨s, shape⟩
    · obtain ⟨text, q, written, unsigned, value⟩ := Decimal.floatText_finite Decimal.dataFormat taken
      obtain ⟨m, e, rfl, read⟩ := readNumber_unsigned b.negative unsigned closes
      have first : ∃ c, (text.toList ++ rest).head? = some c ∧ c.isDigit = true := by
        obtain ⟨c, first, digit⟩ := unsigned.head
        exact ⟨c, by rw [List.head?_append, first, Option.some_or], digit⟩
      rw [numberText, written, String.toList_append, minus, List.append_assoc, readValue_signed _ first, read,
        Decimal.nearestDecimal_signed taken]
      refine value.imp (And.imp_right fun none_there => ?_) (And.imp_right And.right)
      have power : (10 : ℚ) ^ e ≠ 0 := zpow_ne_zero _ (by norm_num)
      exact_mod_cast (mul_eq_zero.mp none_there).resolve_right power
    · rw [numberText, Decimal.floatText_infinite shape, String.toList_append, minus]
      cases s with
      | positive =>
        obtain rfl : x = 1 / 0 := Decimal.infinity_inj shape rfl
        rfl
      | negative =>
        obtain rfl : x = -1 / 0 := Decimal.infinity_inj shape rfl
        rfl

theorem readValue_truth (b : Bool) (rest : List Char) :
    readValue (fuel + 1) ((truthText b).toList ++ rest) = .ok (.bool b, rest) := by
  cases b <;> simp [truthText] <;> rfl

theorem readValue_null (rest : List Char) :
    readValue (fuel + 1) ("null".toList ++ rest) = .ok (.absent, rest) := by
  simp
  rfl

end

end ProbCore.Data
