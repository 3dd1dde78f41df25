import ProbCore.Proofs.CanonicalText
import ProbCore.Proofs.NumberText

/-! The data of a value, of which its canonical text is made. The text of a value tells its data: the words
of numbers, of truth values and of nothing are apart, and so are those of an integer and of a float. What the
data do not tell is a list from a tuple, and a key from its text. -/

namespace ProbCore.Data

open Decimal (Digits Unsigned Numeric)

theorem numeric_bare {c : Char} (numeric : Numeric c) : c ∉ delimiters := by
  have undigited : ∀ c ∈ delimiters, c.isDigit = false := by
    simp [delimiters, leftBrace, rightBrace, Text.doubleQuote]
  have unmarked : ∀ c ∈ ['.', 'e', '+', '-'], c ∉ delimiters := by
    simp [delimiters, leftBrace, rightBrace, Text.doubleQuote]
  rcases numeric with digit | member
  · intro inside
    cases (undigited c inside).symm.trans digit
  · exact unmarked c member

theorem int_letters (n : Int) :
    (toString n).toList = (if decide (n < 0) then ['-'] else []) ++ (toString n.natAbs).toList := by
  change n.repr.toList = _
  rw [Int.repr_eq_if]
  rcases Int.lt_or_le n 0 with negative | positive
  · have size : (-n).toNat = n.natAbs := by omega
    rw [if_neg (by omega), if_pos (by simpa), size, String.toList_append]
    rfl
  · have size : n.toNat = n.natAbs := by omega
    rw [if_pos positive, if_neg (by simpa), size]
    rfl

/-- The parts of an integer's text. -/
theorem intText_written (n : Int) :
    ∃ sign ds, (toString n).toList = sign ++ ds ∧ (sign = [] ∨ sign = ['-']) ∧ ds ≠ [] ∧ Digits ds := by
  refine ⟨_, _, int_letters n, ?_, Decimal.toString_some _, Decimal.digits_toString _⟩
  split
  · exact .inr rfl
  · exact .inl rfl

/-- The parts of a float's text. -/
theorem numberText_written (x : Float) :
    ∃ sign text, (numberText x).toList = sign ++ text ∧ (sign = [] ∨ sign = ['-']) ∧
      (text = ['N', 'a', 'N'] ∨ text = ['I', 'n', 'f', 'i', 'n', 'i', 't', 'y'] ∨ ∃ q, Unsigned text q) := by
  have signed (negative : Bool) : (if negative then "-" else "").toList = [] ∨ (if negative then "-" else "").toList = ['-'] := by
    cases negative
    · exact .inl (by simp)
    · exact .inr (by simp)
  cases number : x.isNaN with
  | true =>
    have shape := Doubles.isNaN_iff.mp number
    refine ⟨[], _, ?_, .inl rfl, .inl rfl⟩
    rw [numberText, Decimal.floatText, Decimal.Binary.ofFloat?_eq, shape]
    dsimp only [Decimal.Binary.ofUnpacked?]
    rw [number, if_pos rfl]
    rfl
  | false =>
    rcases Decimal.finite_or_infinite number with ⟨b, taken⟩ | ⟨s, shape⟩
    · obtain ⟨text, q, written, unsigned, _⟩ := Decimal.floatText_finite Decimal.dataFormat taken
      refine ⟨_, text.toList, ?_, signed b.negative, .inr (.inr ⟨q, unsigned⟩)⟩
      rw [numberText, written, String.toList_append]
    · refine ⟨_, _, ?_, signed (Decimal.isNegative s), .inr (.inl rfl)⟩
      rw [numberText, Decimal.floatText_infinite shape, String.toList_append]
      simp

theorem digit_apart {c : Char} (digit : c.isDigit = true) {others : List Char}
    (undigited : others.all (!·.isDigit) = true) : c ∉ others := by
  intro member
  have other := List.all_eq_true.mp undigited c member
  rw [digit] at other
  cases other

theorem minus_bare {sign : List Char} (signed : sign = [] ∨ sign = ['-']) : ∀ c ∈ sign, c ∉ delimiters := by
  rcases signed with rfl | rfl
  · exact nofun
  · intro c member
    obtain rfl := List.mem_singleton.mp member
    exact numeric_bare (.inr (by decide))

namespace Word

def null : Word := ⟨['n', 'u', 'l', 'l'], by decide, by simp [delimiters, leftBrace, rightBrace, Text.doubleQuote]⟩

def truth (b : Bool) : Word where
  letters := if b then ['t', 'r', 'u', 'e'] else ['f', 'a', 'l', 's', 'e']
  some_there := by cases b <;> decide
  bare := by cases b <;> simp [delimiters, leftBrace, rightBrace, Text.doubleQuote]

def int (n : Int) : Word where
  letters := (toString n).toList
  some_there := by
    obtain ⟨sign, ds, written, _, some_there, _⟩ := intText_written n
    rw [written]
    exact List.append_ne_nil_of_right_ne_nil sign some_there
  bare := by
    obtain ⟨sign, ds, written, signed, _, digits⟩ := intText_written n
    rw [written]
    intro c member
    rcases List.mem_append.mp member with member | member
    · exact minus_bare signed c member
    · exact numeric_bare (.inl (digits c member))

def float (x : Float) : Word where
  letters := (numberText x).toList
  some_there := by
    obtain ⟨sign, text, written, _, rfl | rfl | ⟨q, unsigned⟩⟩ := numberText_written x
    · simp [written]
    · simp [written]
    · obtain ⟨c, first, _⟩ := unsigned.head
      rw [written]
      refine List.append_ne_nil_of_right_ne_nil sign ?_
      rintro rfl
      cases first
  bare := by
    obtain ⟨sign, text, written, signed, text_cases⟩ := numberText_written x
    rw [written]
    intro c member
    rcases List.mem_append.mp member with member | member
    · exact minus_bare signed c member
    · rcases text_cases with rfl | rfl | ⟨q, unsigned⟩
      · have name : ∀ c ∈ ['N', 'a', 'N'], c ∉ delimiters := by
          simp [delimiters, leftBrace, rightBrace, Text.doubleQuote]
        exact name c member
      · have name : ∀ c ∈ ['I', 'n', 'f', 'i', 'n', 'i', 't', 'y'], c ∉ delimiters := by
          simp [delimiters, leftBrace, rightBrace, Text.doubleQuote]
        exact name c member
      · exact numeric_bare (unsigned.numeric c member)

/-- The words of numbers do not start with a small letter, as the others do. -/
theorem int_head (n : Int) : ∃ c, (int n).letters.head? = some c ∧ c ∉ ['n', 't', 'f'] := by
  obtain ⟨sign, ds, written, signed, some_there, digits⟩ := intText_written n
  change ∃ c, (toString n).toList.head? = some c ∧ _
  rw [written]
  rcases signed with rfl | rfl
  · obtain ⟨c, cs, rfl⟩ := List.exists_cons_of_ne_nil some_there
    exact ⟨c, rfl, digit_apart (digits c List.mem_cons_self) (by decide)⟩
  · exact ⟨'-', rfl, by decide⟩

theorem float_head (x : Float) : ∃ c, (float x).letters.head? = some c ∧ c ∉ ['n', 't', 'f'] := by
  obtain ⟨sign, text, written, signed, text_cases⟩ := numberText_written x
  change ∃ c, (numberText x).toList.head? = some c ∧ _
  rw [written]
  rcases signed with rfl | rfl
  · rcases text_cases with rfl | rfl | ⟨q, unsigned⟩
    · exact ⟨'N', rfl, by decide⟩
    · exact ⟨'I', rfl, by decide⟩
    · obtain ⟨c, first, digit⟩ := unsigned.head
      exact ⟨c, first, digit_apart digit (by decide)⟩
  · exact ⟨'-', rfl, by decide⟩

/-- The word of a float has a mark that the word of an integer has not. -/
theorem int_unmarked (n : Int) : ∀ c ∈ (int n).letters, c ∉ ['.', 'e', 'N', 'I'] := by
  obtain ⟨sign, ds, written, signed, _, digits⟩ := intText_written n
  change ∀ c ∈ (toString n).toList, _
  rw [written]
  intro c member
  rcases List.mem_append.mp member with member | member
  · rcases signed with rfl | rfl
    · cases member
    · obtain rfl := List.mem_singleton.mp member
      decide
  · exact digit_apart (digits c member) (by decide)

theorem float_marked (x : Float) : ∃ c ∈ (float x).letters, c ∈ ['.', 'e', 'N', 'I'] := by
  obtain ⟨sign, text, written, _, text_cases⟩ := numberText_written x
  have inside : ∃ c ∈ text, c ∈ ['.', 'e', 'N', 'I'] := by
    rcases text_cases with rfl | rfl | ⟨q, unsigned⟩
    · exact ⟨'N', by decide, by decide⟩
    · exact ⟨'I', by decide, by decide⟩
    · rcases unsigned.marked with point | power
      · exact ⟨_, point, by decide⟩
      · exact ⟨_, power, by decide⟩
  obtain ⟨c, member, mark⟩ := inside
  exact ⟨c, (congrArg (c ∈ ·) written).mpr (List.mem_append_right sign member), mark⟩

theorem truth_inj {b c : Bool} (same : truth b = truth c) : b = c := by
  cases b <;> cases c <;> first | rfl | cases congrArg letters same

theorem int_inj {m n : Int} (same : int m = int n) : m = n :=
  Int.repr_injective (String.toList_inj.mp (congrArg letters same))

theorem float_inj {x y : Float} (number : x.isNaN = false) (number' : y.isNaN = false) (same : float x = float y) :
    x = y :=
  Decimal.floatText_inj number number' (String.toList_inj.mp (congrArg letters same))

theorem truth_head (b : Bool) : ∃ c, (truth b).letters.head? = some c ∧ c ∈ ['n', 't', 'f'] := by
  cases b <;> exact ⟨_, rfl, by decide⟩

theorem heads_apart {u v : Word} (left : ∃ c, u.letters.head? = some c ∧ c ∈ ['n', 't', 'f'])
    (right : ∃ c, v.letters.head? = some c ∧ c ∉ ['n', 't', 'f']) : u ≠ v := by
  rintro rfl
  obtain ⟨c, first, inside⟩ := left
  obtain ⟨d, first', outside⟩ := right
  cases first.symm.trans first'
  exact outside inside

theorem null_ne_truth (b : Bool) : null ≠ truth b := by
  intro same
  cases b <;> cases congrArg letters same

theorem null_ne_int (n : Int) : null ≠ int n := heads_apart ⟨_, rfl, by decide⟩ (int_head n)

theorem null_ne_float (x : Float) : null ≠ float x := heads_apart ⟨_, rfl, by decide⟩ (float_head x)

theorem truth_ne_int (b : Bool) (n : Int) : truth b ≠ int n := heads_apart (truth_head b) (int_head n)

theorem truth_ne_float (b : Bool) (x : Float) : truth b ≠ float x := heads_apart (truth_head b) (float_head x)

theorem int_ne_float (n : Int) (x : Float) : int n ≠ float x := by
  intro same
  obtain ⟨c, member, mark⟩ := float_marked x
  rw [← same] at member
  exact int_unmarked n c member mark

end Word

/-- The text of a datum. -/
def Datum.print (d : Datum) : String := String.ofList d.letters

theorem Datum.print_letters (d : Datum) : d.print.toList = d.letters := String.toList_ofList

theorem Datum.print_inj {a b : Datum} (same : a.print = b.print) : a = b :=
  Datum.letters_inj (String.ofList_injective same)

/-- An entry with the text of its key. -/
def keyed {α : Type} (p : Value × α) : Except Failure (String × α) := do return (← keyText canonical p.1, p.2)

mutual

/-- The data of a value made of leaves, lists, tuples and dictionaries. -/
def data : Value → Except Failure Datum
  | .absent => .ok (.word .null)
  | .bool b => .ok (.word (.truth b))
  | .int n => .ok (.word (.int n))
  | .float x => .ok (.word (.float x))
  | .text s => .ok (.text s)
  | .list xs | .tuple xs => do return .items (← dataItems xs)
  | .dict es => do
    let entries ← arrange canonical (← dataEntries es)
    return .entries (← entries.mapM keyed)
  | _ => .error .illTyped

def dataItems : List Value → Except Failure (List Datum)
  | [] => .ok []
  | x :: xs => do return (← data x) :: (← dataItems xs)

def dataEntries : List (Value × Value) → Except Failure (List (Value × Datum))
  | [] => .ok []
  | (k, v) :: rest => do return (k, ← data v) :: (← dataEntries rest)

end

theorem intercalate_behind (close : Char) (x : List Char) (xs : List (List Char)) :
    [','].intercalate (x :: xs) ++ [close] = x ++ behind close xs := by
  induction xs generalizing x with
  | nil => simp [behind]
  | cons y ys ih =>
    rw [List.intercalate_cons_cons, List.append_assoc, List.append_assoc, ih y]
    rfl

theorem enclosed_eq (first close : Char) (xs : List (List Char)) :
    first :: ([','].intercalate xs ++ [close]) = enclosed first close xs := by
  cases xs with
  | nil => rfl
  | cons x xs =>
    rw [intercalate_behind]
    rfl

theorem bracketed_print (ds : List Datum) : bracketed canonical (ds.map Datum.print) = (Datum.items ds).print := by
  have letters : (ds.map Datum.print).map String.toList = Datum.itemLetters ds := by
    rw [Datum.itemLetters_eq, List.map_map]
    exact List.map_congr_left fun d _ => d.print_letters
  rw [← String.toList_inj, Datum.print_letters, Datum.letters, ← enclosed_eq, ← letters, bracketed,
    String.toList_append, String.toList_append, String.toList_intercalate]
  rfl

theorem braced_print (es : List (String × Datum)) :
    braced canonical (es.map (Prod.map id Datum.print)) = (Datum.entries es).print := by
  have letters : ((es.map (Prod.map id Datum.print)).map fun e => Text.quoted e.1 ++ canonical.afterKey ++ e.2).map
      String.toList = Datum.entryLetters es := by
    rw [Datum.entryLetters_eq, List.map_map, List.map_map]
    refine List.map_congr_left fun e _ => ?_
    change (Text.quoted e.1 ++ ":" ++ e.2.print).toList = _
    rw [String.toList_append, String.toList_append, e.2.print_letters, List.append_assoc]
    rfl
  rw [← String.toList_inj, Datum.print_letters, Datum.letters, ← enclosed_eq, ← letters, braced,
    String.toList_append, String.toList_append, String.toList_intercalate]
  rfl

/-- Entries are arranged by their keys, whatever is found under them. -/
theorem arrange_map {α β : Type} (style : Style) (f : α → β) (es : List (Value × α)) :
    arrange style (es.map (Prod.map id f)) = (arrange style es).map (List.map (Prod.map id f)) := by
  have keys : (es.map (Prod.map id f)).map (·.1) = es.map (·.1) := by
    rw [List.map_map]
    rfl
  have sorted : (es.mergeSort inOrder).map (Prod.map id f) = (es.map (Prod.map id f)).mergeSort inOrder :=
    List.map_mergeSort fun p _ q _ => rfl
  unfold arrange
  rw [keys, ← sorted]
  split
  · rfl
  · split <;> rfl

theorem keyed_map {α β : Type} (f : α → β) (es : List (Value × α)) :
    (es.map (Prod.map id f)).mapM keyed = (es.mapM keyed).map (List.map (Prod.map id f)) := by
  induction es with
  | nil => rfl
  | cons e es ih =>
    rw [List.map_cons, List.mapM_cons, List.mapM_cons, ih]
    have first : keyed (Prod.map id f e) = (keyed e).map (Prod.map id f) := by
      unfold keyed
      change (keyText canonical e.1 >>= fun s => .ok (s, f e.2)) = _
      cases keyText canonical e.1 <;> rfl
    rw [first]
    cases keyed e with
    | error => rfl
    | ok p => cases es.mapM keyed <;> rfl

end ProbCore.Data

namespace ProbCore.Value

/-- A value without parts, which is a number if it is a float. -/
inductive Leaf : Value → Prop
  | absent : Leaf .absent
  | bool (b : Bool) : Leaf (.bool b)
  | int (n : Int) : Leaf (.int n)
  | float {x : Float} (number : x.isNaN = false) : Leaf (.float x)
  | text (s : String) : Leaf (.text s)

/-- Leaves in lists, tuples and dictionaries. -/
inductive Plain : Value → Prop
  | leaf {v : Value} (leaf : Leaf v) : Plain v
  | list {xs : List Value} (items : ∀ x ∈ xs, Plain x) : Plain (.list xs)
  | tuple {xs : List Value} (items : ∀ x ∈ xs, Plain x) : Plain (.tuple xs)
  | dict {es : List (Value × Value)} (keys : ∀ e ∈ es, Plain e.1) (values : ∀ e ∈ es, Plain e.2) : Plain (.dict es)

end ProbCore.Value

namespace ProbCore.Data

open Value (Leaf Plain)

theorem writeItems_data {xs : List Value} (each : ∀ x ∈ xs, write canonical x = (data x).map Datum.print) :
    writeItems canonical xs = (dataItems xs).map (List.map Datum.print) := by
  induction xs with
  | nil => rfl
  | cons x xs ih =>
    rw [writeItems, dataItems, each x List.mem_cons_self, ih fun y member => each y (List.mem_cons_of_mem x member)]
    cases data x with
    | error => rfl
    | ok d => cases dataItems xs <;> rfl

theorem writeEntries_data {es : List (Value × Value)}
    (each : ∀ e ∈ es, write canonical e.2 = (data e.2).map Datum.print) :
    writeEntries canonical es = (dataEntries es).map (List.map (Prod.map id Datum.print)) := by
  induction es with
  | nil => rfl
  | cons e es ih =>
    rw [writeEntries, dataEntries, each e List.mem_cons_self, ih fun e member => each e (List.mem_cons_of_mem _ member)]
    cases data e.2 with
    | error => rfl
    | ok d => cases dataEntries es <;> rfl

/-- The canonical text of a value is that of its data. -/
theorem write_data {v : Value} (plain : Plain v) : write canonical v = (data v).map Datum.print := by
  induction plain with
  | leaf leaf =>
    cases leaf with
    | absent => rfl
    | bool b => cases b <;> rfl
    | int n => exact congrArg Except.ok String.ofList_toList.symm
    | float => exact congrArg Except.ok String.ofList_toList.symm
    | text s => exact congrArg Except.ok String.ofList_toList.symm
  | @list xs _ ih | @tuple xs _ ih =>
    rw [write, data, writeItems_data ih]
    cases dataItems xs with
    | error => rfl
    | ok ds => exact congrArg Except.ok (bracketed_print ds)
  | @dict es _ _ _ ih =>
    rw [write, data, writeEntries_data ih]
    cases dataEntries es with
    | error => rfl
    | ok ps =>
      change (arrange canonical (ps.map (Prod.map id Datum.print)) >>= fun entries =>
          entries.mapM keyed >>= fun entries => .ok (braced canonical entries)) =
        (arrange canonical ps >>= fun entries =>
          entries.mapM keyed >>= fun entries => .ok (.entries entries)).map Datum.print
      rw [arrange_map]
      cases arrange canonical ps with
      | error => rfl
      | ok entries =>
        change ((entries.map (Prod.map id Datum.print)).mapM keyed >>= fun entries => .ok (braced canonical entries)) =
          (entries.mapM keyed >>= fun entries => .ok (.entries entries)).map Datum.print
        rw [keyed_map]
        cases entries.mapM keyed with
        | error => rfl
        | ok entries => exact congrArg Except.ok (braced_print entries)

end ProbCore.Data
