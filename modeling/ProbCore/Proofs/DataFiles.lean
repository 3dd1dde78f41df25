import ProbCore.Data.File
import ProbCore.Proofs.ReadNotation
import ProbCore.Proofs.SerializedData
import ProbCore.Proofs.SharedRecords

/-! Data that go into a file and come back. What is written for a value is read back as that value, with lists
in place of tuples and arrays. A value with a part that the notation lacks is written not at all. -/

namespace ProbCore.Data

open Value (textEntry)

/-- Neither a blank nor the end of items comes first. -/
def Opens (text : List Char) : Prop := ∃ c cs, text = c :: cs ∧ isGap c = false ∧ c ≠ ']'

/-- A text of which the value is read, whatever it is a part of. -/
structure Reads (text : List Char) (v : Value) : Prop where
  opens : Opens text
  read {fuel : Nat} {rest : List Char} (enough : 2 * text.length < fuel) (closes : Closes rest) :
    readValue fuel (text ++ rest) = .ok (v, rest)

/-! Items and entries. -/

/-- What stands behind the first of some texts. -/
def following (texts : List (List Char)) : List Char := texts.flatMap fun text => ',' :: ' ' :: text

theorem intercalate_following (text : List Char) (texts : List (List Char)) :
    [',', ' '].intercalate (text :: texts) = text ++ following texts := by
  induction texts generalizing text with
  | nil => simp [following]
  | cons next texts ih =>
    rw [List.intercalate_cons_cons, ih next]
    simp [following]

theorem skipGap_opens {text : List Char} (opens : Opens text) (rest : List Char) :
    skipGap (text ++ rest) = text ++ rest := by
  obtain ⟨c, cs, rfl, seen, _⟩ := opens
  exact List.dropWhile_cons_of_neg (by simp [seen])

section

variable {fuel : Nat} {rest : List Char}

theorem closes_cons {c : Char} (known : c = ',' ∨ c = ']' ∨ c = closeBrace) : Closes (c :: rest) := by
  intro d first
  cases first
  exact known

theorem readItems_blank (done : List Value) (cs : List Char) :
    readItems fuel done (' ' :: cs) = readItems fuel done cs := by
  cases fuel <;> rfl

section

variable {text : List Char} {v : Value} (first : Reads text v) (enough : 2 * text.length < fuel)

include first enough

theorem readItems_more (done : List Value) :
    readItems (fuel + 1) done (text ++ ',' :: rest) = readItems fuel (v :: done) rest := by
  rw [readItems, skipGap_opens first.opens, first.read enough (closes_cons (.inl rfl))]
  rfl

theorem readItems_last (done : List Value) :
    readItems (fuel + 1) done (text ++ ']' :: rest) = .ok ((v :: done).reverse, rest) := by
  rw [readItems, skipGap_opens first.opens, first.read enough (closes_cons (.inr (.inl rfl)))]
  rfl

end

theorem readItems_following (fuel : Nat) (done : List Value) (rest : List Char) {text : List Char} {v : Value}
    {texts : List (List Char)} {vs : List Value} (first : Reads text v) (others : List.Forall₂ Reads texts vs)
    (enough : 2 * (text ++ following texts).length + 1 < fuel) :
    readItems fuel done (text ++ following texts ++ ']' :: rest) = .ok (done.reverse ++ v :: vs, rest) := by
  induction others generalizing text v fuel done with
  | nil =>
    obtain ⟨fuel, rfl⟩ : ∃ k, fuel = k + 1 := ⟨fuel - 1, by omega⟩
    rw [following, List.flatMap_nil, List.append_nil] at enough ⊢
    rw [readItems_last first (by omega), List.reverse_cons]
  | @cons next w texts vs second others ih =>
    obtain ⟨fuel, rfl⟩ : ∃ k, fuel = k + 1 := ⟨fuel - 1, by omega⟩
    have lengths : (text ++ following (next :: texts)).length = text.length + 2 + (next ++ following texts).length := by
      simp [following]
      omega
    have more := ih fuel (v :: done) second (by omega)
    rw [List.append_assoc]
    change readItems _ done (text ++ ',' :: ' ' :: (next ++ following texts ++ ']' :: rest)) = _
    rw [readItems_more first (by omega), readItems_blank, more, List.reverse_cons, List.append_assoc]
    rfl

/-- Items in brackets. -/
theorem Reads.items {texts : List (List Char)} {vs : List Value} (each : List.Forall₂ Reads texts vs) :
    Reads ('[' :: ([',', ' '].intercalate texts ++ [']'])) (.list vs) := by
  refine ⟨⟨_, _, rfl, rfl, by decide⟩, fun {fuel rest} enough closes => ?_⟩
  obtain ⟨fuel, rfl⟩ : ∃ k, fuel = k + 1 := ⟨fuel - 1, by omega⟩
  cases each with
  | nil => rfl
  | @cons text v texts vs first others =>
    rw [intercalate_following] at enough ⊢
    have items := readItems_following fuel [] rest first others
      (by simp at enough ⊢; omega)
    have opened : skipGap (text ++ following texts ++ ']' :: rest) = text ++ following texts ++ ']' :: rest := by
      rw [List.append_assoc, skipGap_opens first.opens]
    obtain ⟨c, cs, rfl, seen, other⟩ := first.opens
    rw [List.cons_append, List.append_assoc, List.singleton_append, readValue, opened]
    split
    next same => exact absurd (List.cons.inj same).1 other
    next =>
      rw [items]
      rfl

/-- An entry of a dictionary. -/
def entryText (e : String × List Char) : List Char := (Text.quoted e.1).toList ++ ':' :: ' ' :: e.2

theorem readEntries_blank (done : List (Value × Value)) (cs : List Char) :
    readEntries fuel done (' ' :: cs) = readEntries fuel done cs := by
  cases fuel <;> rfl

/-- An entry is read, and what follows says whether there are more. -/
theorem readEntries_first {key : String} {text : List Char} {v : Value} (first : Reads text v)
    (enough : 2 * text.length < fuel) (closes : Closes rest) (done : List (Value × Value)) :
    readEntries (fuel + 1) done (entryText (key, text) ++ rest) =
      match skipGap rest with
      | ',' :: more => readEntries fuel (textEntry (key, v) :: done) more
      | c :: more => if c == closeBrace then .ok ((textEntry (key, v) :: done).reverse, more) else malformed
      | [] => malformed := by
  obtain ⟨inner, shape, read⟩ := readText_quoted key (':' :: ' ' :: (text ++ rest))
  have opened : skipGap (' ' :: (text ++ rest)) = text ++ rest := skipGap_opens first.opens rest
  rw [entryText, List.append_assoc]
  change readEntries (fuel + 1) done ((Text.quoted key).toList ++ ':' :: ' ' :: (text ++ rest)) = _
  rw [shape, readEntries]
  change (readText (inner.length + 1) [] inner >>= _) = _
  rw [read]
  change (readValue fuel (skipGap (' ' :: (text ++ rest))) >>= _) = _
  rw [opened, first.read enough closes]
  rfl

theorem readEntries_following (fuel : Nat) (done : List (Value × Value)) (rest : List Char) {e : String × List Char}
    {p : String × Value} {es : List (String × List Char)} {ps : List (String × Value)}
    (first : e.1 = p.1 ∧ Reads e.2 p.2) (others : List.Forall₂ (fun e p => e.1 = p.1 ∧ Reads e.2 p.2) es ps)
    (enough : 2 * (entryText e ++ following (es.map entryText)).length + 1 < fuel) :
    readEntries fuel done (entryText e ++ following (es.map entryText) ++ closeBrace :: rest) =
      .ok (done.reverse ++ textEntry p :: ps.map textEntry, rest) := by
  have lengths (e : String × List Char) : e.2.length < (entryText e).length := by
    simp [entryText]
    omega
  induction others generalizing e p fuel done with
  | nil =>
    obtain ⟨fuel, rfl⟩ : ∃ k, fuel = k + 1 := ⟨fuel - 1, by omega⟩
    obtain ⟨key, text⟩ := e
    obtain ⟨rfl, reads⟩ := first
    have short := lengths (p.1, text)
    rw [following, List.map_nil, List.flatMap_nil, List.append_nil] at enough ⊢
    rw [readEntries_first reads (by dsimp only at short ⊢; omega) (closes_cons (.inr (.inr rfl)))]
    exact congrArg (fun es => Except.ok (es, rest)) List.reverse_cons
  | @cons next q es ps second others ih =>
    obtain ⟨fuel, rfl⟩ : ∃ k, fuel = k + 1 := ⟨fuel - 1, by omega⟩
    obtain ⟨key, text⟩ := e
    obtain ⟨rfl, reads⟩ := first
    have short := lengths (p.1, text)
    have total : (entryText (p.1, text) ++ following ((next :: es).map entryText)).length =
        (entryText (p.1, text)).length + 2 + (entryText next ++ following (es.map entryText)).length := by
      simp [following]
      omega
    have more := ih fuel (textEntry p :: done) second (by omega)
    rw [List.append_assoc]
    change readEntries _ done (entryText (p.1, text) ++
      ',' :: ' ' :: (entryText next ++ following (es.map entryText) ++ closeBrace :: rest)) = _
    rw [readEntries_first reads (by dsimp only at short ⊢; omega) (closes_cons (.inl rfl))]
    change readEntries fuel (textEntry p :: done) (' ' :: _) = _
    rw [readEntries_blank, more, List.reverse_cons, List.append_assoc]
    rfl

/-- Entries under texts that are all different fill a table in their order. -/
theorem ofList_textEntry {ps : List (String × Value)} (distinct : (ps.map (·.1)).Nodup) :
    Table.ofList (ps.map textEntry) = ⟨ps.map textEntry⟩ := by
  have filled (done : List (String × Value)) (apart : ((done ++ ps).map (·.1)).Nodup) :
      (ps.map textEntry).foldl (fun t e => t.insert e.1 e.2) ⟨done.map textEntry⟩ =
        (⟨(done ++ ps).map textEntry⟩ : Table Value Value) := by
    clear distinct
    induction ps generalizing done with
    | nil => rw [List.append_nil]; rfl
    | cons p ps ih =>
      have fresh : (⟨done.map textEntry⟩ : Table Value Value).get? (.text p.1) = none := by
        have unlike : ∀ e ∈ done.map textEntry, ¬ (e.1 == Value.text p.1) = true := by
          intro e member same
          obtain ⟨q, held, rfl⟩ := List.mem_map.mp member
          change Value.beq (.text q.1) (.text p.1) = true at same
          rw [Value.beq, beq_iff_eq] at same
          rw [List.map_append, List.nodup_append] at apart
          exact apart.2.2 _ (List.mem_map_of_mem held) _ List.mem_cons_self same
        rw [Table.get?, List.find?_eq_none.mpr unlike]
        rfl
      rw [List.append_cons] at apart ⊢
      have inserted : (⟨done.map textEntry⟩ : Table Value Value).insert (.text p.1) p.2 =
          ⟨(done ++ [p]).map textEntry⟩ := by
        rw [Table.insert_of_get?_none fresh, List.map_append]
        rfl
      rw [← ih _ apart, ← inserted]
      rfl
  exact filled [] distinct

theorem readValue_brace (cs : List Char) : readValue (fuel + 1) (openBrace :: cs) =
    match skipGap cs with
    | d :: rest =>
      if d == closeBrace then .ok (.dict [], rest)
      else do
        let (entries, rest') ← readEntries fuel [] (d :: rest)
        return (.dict (Table.ofList entries).entries, rest')
    | [] => malformed := rfl

/-- Entries in braces. -/
theorem Reads.entries {es : List (String × List Char)} {ps : List (String × Value)}
    (each : List.Forall₂ (fun e p => e.1 = p.1 ∧ Reads e.2 p.2) es ps) (distinct : (ps.map (·.1)).Nodup) :
    Reads (openBrace :: ([',', ' '].intercalate (es.map entryText) ++ [closeBrace])) (.dict (ps.map textEntry)) := by
  refine ⟨⟨_, _, rfl, by decide, by decide⟩, fun {fuel rest} enough closes => ?_⟩
  obtain ⟨fuel, rfl⟩ : ∃ k, fuel = k + 1 := ⟨fuel - 1, by omega⟩
  cases each with
  | nil => rfl
  | @cons e p es ps first others =>
    rw [List.map_cons, intercalate_following] at enough ⊢
    have entries := readEntries_following fuel [] rest first others
      (by simp at enough ⊢; omega)
    obtain ⟨inner, shape, _⟩ :=
      readText_quoted e.1 (':' :: ' ' :: e.2 ++ following (es.map entryText) ++ closeBrace :: rest)
    have quoted : entryText e ++ following (es.map entryText) ++ closeBrace :: rest = Text.doubleQuote :: inner := by
      rw [← shape, entryText]
      simp
    have opened : skipGap (Text.doubleQuote :: inner) = Text.doubleQuote :: inner := rfl
    rw [quoted] at entries
    rw [List.cons_append, List.append_assoc, List.singleton_append, quoted, readValue_brace, opened]
    dsimp only
    rw [if_neg (by decide), entries]
    change Except.ok (Value.dict (Table.ofList ((p :: ps).map textEntry)).entries, rest) = _
    rw [ofList_textEntry distinct]

end

/-! Values. -/

/-- The cells of an array in nested lists, one for each index but the last. -/
def nested : List Nat → List Value → Value
  | [], cells => cells.headD .absent
  | n :: inner, cells =>
    let step := Tensor.size inner
    .list ((List.range n).map fun i => nested inner ((cells.drop (i * step)).take step))

def cellValues : Cells → List Value
  | .reals xs => xs.map .float
  | .ints ns => ns.map .int
  | .flags bs => bs.map .bool

mutual

/-- What comes back of a value: tuples and arrays are lists, and floats that are no numbers are one. -/
def delivered : Value → Value
  | .undefined _ => .float (0 / 0)
  | .list xs | .tuple xs => .list (deliveredItems xs)
  | .dict es => .dict (deliveredEntries es)
  | .tensor t => nested t.shape (cellValues t.cells)
  | v => v

def deliveredItems : List Value → List Value
  | [] => []
  | x :: xs => delivered x :: deliveredItems xs

def deliveredEntries : List (Value × Value) → List (Value × Value)
  | [] => []
  | (k, v) :: es => (k, delivered v) :: deliveredEntries es

end

/-- An integer of at most as many digits as are exchanged with files. -/
def Short (n : Int) : Prop := (toString n.natAbs).length ≤ mostDigits

instance (n : Int) : Decidable (Short n) := inferInstanceAs (Decidable (_ ≤ _))

/-- Values made of what the notation has, with texts as keys. -/
inductive Storable : Value → Prop
  | absent : Storable .absent
  | bool (b : Bool) : Storable (.bool b)
  | int {n : Int} (short : Short n) : Storable (.int n)
  | float (x : Float) : Storable (.float x)
  | undefined (mark : Nat) : Storable (.undefined mark)
  | text (s : String) : Storable (.text s)
  | list {xs : List Value} (items : ∀ x ∈ xs, Storable x) : Storable (.list xs)
  | tuple {xs : List Value} (items : ∀ x ∈ xs, Storable x) : Storable (.tuple xs)
  | dict {es : List (String × Value)} (distinct : (es.map (·.1)).Nodup) (values : ∀ e ∈ es, Storable e.2) :
      Storable (.dict (es.map textEntry))
  | tensor {t : Tensor} (whole : t.cells.length = Tensor.size t.shape)
      (short : ∀ n : Int, .int n ∈ cellValues t.cells → Short n) : Storable (.tensor t)

theorem size_cons (n : Nat) (inner : List Nat) : Tensor.size (n :: inner) = n * Tensor.size inner := by
  simp only [Tensor.size, ← List.prod_eq_foldl, List.prod_cons]

theorem part_length {α : Type} {cells : List α} {n step i : Nat} (whole : cells.length = n * step) (inside : i < n) :
    ((cells.drop (i * step)).take step).length = step := by
  have most : (i + 1) * step ≤ n * step := Nat.mul_le_mul_right _ inside
  rw [Nat.succ_mul] at most
  rw [List.length_take, List.length_drop]
  omega

theorem bracketed_letters (texts : List String) :
    (bracketed filed texts).toList = '[' :: ([',', ' '].intercalate (texts.map String.toList) ++ [']']) := by
  rw [bracketed, String.toList_append, String.toList_append, String.toList_intercalate]
  rfl

theorem Reads.bracketed {texts : List String} {vs : List Value}
    (each : List.Forall₂ (fun text v => Reads text.toList v) texts vs) :
    Reads (bracketed filed texts).toList (.list vs) := by
  rw [bracketed_letters]
  exact Reads.items (List.forall₂_map_left_iff.mpr each)

theorem Reads.array {cells : List String} {vs : List Value} (shape : List Nat)
    (each : List.Forall₂ (fun text v => Reads text.toList v) cells vs) (whole : cells.length = Tensor.size shape) :
    Reads (arrayText filed shape cells).toList (nested shape vs) := by
  induction shape generalizing cells vs with
  | nil =>
    cases each with
    | nil => cases whole
    | cons first => exact first
  | cons n inner ih =>
    rw [size_cons] at whole
    refine Reads.bracketed (List.forall₂_map_left_iff.mpr (List.forall₂_map_right_iff.mpr (List.forall₂_same.mpr ?_)))
    intro i member
    refine ih (List.forall₂_take _ (List.forall₂_drop _ each)) ?_
    exact part_length whole (List.mem_range.mp member)

theorem digit_opens {c : Char} (digit : c.isDigit = true) : isGap c = false ∧ c ≠ ']' := by
  have apart : c ∉ [' ', '\t', '\n', '\r', ']'] := digit_apart digit (by decide)
  simp only [List.mem_cons, List.not_mem_nil, or_false, not_or] at apart
  simp [isGap, apart]

theorem signed_opens {sign text : List Char} (signed : sign = [] ∨ sign = ['-'])
    (first : ∃ c, text.head? = some c ∧ isGap c = false ∧ c ≠ ']') :
    Opens (sign ++ text) := by
  rcases signed with rfl | rfl
  · obtain ⟨c, same, seen⟩ := first
    cases text with
    | nil => cases same
    | cons d cs =>
      cases same
      exact ⟨c, cs, rfl, seen⟩
  · exact ⟨_, _, rfl, rfl, by decide⟩

theorem Reads.int {n : Int} (short : Short n) : Reads (toString n).toList (.int n) := by
  refine ⟨?_, fun {fuel rest} enough closes => ?_⟩
  · obtain ⟨sign, ds, written, signed, some_there, digits⟩ := intText_written n
    obtain ⟨c, cs, rfl⟩ := List.exists_cons_of_ne_nil some_there
    rw [written]
    exact signed_opens signed ⟨c, rfl, digit_opens (digits c List.mem_cons_self)⟩
  · obtain ⟨fuel, rfl⟩ : ∃ k, fuel = k + 1 := ⟨fuel - 1, by omega⟩
    exact readValue_int short closes

theorem Reads.float (x : Float) : Reads (numberText x).toList (.float x) := by
  refine ⟨?_, fun {fuel rest} enough closes => ?_⟩
  · obtain ⟨sign, text, written, signed, rfl | rfl | ⟨q, unsigned⟩⟩ := numberText_written x
    · rw [written]
      exact signed_opens signed ⟨'N', rfl, rfl, by decide⟩
    · rw [written]
      exact signed_opens signed ⟨'I', rfl, rfl, by decide⟩
    · obtain ⟨c, first, digit⟩ := unsigned.head
      rw [written]
      exact signed_opens signed ⟨c, first, digit_opens digit⟩
  · obtain ⟨fuel, rfl⟩ : ∃ k, fuel = k + 1 := ⟨fuel - 1, by omega⟩
    exact readValue_float x closes

theorem Reads.truth (b : Bool) : Reads (truthText b).toList (.bool b) := by
  refine ⟨?_, fun {fuel rest} enough closes => ?_⟩
  · cases b <;> exact ⟨_, _, by simp [truthText]; exact ⟨rfl, rfl⟩, by decide, by decide⟩
  · obtain ⟨fuel, rfl⟩ : ∃ k, fuel = k + 1 := ⟨fuel - 1, by omega⟩
    exact readValue_truth b rest

theorem Reads.null : Reads "null".toList .absent := by
  refine ⟨⟨_, _, by simp; exact ⟨rfl, rfl⟩, by decide, by decide⟩, fun {fuel rest} enough closes => ?_⟩
  obtain ⟨fuel, rfl⟩ : ∃ k, fuel = k + 1 := ⟨fuel - 1, by omega⟩
  exact readValue_null rest

theorem Reads.text (s : String) : Reads (Text.quoted s).toList (.text s) := by
  refine ⟨?_, fun {fuel rest} enough closes => ?_⟩
  · obtain ⟨inner, shape, _⟩ := readText_quoted s []
    rw [List.append_nil] at shape
    exact ⟨_, _, shape, by decide, by decide⟩
  · obtain ⟨fuel, rfl⟩ : ∃ k, fuel = k + 1 := ⟨fuel - 1, by omega⟩
    exact readValue_text s rest

theorem cellTexts_reads {cells : Cells} (short : ∀ n : Int, .int n ∈ cellValues cells → Short n) :
    List.Forall₂ (fun text v => Reads text.toList v) (cellTexts cells) (cellValues cells) := by
  cases cells with
  | reals xs =>
    exact List.forall₂_map_left_iff.mpr (List.forall₂_map_right_iff.mpr
      (List.forall₂_same.mpr fun x _ => Reads.float x))
  | ints ns =>
    exact List.forall₂_map_left_iff.mpr (List.forall₂_map_right_iff.mpr (List.forall₂_same.mpr fun n member =>
      Reads.int (short n (List.mem_map_of_mem member))))
  | flags bs =>
    exact List.forall₂_map_left_iff.mpr (List.forall₂_map_right_iff.mpr
      (List.forall₂_same.mpr fun b _ => Reads.truth b))

theorem cellTexts_length (cells : Cells) : (cellTexts cells).length = cells.length := by
  cases cells <;> exact List.length_map _

theorem writeItems_reads {xs : List Value}
    (each : ∀ x ∈ xs, ∃ text, write filed x = .ok text ∧ Reads text.toList (delivered x)) :
    ∃ texts, writeItems filed xs = .ok texts ∧
      List.Forall₂ (fun text v => Reads text.toList v) texts (deliveredItems xs) := by
  induction xs with
  | nil => exact ⟨[], rfl, .nil⟩
  | cons x xs ih =>
    obtain ⟨text, written, reads⟩ := each x List.mem_cons_self
    obtain ⟨texts, others, more⟩ := ih fun y member => each y (List.mem_cons_of_mem x member)
    refine ⟨text :: texts, ?_, .cons reads more⟩
    rw [writeItems, written, others]
    rfl

theorem writeEntries_reads {es : List (String × Value)}
    (each : ∀ e ∈ es, ∃ text, write filed e.2 = .ok text ∧ Reads text.toList (delivered e.2)) :
    ∃ texts : List (String × String), writeEntries filed (es.map textEntry) = .ok (texts.map textEntry) ∧
      List.Forall₂ (fun e p => e.1 = p.1 ∧ Reads e.2.toList p.2) texts (es.map fun e => (e.1, delivered e.2)) := by
  induction es with
  | nil => exact ⟨[], rfl, .nil⟩
  | cons e es ih =>
    obtain ⟨text, written, reads⟩ := each e List.mem_cons_self
    obtain ⟨texts, others, more⟩ := ih fun y member => each y (List.mem_cons_of_mem e member)
    refine ⟨(e.1, text) :: texts, ?_, .cons ⟨rfl, reads⟩ more⟩
    rw [List.map_cons, textEntry, writeEntries, written, others]
    rfl

theorem deliveredEntries_textEntry (es : List (String × Value)) :
    deliveredEntries (es.map textEntry) = (es.map fun e => (e.1, delivered e.2)).map textEntry := by
  induction es with
  | nil => rfl
  | cons e es ih => rw [List.map_cons, textEntry, deliveredEntries, ih]; rfl

theorem braced_letters (es : List (String × String)) : (braced filed es).toList =
    openBrace :: ([',', ' '].intercalate ((es.map (Prod.map id String.toList)).map entryText) ++ [closeBrace]) := by
  have entries : (es.map fun e => Text.quoted e.1 ++ filed.afterKey ++ e.2).map String.toList =
      (es.map (Prod.map id String.toList)).map entryText := by
    rw [List.map_map, List.map_map]
    refine List.map_congr_left fun e _ => ?_
    change (Text.quoted e.1 ++ ": " ++ e.2).toList = _
    rw [String.toList_append, String.toList_append, List.append_assoc]
    rfl
  rw [← entries, braced, String.toList_append, String.toList_append, String.toList_intercalate]
  rfl

/-- Of what is written for a value, that value is read again. -/
theorem write_reads {v : Value} (storable : Storable v) :
    ∃ text, write filed v = .ok text ∧ Reads text.toList (delivered v) := by
  induction storable with
  | absent => exact ⟨_, rfl, Reads.null⟩
  | bool b => exact ⟨_, rfl, Reads.truth b⟩
  | @int n short =>
    refine ⟨toString n, ?_, Reads.int short⟩
    exact if_pos short
  | float x => exact ⟨_, rfl, Reads.float x⟩
  | undefined mark => exact ⟨_, rfl, Reads.float (0 / 0)⟩
  | text s => exact ⟨_, rfl, Reads.text s⟩
  | @list xs _ ih | @tuple xs _ ih =>
    obtain ⟨texts, written, reads⟩ := writeItems_reads ih
    refine ⟨bracketed filed texts, ?_, ?_⟩
    · rw [write, written]
      rfl
    · rw [delivered]
      exact Reads.bracketed reads
  | @dict es distinct _ ih =>
    obtain ⟨texts, written, reads⟩ := writeEntries_reads ih
    refine ⟨braced filed texts, ?_, ?_⟩
    · rw [write, written]
      change ((texts.map textEntry).mapM (fun e => do return (← keyText filed e.1, e.2)) >>= fun es =>
        .ok (braced filed es)) = _
      rw [Value.keyText_texts]
      rfl
    · rw [delivered, deliveredEntries_textEntry, braced_letters]
      refine Reads.entries (List.forall₂_map_left_iff.mpr reads) ?_
      rw [List.map_map]
      exact distinct
  | @tensor t whole short =>
    refine ⟨_, rfl, ?_⟩
    rw [delivered]
    exact Reads.array t.shape (cellTexts_reads short) ((cellTexts_length t.cells).trans whole)

theorem Reads.whole {text : String} {v : Value} (reads : Reads text.toList v) : Data.read text = .ok v := by
  have opened : skipGap text.toList = text.toList := by
    have same := skipGap_opens reads.opens []
    rwa [List.append_nil] at same
  have taken : readValue (2 * text.toList.length + 1) (text.toList ++ []) = .ok (v, []) := reads.read (by omega) nofun
  rw [List.append_nil] at taken
  unfold Data.read
  rw [opened]
  dsimp only
  rw [taken]
  rfl

/-! What is not written. -/

/-- What cannot be the key of an entry. -/
inductive RefusedKey : Value → Prop
  | int {n : Int} (long : ¬ Short n) : RefusedKey (.int n)
  | list (xs : List Value) : RefusedKey (.list xs)
  | tuple (xs : List Value) : RefusedKey (.tuple xs)
  | dict (es : List (Value × Value)) : RefusedKey (.dict es)
  | tensor (t : Tensor) : RefusedKey (.tensor t)
  | index (position : Value) : RefusedKey (.index position)
  | address (tokens : List Value) : RefusedKey (.address tokens)
  | marginal (m : Marginal Value Float) : RefusedKey (.marginal m)
  | memo (table : Nat) (name : String) : RefusedKey (.memo table name)
  | function (name : String) : RefusedKey (.function name)

/-- A value with something in it, however deep, that the notation lacks. -/
inductive Refused : Value → Prop
  | int {n : Int} (long : ¬ Short n) : Refused (.int n)
  | index (position : Value) : Refused (.index position)
  | address (tokens : List Value) : Refused (.address tokens)
  | marginal (m : Marginal Value Float) : Refused (.marginal m)
  | memo (table : Nat) (name : String) : Refused (.memo table name)
  | function (name : String) : Refused (.function name)
  | list {xs : List Value} {x : Value} (member : x ∈ xs) (refused : Refused x) : Refused (.list xs)
  | tuple {xs : List Value} {x : Value} (member : x ∈ xs) (refused : Refused x) : Refused (.tuple xs)
  | value {es : List (Value × Value)} {e : Value × Value} (member : e ∈ es) (refused : Refused e.2) : Refused (.dict es)
  | key {es : List (Value × Value)} {e : Value × Value} (member : e ∈ es) (refused : RefusedKey e.1) :
      Refused (.dict es)

/-- Nothing but a failure comes of it. -/
def Fails {α : Type} (x : Except Failure α) : Prop := ∃ e, x = .error e

theorem fails_bind {α β : Type} {x : Except Failure α} {f : α → Except Failure β} :
    Fails (x >>= f) ↔ Fails x ∨ ∃ a, x = .ok a ∧ Fails (f a) := by
  cases x with
  | error e => exact ⟨fun _ => .inl ⟨e, rfl⟩, fun _ => ⟨e, rfl⟩⟩
  | ok a => exact ⟨fun failed => .inr ⟨a, rfl, failed⟩, fun | .inr ⟨_, rfl, failed⟩ => failed⟩

theorem fails_pure {α : Type} (a : α) : ¬ Fails (pure a : Except Failure α) := nofun

theorem fails_map {α β : Type} {x : Except Failure α} {f : α → β} : Fails (x >>= fun a => pure (f a)) ↔ Fails x := by
  rw [fails_bind, or_iff_left]
  rintro ⟨a, _, failed⟩
  exact fails_pure (f a) failed

theorem fails_mapM {α β : Type} {f : α → Except Failure β} {xs : List α} :
    Fails (xs.mapM f) ↔ ∃ x ∈ xs, Fails (f x) := by
  induction xs with
  | nil => exact ⟨nofun, nofun⟩
  | cons x xs ih =>
    rw [List.mapM_cons, fails_bind, List.exists_mem_cons_iff, ← ih]
    cases f x with
    | error e => exact ⟨fun _ => .inl ⟨e, rfl⟩, fun _ => .inl ⟨e, rfl⟩⟩
    | ok y =>
      cases xs.mapM f with
      | error e => exact ⟨fun _ => .inr ⟨e, rfl⟩, fun _ => .inr ⟨y, rfl, e, rfl⟩⟩
      | ok ys => exact ⟨nofun, nofun⟩

theorem intText_fails {n : Int} : Fails (intText filed n) ↔ ¬ Short n := by
  change Fails (if Short n then _ else _) ↔ _
  split
  next short => exact ⟨nofun, fun long => absurd short long⟩
  next long => exact ⟨fun _ => long, fun _ => ⟨_, rfl⟩⟩

theorem keyText_fails {k : Value} : Fails (keyText filed k) ↔ RefusedKey k := by
  constructor
  · intro failed
    cases k with
    | int n => exact .int (intText_fails.mp failed)
    | absent | bool | float | undefined | text => cases failed; contradiction
    | _ => constructor
  · rintro (long | _)
    · exact intText_fails.mpr long
    all_goals exact ⟨_, rfl⟩

theorem writeItems_eq (style : Style) (xs : List Value) : writeItems style xs = xs.mapM (write style) := by
  induction xs with
  | nil => rfl
  | cons x xs ih => rw [writeItems, List.mapM_cons, ih]

theorem writeEntries_eq (style : Style) (es : List (Value × Value)) :
    writeEntries style es = es.mapM fun e => do return (e.1, ← write style e.2) := by
  induction es with
  | nil => rfl
  | cons e es ih =>
    rw [writeEntries, List.mapM_cons, ih]
    cases write style e.2 <;> rfl

theorem writeEntries_keys {style : Style} {es : List (Value × Value)} {ts : List (Value × String)}
    (written : writeEntries style es = .ok ts) : ts.map (·.1) = es.map (·.1) := by
  rw [writeEntries_eq] at written
  have each := Value.mapM_known written
  clear written
  induction each with
  | nil => rfl
  | @cons e t es ts first _ ih =>
    have same : t.1 = e.1 := by
      cases value : write style e.2 <;> rw [value] at first <;> cases first
      rfl
    rw [List.map_cons, List.map_cons, same, ih]

/-- An entry fails by its value or by its key. -/
theorem entries_fail {es : List (Value × Value)} :
    Fails (write filed (.dict es)) ↔ (∃ e ∈ es, Fails (write filed e.2)) ∨ ∃ e ∈ es, RefusedKey e.1 := by
  have values : Fails (writeEntries filed es) ↔ ∃ e ∈ es, Fails (write filed e.2) := by
    rw [writeEntries_eq, fails_mapM]
    exact exists_congr fun e => and_congr_right fun _ => fails_map
  have keys {ts : List (Value × String)} (written : writeEntries filed es = .ok ts) :
      Fails (ts.mapM (fun t => do return (← keyText filed t.1, t.2)) >>= fun ts => pure (braced filed ts)) ↔
        ∃ e ∈ es, RefusedKey e.1 := by
    have listed {α : Type} (ps : List (Value × α)) : (∃ p ∈ ps, RefusedKey p.1) ↔ ∃ k ∈ ps.map (·.1), RefusedKey k := by
      simp
    rw [fails_map, fails_mapM, listed es, ← writeEntries_keys written, ← listed ts]
    exact exists_congr fun t => and_congr_right fun _ => fails_map.trans keyText_fails
  have whole : write filed (.dict es) = writeEntries filed es >>= fun ts =>
      ts.mapM (fun t => do return (← keyText filed t.1, t.2)) >>= fun ts => pure (braced filed ts) := by
    rw [write]
    rfl
  rw [whole, fails_bind, ← values]
  cases written : writeEntries filed es with
  | error e => exact ⟨fun _ => .inl ⟨e, rfl⟩, fun _ => .inl ⟨e, rfl⟩⟩
  | ok ts =>
    rw [← keys written]
    constructor
    · rintro (⟨_, ⟨⟩⟩ | ⟨_, ⟨⟩, failed⟩)
      exact .inr failed
    · rintro (⟨_, ⟨⟩⟩ | failed)
      exact .inr ⟨ts, rfl, failed⟩

theorem items_fail {xs : List Value} :
    Fails (writeItems filed xs >>= fun texts => pure (bracketed filed texts)) ↔ ∃ x ∈ xs, Fails (write filed x) := by
  rw [fails_map, writeItems_eq, fails_mapM]

theorem refused_of_fails : (v : Value) → Fails (write filed v) → Refused v
  | .int n, failed => by
    rw [write] at failed
    exact .int (intText_fails.mp failed)
  | .list xs, failed => by
    rw [write] at failed
    obtain ⟨x, member, failed⟩ := items_fail.mp failed
    exact .list member (refused_of_fails x failed)
  | .tuple xs, failed => by
    rw [write] at failed
    obtain ⟨x, member, failed⟩ := items_fail.mp failed
    exact .tuple member (refused_of_fails x failed)
  | .dict es, failed => by
    rcases entries_fail.mp failed with ⟨e, member, failed⟩ | ⟨e, member, refused⟩
    · have smaller : sizeOf e.2 < sizeOf e := by
        cases e
        simp
      have smaller' := List.sizeOf_lt_of_mem member
      exact .value member (refused_of_fails e.2 failed)
    · exact .key member refused
  | .index p, _ => .index p
  | .address ts, _ => .address ts
  | .marginal m, _ => .marginal m
  | .memo table name, _ => .memo table name
  | .function name, _ => .function name

/-- A value is not written exactly if a part of it is refused. -/
theorem write_fails {v : Value} : Fails (write filed v) ↔ Refused v := by
  refine ⟨refused_of_fails v, fun refused => ?_⟩
  induction refused with
  | int long =>
    rw [write]
    exact intText_fails.mpr long
  | index | address | marginal | memo | function => exact ⟨_, rfl⟩
  | list member _ ih | tuple member _ ih =>
    rw [write]
    exact items_fail.mpr ⟨_, member, ih⟩
  | value member _ ih => exact entries_fail.mpr (.inl ⟨_, member, ih⟩)
  | key member refused => exact entries_fail.mpr (.inr ⟨_, member, refused⟩)

namespace File

/-- A value made of what the notation has comes back from the file that it was written to, with lists in place
of tuples and arrays. If a part of a value is refused, however deep, the file is what it was. -/
theorem write_then_read (file : File) :
    (∀ v, Storable v → ∃ text, write filed v = .ok text ∧
      (do writeValue v; readValue : Access Value) file = .ok (delivered v) (some text)) ∧
    ∀ v, Refused v → ∃ e, writeValue v file = .error e file := by
  constructor
  · intro v storable
    obtain ⟨text, written, reads⟩ := write_reads storable
    have stored : writeValue v file = .ok () (some text) := by
      unfold writeValue
      rw [written]
      rfl
    have taken : readValue (some text) = .ok (delivered v) (some text) := by
      change (Access.ofExcept (Data.read text) : Access Value) (some text) = _
      rw [reads.whole]
      rfl
    refine ⟨text, written, ?_⟩
    change EStateM.bind (writeValue v) (fun _ => readValue) file = _
    rw [EStateM.bind, stored]
    exact taken
  · intro v refused
    obtain ⟨e, failed⟩ := write_fails.mpr refused
    refine ⟨e, ?_⟩
    unfold writeValue
    rw [failed]
    rfl

/-- An array with a number that is none, a tuple, and a text with a quote come back. The place of a memo table,
deep in a list, is not written over what was there. -/
theorem report_exchanged :
    let report : Value := .dict [(.text "weights", .tensor ⟨[1, 2], .reals [1, 0 / 0]⟩),
      (.text "draws", .tuple [.int (-3), .float (-0), .bool true, .absent, .text "a\"b", .undefined 7])]
    let back : Value := .dict [(.text "weights", .list [.list [.float 1, .float (0 / 0)]]),
      (.text "draws", .list [.int (-3), .float (-0), .bool true, .absent, .text "a\"b", .float (0 / 0)])]
    let broken : Value := .list [report, .dict [(.text "table", .memo 0 "f")]]
    (∃ text, (do writeValue report; readValue : Access Value) none = .ok back (some text)) ∧
      ∃ e, writeValue broken (some "1") = .error e (some "1") := by
  intro report back broken
  constructor
  · have storable : Storable report := by
      change Storable (.dict ([("weights", _), ("draws", _)].map textEntry))
      refine .dict (by decide) (List.forall_mem_cons.mpr ⟨?_, List.forall_mem_singleton.mpr ?_⟩)
      · exact .tensor rfl (by simp [cellValues])
      · refine .tuple ?_
        simp only [List.forall_mem_cons, List.not_mem_nil, false_implies, implies_true, and_true]
        exact ⟨.int (by decide), .float _, .bool _, .absent, .text _, .undefined _⟩
    obtain ⟨text, _, exchanged⟩ := (write_then_read none).1 report storable
    exact ⟨text, exchanged⟩
  · refine (write_then_read (some "1")).2 broken ?_
    exact .list (List.mem_cons_of_mem _ List.mem_cons_self) (.value List.mem_cons_self (.memo 0 "f"))

end File

end ProbCore.Data
