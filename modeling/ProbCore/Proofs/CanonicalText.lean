import ProbCore.Data.Writer
import ProbCore.Proofs.QuotedText

/-! The canonical text of data is read in one way only. A word ends where a character comes that separates
or closes, a quoted text ends at its closing quote, and items and entries end at their closing bracket, so
that what follows a datum is told from it. -/

namespace ProbCore.Data

def leftBrace : Char := Char.ofNat 123

def rightBrace : Char := Char.ofNat 125

/-- The characters that open, close or separate. -/
def delimiters : List Char := [',', ':', '[', ']', leftBrace, rightBrace, Text.doubleQuote]

/-- What is written without quotes. -/
structure Word where
  letters : List Char
  some_there : letters ≠ []
  bare : ∀ c ∈ letters, c ∉ delimiters

/-- What a canonical text holds: words, quoted texts, items, and entries under quoted keys. -/
inductive Datum where
  | word (w : Word)
  | text (s : String)
  | items (ds : List Datum)
  | entries (es : List (String × Datum))

/-- The rest of a list after its first member. -/
def behind (close : Char) : List (List Char) → List Char
  | [] => [close]
  | x :: xs => ',' :: (x ++ behind close xs)

def enclosed (first close : Char) : List (List Char) → List Char
  | [] => [first, close]
  | x :: xs => first :: (x ++ behind close xs)

mutual

def Datum.letters : Datum → List Char
  | .word w => w.letters
  | .text s => (Text.quoted s).toList
  | .items ds => enclosed '[' ']' (Datum.itemLetters ds)
  | .entries es => enclosed leftBrace rightBrace (Datum.entryLetters es)

def Datum.itemLetters : List Datum → List (List Char)
  | [] => []
  | d :: ds => d.letters :: Datum.itemLetters ds

def Datum.entryLetters : List (String × Datum) → List (List Char)
  | [] => []
  | (k, d) :: es => ((Text.quoted k).toList ++ ':' :: d.letters) :: Datum.entryLetters es

end

theorem Datum.itemLetters_eq (ds : List Datum) : itemLetters ds = ds.map letters := by
  induction ds with
  | nil => rfl
  | cons d ds ih => rw [itemLetters, ih, List.map_cons]

theorem Datum.entryLetters_eq (es : List (String × Datum)) :
    entryLetters es = es.map fun e => (Text.quoted e.1).toList ++ ':' :: e.2.letters := by
  induction es with
  | nil => rfl
  | cons e es ih => rw [entryLetters, ih, List.map_cons]

/-- What can follow a datum. -/
def Closes (cs : List Char) : Prop := ∀ c, cs.head? = some c → c = ',' ∨ c = ']' ∨ c = rightBrace

theorem Closes.delimiter {cs : List Char} (closes : Closes cs) : ∀ c, cs.head? = some c → c ∈ delimiters := by
  intro c first
  rcases closes c first with rfl | rfl | rfl <;> decide

theorem takeWhile_cancel {p : Char → Bool} {cs ds rest rest' : List Char} (inside : ∀ c ∈ cs, p c = true)
    (inside' : ∀ c ∈ ds, p c = true) (stops : ∀ c, rest.head? = some c → p c = false)
    (stops' : ∀ c, rest'.head? = some c → p c = false) (same : cs ++ rest = ds ++ rest') : cs = ds ∧ rest = rest' := by
  have upto {cs rest : List Char} (inside : ∀ c ∈ cs, p c = true) (stops : ∀ c, rest.head? = some c → p c = false) :
      (cs ++ rest).takeWhile p = cs := by
    rw [List.takeWhile_append_of_pos inside]
    cases rest with
    | nil => simp
    | cons c rest => rw [List.takeWhile_cons_of_neg (Bool.eq_false_iff.mp (stops c rfl)), List.append_nil]
  have first : cs = ds := by rw [← upto inside stops, same, upto inside' stops']
  subst first
  exact ⟨rfl, List.append_cancel_left same⟩

theorem Word.cancel {w w' : Word} {rest rest' : List Char} (closes : Closes rest) (closes' : Closes rest')
    (same : w.letters ++ rest = w'.letters ++ rest') : w = w' ∧ rest = rest' := by
  obtain ⟨letters, behind⟩ := takeWhile_cancel (p := fun c => decide (c ∉ delimiters))
    (fun c member => decide_eq_true (w.bare c member)) (fun c member => decide_eq_true (w'.bare c member))
    (fun c first => decide_eq_false (not_not_intro (closes.delimiter c first)))
    (fun c first => decide_eq_false (not_not_intro (closes'.delimiter c first))) same
  cases w
  cases w'
  cases letters
  exact ⟨rfl, behind⟩

/-- The character that a datum starts with. -/
def Datum.Opens : Datum → Char → Prop
  | .word _, c => c ∉ delimiters
  | .text _, c => c = Text.doubleQuote
  | .items _, c => c = '['
  | .entries _, c => c = leftBrace

theorem Datum.opens (d : Datum) : ∃ c cs, d.letters = c :: cs ∧ d.Opens c := by
  cases d with
  | word w =>
    obtain ⟨c, cs, same⟩ := List.exists_cons_of_ne_nil w.some_there
    exact ⟨c, cs, same, w.bare c (same ▸ List.mem_cons_self)⟩
  | text s => exact ⟨_, _, Text.quoted_letters s, rfl⟩
  | items ds => cases ds <;> exact ⟨_, _, rfl, rfl⟩
  | entries es => rcases es with _ | ⟨⟨k, d⟩, es⟩ <;> exact ⟨_, _, rfl, rfl⟩

section

variable {α : Type} {f : α → List Char} {close : Char} {xs ys : List α} {rest rest' : List Char}

theorem behind_closes (closing : close = ']' ∨ close = rightBrace) : Closes (behind close (xs.map f) ++ rest) := by
  intro c first
  cases xs with
  | nil =>
    cases first
    exact .inr closing
  | cons x xs =>
    cases first
    exact .inl rfl

/-- What is behind an element is what is behind the other one. -/
theorem element_cancel (closing : close = ']' ∨ close = rightBrace) {x y : α}
    (cancel : ∀ {rest rest' : List Char}, Closes rest → Closes rest' → f x ++ rest = f y ++ rest' →
      x = y ∧ rest = rest')
    (same : f x ++ behind close (xs.map f) ++ rest = f y ++ behind close (ys.map f) ++ rest') :
    x = y ∧ behind close (xs.map f) ++ rest = behind close (ys.map f) ++ rest' := by
  rw [List.append_assoc, List.append_assoc] at same
  exact cancel (behind_closes closing) (behind_closes closing) same

theorem behind_cancel (closing : close = ']' ∨ close = rightBrace)
    (cancel : ∀ x ∈ xs, ∀ y {rest rest' : List Char}, Closes rest → Closes rest' → f x ++ rest = f y ++ rest' →
      x = y ∧ rest = rest')
    (same : behind close (xs.map f) ++ rest = behind close (ys.map f) ++ rest') : xs = ys ∧ rest = rest' := by
  have unlike : close ≠ ',' := by rcases closing with rfl | rfl <;> decide
  induction xs generalizing ys with
  | nil =>
    cases ys with
    | nil => exact ⟨rfl, (List.cons.inj same).2⟩
    | cons y ys => exact absurd (List.cons.inj same).1 unlike
  | cons x xs ih =>
    cases ys with
    | nil => exact absurd (List.cons.inj same).1.symm unlike
    | cons y ys =>
      obtain ⟨rfl, later⟩ := element_cancel closing (cancel x List.mem_cons_self y) (List.cons.inj same).2
      obtain ⟨rfl, rfl⟩ := ih (fun x member => cancel x (List.mem_cons_of_mem _ member)) later
      exact ⟨rfl, rfl⟩

theorem enclosed_cancel {first : Char} (closing : close = ']' ∨ close = rightBrace)
    (starts : ∀ x, ∃ c cs, f x = c :: cs ∧ c ≠ close)
    (cancel : ∀ x ∈ xs, ∀ y {rest rest' : List Char}, Closes rest → Closes rest' → f x ++ rest = f y ++ rest' →
      x = y ∧ rest = rest')
    (same : enclosed first close (xs.map f) ++ rest = enclosed first close (ys.map f) ++ rest') :
    xs = ys ∧ rest = rest' := by
  have apart {x : α} {cs ds ds' : List Char} : close :: cs ≠ f x ++ ds ++ ds' := by
    obtain ⟨c, letters, written, other⟩ := starts x
    rw [written]
    exact fun same => other (List.cons.inj same).1.symm
  cases xs with
  | nil =>
    cases ys with
    | nil => exact ⟨rfl, (List.cons.inj (List.cons.inj same).2).2⟩
    | cons y ys => exact absurd (List.cons.inj same).2 apart
  | cons x xs =>
    cases ys with
    | nil => exact absurd (List.cons.inj same).2.symm apart
    | cons y ys =>
      obtain ⟨rfl, later⟩ := element_cancel closing (cancel x List.mem_cons_self y) (List.cons.inj same).2
      obtain ⟨rfl, rfl⟩ := behind_cancel closing (fun x member => cancel x (List.mem_cons_of_mem _ member)) later
      exact ⟨rfl, rfl⟩

end

/-- What follows a datum is told from it, and no two data have one text. -/
theorem Datum.cancel (a b : Datum) {rest rest' : List Char} (closes : Closes rest) (closes' : Closes rest')
    (same : a.letters ++ rest = b.letters ++ rest') : a = b ∧ rest = rest' := by
  obtain ⟨c, cs, written, first⟩ := a.opens
  obtain ⟨d, ds, written', first'⟩ := b.opens
  -- The first letter tells the kinds of data apart, which rules out the mixed pairs.
  obtain rfl : c = d := by
    rw [written, written'] at same
    exact (List.cons.inj same).1
  match a, b with
  | .word w, .word w' =>
    obtain ⟨rfl, behind⟩ := Word.cancel closes closes' same
    exact ⟨rfl, behind⟩
  | .text s, .text s' =>
    obtain ⟨rfl, behind⟩ := Text.quoted_cancel same
    exact ⟨rfl, behind⟩
  | .items ds, .items ds' =>
    rw [letters, letters, itemLetters_eq, itemLetters_eq] at same
    have starts (d : Datum) : ∃ c cs, d.letters = c :: cs ∧ c ≠ ']' := by
      obtain ⟨c, cs, written, first⟩ := d.opens
      refine ⟨c, cs, written, ?_⟩
      rintro rfl
      cases d with
      | word w => exact first (by decide)
      | text s => exact absurd (show ']' = Text.doubleQuote from first) (by decide)
      | items ds => exact absurd (show ']' = '[' from first) (by decide)
      | entries es => exact absurd (show ']' = leftBrace from first) (by decide)
    obtain ⟨rfl, behind⟩ := enclosed_cancel (.inl rfl) starts
      (fun d member d' _ _ closes closes' same => Datum.cancel d d' closes closes' same) same
    exact ⟨rfl, behind⟩
  | .entries es, .entries es' =>
    rw [letters, letters, entryLetters_eq, entryLetters_eq] at same
    have starts (e : String × Datum) :
        ∃ c cs, (Text.quoted e.1).toList ++ ':' :: e.2.letters = c :: cs ∧ c ≠ rightBrace := by
      rw [Text.quoted_letters]
      exact ⟨_, _, rfl, by decide⟩
    obtain ⟨rfl, behind⟩ := enclosed_cancel (.inr rfl) starts (fun e member e' rest rest' closes closes' same => by
      obtain ⟨k, d⟩ := e
      obtain ⟨k', d'⟩ := e'
      rw [List.append_assoc, List.append_assoc] at same
      obtain ⟨rfl, inner⟩ := Text.quoted_cancel same
      obtain ⟨rfl, behind⟩ := Datum.cancel d d' closes closes' (List.cons.inj inner).2
      exact ⟨rfl, behind⟩) same
    exact ⟨rfl, behind⟩
  | .word _, .text _ | .word _, .items _ | .word _, .entries _ =>
    exact absurd (show c ∈ delimiters by rw [show c = _ from first']; decide) first
  | .text _, .word _ | .items _, .word _ | .entries _, .word _ =>
    exact absurd (show c ∈ delimiters by rw [show c = _ from first]; decide) first'
  | .text _, .items _ | .text _, .entries _ | .items _, .text _ | .items _, .entries _ | .entries _, .text _
  | .entries _, .items _ => exact absurd (Eq.trans (Eq.symm first) first') (by decide)
termination_by a
decreasing_by
  · have smaller := List.sizeOf_lt_of_mem member
    rw [Datum.items.sizeOf_spec]
    omega
  · have smaller := List.sizeOf_lt_of_mem member
    rw [Prod.mk.sizeOf_spec] at smaller
    rw [Datum.entries.sizeOf_spec]
    omega

theorem Datum.letters_inj {a b : Datum} (same : a.letters = b.letters) : a = b :=
  have last : Closes [] := nofun
  have followed : a.letters ++ [] = b.letters ++ [] := by rw [same]
  (Datum.cancel a b last last followed).1

end ProbCore.Data
