import ProbCore.Text.Quoted

/-! A text in double quotes is read back, whatever follows it: each character is written so that its own
reading stops where the next begins. Characters past the first plane are two units, and no character of the
first plane is written as the first of such two. -/

namespace ProbCore.Text

/-- The value of a digit in base sixteen, lower case. -/
def hexDigit (c : Char) : Nat := if c.isDigit then c.toNat - 48 else c.toNat - 87

def hexValue (cs : List Char) : Nat := cs.foldl (fun n c => 16 * n + hexDigit c) 0

theorem hexValue_concat (cs : List Char) (c : Char) : hexValue (cs ++ [c]) = 16 * hexValue cs + hexDigit c := by
  rw [hexValue, List.foldl_append]
  rfl

theorem hexDigit_digitChar {n : Nat} (small : n < 16) : hexDigit n.digitChar = n := by
  revert n
  decide

theorem hexValue_toDigits (n : Nat) : hexValue (Nat.toDigits 16 n) = n := by
  induction n using Nat.strongRecOn with
  | ind n ih =>
    rcases Nat.lt_or_ge n 16 with small | large
    · rw [Nat.toDigits_of_lt_base small]
      change 16 * 0 + hexDigit n.digitChar = n
      rw [hexDigit_digitChar small, Nat.mul_zero, Nat.zero_add]
    · rw [Nat.toDigits_of_base_le (by decide) large, hexValue_concat, ih (n / 16) (by omega),
        hexDigit_digitChar (Nat.mod_lt n (by decide))]
      omega

theorem hexValue_zeros (n : Nat) (cs : List Char) : hexValue (List.replicate n '0' ++ cs) = hexValue cs := by
  induction n with
  | zero => rfl
  | succ n ih =>
    rw [← ih, List.replicate_succ, List.cons_append]
    rfl

/-- Four digits hold a unit. -/
theorem hex_unit {n : Nat} (small : n < 0x10000) :
    ∃ ds, (hex 4 n).toList = ds ∧ ds.length = 4 ∧ hexValue ds = n := by
  have few : (Nat.toDigits 16 n).length ≤ 4 := (Nat.length_toDigits_le_iff (by decide) (by decide)).mpr small
  refine ⟨_, rfl, ?_, ?_⟩
  · rw [hex, String.toList_ofList, List.length_append, List.length_replicate]
    omega
  · rw [hex, String.toList_ofList, hexValue_zeros, hexValue_toDigits]

/-- What a letter after a backslash stands for. -/
def escaped (c : Char) : Char :=
  if c = 'n' then '\n' else if c = 'r' then '\r' else if c = 't' then '\t'
  else if c = 'b' then Char.ofNat 8 else if c = 'f' then Char.ofNat 12 else c

/-- The first character of a text up to its closing quote, and what follows it. -/
def readChar : List Char → Option (Char × List Char)
  | '\\' :: 'u' :: rest =>
    let n := hexValue (rest.take 4)
    if 0xd800 ≤ n ∧ n < 0xdc00 then
      let behind := (rest.drop 4).drop 2
      some (Char.ofNat (0x10000 + (n - 0xd800) * 0x400 + (hexValue (behind.take 4) - 0xdc00)), behind.drop 4)
    else some (Char.ofNat n, rest.drop 4)
  | '\\' :: c :: rest => some (escaped c, rest)
  | c :: rest => if c = doubleQuote then none else some (c, rest)
  | [] => none

theorem readChar_letter {c : Char} (other : c ≠ 'u') (rest : List Char) :
    readChar ('\\' :: c :: rest) = some (escaped c, rest) := by
  rw [readChar.eq_def]
  split
  next same =>
    cases same
    exact absurd rfl other
  next same =>
    cases same
    rfl
  next none_escaped same =>
    cases same
    exact absurd rfl (none_escaped _ _ rfl)
  next same => cases same

theorem readChar_plain {c : Char} (bare : c ≠ '\\') (inner : c ≠ doubleQuote) (rest : List Char) :
    readChar (c :: rest) = some (c, rest) := by
  rw [readChar.eq_def]
  split
  next same =>
    cases same
    exact absurd rfl bare
  next same =>
    cases same
    exact absurd rfl bare
  next same =>
    cases same
    rw [if_neg inner]
  next same => cases same

/-- A unit that is none of the first of two. -/
theorem readChar_unit {n : Nat} (small : n < 0x10000) (single : ¬ (0xd800 ≤ n ∧ n < 0xdc00)) (rest : List Char) :
    readChar ((unit16 n).toList ++ rest) = some (Char.ofNat n, rest) := by
  obtain ⟨ds, written, four, value⟩ := hex_unit small
  have shape : (unit16 n).toList ++ rest = '\\' :: 'u' :: (ds ++ rest) := by
    rw [unit16, String.toList_append, written]
    rfl
  rw [shape, readChar, List.take_left' four, List.drop_left' four, value, if_neg single]

theorem readChar_pair {high low : Nat} (first : 0xd800 ≤ high ∧ high < 0xdc00) (small : low < 0x10000)
    (rest : List Char) :
    readChar ((unit16 high ++ unit16 low).toList ++ rest) =
      some (Char.ofNat (0x10000 + (high - 0xd800) * 0x400 + (low - 0xdc00)), rest) := by
  obtain ⟨ds, written, four, value⟩ := hex_unit (n := high) (by omega)
  obtain ⟨ds', written', four', value'⟩ := hex_unit small
  have shape : (unit16 high ++ unit16 low).toList ++ rest = '\\' :: 'u' :: (ds ++ ('\\' :: 'u' :: (ds' ++ rest))) := by
    rw [String.toList_append, unit16, unit16, String.toList_append, String.toList_append, written, written']
    simp
  have behind : (ds ++ '\\' :: 'u' :: (ds' ++ rest)).drop 4 = '\\' :: 'u' :: (ds' ++ rest) := List.drop_left' four
  rw [shape, readChar, List.take_left' four, value, if_pos first, behind]
  change some (_, List.drop 4 (ds' ++ rest)) = _
  rw [List.drop_left' four']
  change some (Char.ofNat (0x10000 + (high - 0xd800) * 0x400 + (hexValue ((ds' ++ rest).take 4) - 0xdc00)), rest) = _
  rw [List.take_left' four', value']

/-- The ways to write a character of a quoted text: by a letter, as itself, or by its units. -/
inductive Written : Char → List Char → Prop where
  | letter {d : Char} (short : d ∈ ['n', 'r', 't', 'b', 'f', '\\', doubleQuote]) : Written (escaped d) ['\\', d]
  | plain {c : Char} (bare : c ≠ '\\') (inner : c ≠ doubleQuote) (visible : 32 ≤ c.toNat) : Written c [c]
  | unit {n : Nat} (small : n < 0x10000) (single : n < 0xd800 ∨ 0xe000 ≤ n) :
      Written (Char.ofNat n) (unit16 n).toList
  | pair {high low : Nat} (first : 0xd800 ≤ high ∧ high < 0xdc00) (second : 0xdc00 ≤ low ∧ low < 0xe000) :
      Written (Char.ofNat (0x10000 + (high - 0xd800) * 0x400 + (low - 0xdc00))) (unit16 high ++ unit16 low).toList

theorem dataChar_written (c : Char) : Written c (dataChar c).toList := by
  have letter {text : String} (d : Char) (shape : text.toList = ['\\', d])
      (short : d ∈ ['n', 'r', 't', 'b', 'f', '\\', doubleQuote]) (read : escaped d = c) :
      Written c text.toList := by
    rw [shape, ← read]
    exact .letter short
  have code : Char.ofNat c.toNat = c := Char.ofNat_toNat c
  have valid : c.toNat < 0xd800 ∨ 0xdfff < c.toNat ∧ c.toNat < 0x110000 := c.valid
  unfold dataChar
  dsimp only
  split
  next delimits =>
    rw [Bool.or_eq_true, beq_iff_eq, beq_iff_eq] at delimits
    refine letter c (by simp) ?_ ?_ <;> rcases delimits with rfl | rfl <;> decide
  next plain =>
    rw [Bool.or_eq_true, beq_iff_eq, beq_iff_eq, not_or] at plain
    split
    next same => exact letter 'n' (by simp) (by decide) (eq_of_beq same).symm
    next =>
    split
    next same => exact letter 'r' (by simp) (by decide) (eq_of_beq same).symm
    next =>
    split
    next same => exact letter 't' (by simp) (by decide) (eq_of_beq same).symm
    next =>
    split
    next same =>
      rw [eq_of_beq same] at code
      exact letter 'b' (by simp) (by decide) code
    next =>
    split
    next same =>
      rw [eq_of_beq same] at code
      exact letter 'f' (by simp) (by decide) code
    next =>
    split
    next visible =>
      have shape : c.toString.toList = [c] := by simp
      rw [Bool.and_eq_true, decide_eq_true_eq, decide_eq_true_eq] at visible
      rw [shape]
      exact .plain plain.2 plain.1 visible.1
    next =>
    split
    next first_plane =>
      have written := Written.unit first_plane (by omega)
      rwa [code] at written
    next past =>
      have written := @Written.pair (0xd800 + (c.toNat - 0x10000) / 0x400) (0xdc00 + (c.toNat - 0x10000) % 0x400)
        (by omega) (by omega)
      have whole : 0x10000 + (0xd800 + (c.toNat - 0x10000) / 0x400 - 0xd800) * 0x400 +
          (0xdc00 + (c.toNat - 0x10000) % 0x400 - 0xdc00) = c.toNat := by omega
      rwa [whole, code] at written

theorem readChar_written {c : Char} {cs : List Char} (written : Written c cs) (rest : List Char) :
    readChar (cs ++ rest) = some (c, rest) := by
  cases written with
  | letter short =>
    refine readChar_letter ?_ rest
    rintro rfl
    exact absurd short (by decide)
  | plain bare inner => exact readChar_plain bare inner rest
  | unit small single => exact readChar_unit small (by omega) rest
  | pair first second => exact readChar_pair first (by omega) rest

theorem readChar_dataChar (c : Char) (rest : List Char) :
    readChar ((dataChar c).toList ++ rest) = some (c, rest) :=
  readChar_written (dataChar_written c) rest

theorem quoted_letters (s : String) :
    (quoted s).toList = doubleQuote :: (s.toList.flatMap (fun c => (dataChar c).toList) ++ [doubleQuote]) := by
  simp [quoted, String.toList_join, List.flatMap_map]

theorem letters_cancel {cs ds rest rest' : List Char}
    (same : cs.flatMap (fun c => (dataChar c).toList) ++ doubleQuote :: rest =
      ds.flatMap (fun c => (dataChar c).toList) ++ doubleQuote :: rest') : cs = ds ∧ rest = rest' := by
  have stop (rest : List Char) : readChar (doubleQuote :: rest) = none := rfl
  induction cs generalizing ds with
  | nil =>
    cases ds with
    | nil => exact ⟨rfl, (List.cons.inj same).2⟩
    | cons d ds =>
      have read := congrArg readChar same
      rw [List.flatMap_cons, List.append_assoc, readChar_dataChar] at read
      cases (stop rest).symm.trans read
  | cons c cs ih =>
    cases ds with
    | nil =>
      have read := congrArg readChar same
      rw [List.flatMap_cons, List.append_assoc, readChar_dataChar] at read
      cases read.trans (stop rest')
    | cons d ds =>
      have read := congrArg readChar same
      rw [List.flatMap_cons, List.flatMap_cons, List.append_assoc, List.append_assoc, readChar_dataChar,
        readChar_dataChar] at read
      obtain ⟨rfl, behind⟩ := Prod.mk.inj (Option.some.inj read)
      obtain ⟨rfl, rfl⟩ := ih behind
      exact ⟨rfl, rfl⟩

/-- What follows a quoted text is told from it, and no two texts are quoted alike. -/
theorem quoted_cancel {s t : String} {rest rest' : List Char}
    (same : (quoted s).toList ++ rest = (quoted t).toList ++ rest') : s = t ∧ rest = rest' := by
  rw [quoted_letters, quoted_letters, List.cons_append, List.cons_append, List.append_assoc, List.append_assoc] at same
  obtain ⟨letters, behind⟩ := letters_cancel (List.cons.inj same).2
  exact ⟨String.toList_inj.mp letters, behind⟩

end ProbCore.Text
