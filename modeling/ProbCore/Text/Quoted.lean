import ProbCore.Text.Blank

/-! Text in quotes: as a literal of the language, and as a string of a data file. -/

namespace ProbCore.Text

/-- The apostrophe, which also delimits literals. -/
def apostrophe : Char := Char.ofNat 39

def doubleQuote : Char := Char.ofNat 34

private def escapeCode (n : Nat) : String :=
  if n < 0x100 then "\\x" ++ hex 2 n
  else if n < 0x10000 then "\\u" ++ hex 4 n
  else "\\U" ++ hex 8 n

private def literalChar (quote c : Char) : String :=
  if c == quote || c == '\\' then "\\" ++ c.toString
  else if c == '\n' then "\\n"
  else if c == '\r' then "\\r"
  else if c == '\t' then "\\t"
  else if isPrintable c then c.toString
  else escapeCode c.toNat

/-- A text as a literal: between apostrophes, or between double quotes when it holds an
apostrophe and no double quote. What cannot be printed is written by its code. -/
def literal (s : String) : String :=
  let cs := s.toList
  let quote := if cs.contains apostrophe && !cs.contains doubleQuote then doubleQuote else apostrophe
  quote.toString ++ String.join (cs.map (literalChar quote)) ++ quote.toString

def unit16 (n : Nat) : String := "\\u" ++ hex 4 n

def dataChar (c : Char) : String :=
  let n := c.toNat
  if c == doubleQuote || c == '\\' then "\\" ++ c.toString
  else if c == '\n' then "\\n"
  else if c == '\r' then "\\r"
  else if c == '\t' then "\\t"
  else if n == 8 then "\\b"
  else if n == 12 then "\\f"
  else if 32 ≤ n && n ≤ 126 then c.toString
  else if n < 0x10000 then unit16 n
  else unit16 (0xd800 + (n - 0x10000) / 0x400) ++ unit16 (0xdc00 + (n - 0x10000) % 0x400)

/-- A text as a string of a data file, in ASCII: characters past the first plane become two
UTF-16 units. -/
def quoted (s : String) : String :=
  doubleQuote.toString ++ String.join (s.toList.map dataChar) ++ doubleQuote.toString

end ProbCore.Text
