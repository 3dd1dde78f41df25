import ProbCore.Failure
import ProbCore.Table
import ProbCore.Data.Writer
import ProbCore.Decimal.Reading

/-! Reading the notation of data files. Numbers may be NaN and infinite, integers keep every
digit, and of two equal keys the later value stays. -/

namespace ProbCore.Data

def malformed {α : Type} : Except Failure α := .error .malformedData

def isGap (c : Char) : Bool := c == ' ' || c == '\t' || c == '\n' || c == '\r'

def skipGap (cs : List Char) : List Char := cs.dropWhile isGap

def hexValue? (c : Char) : Option Nat :=
  if c.isDigit then some (c.toNat - 48)
  else if 'a' ≤ c && c ≤ 'f' then some (c.toNat - 87)
  else if 'A' ≤ c && c ≤ 'F' then some (c.toNat - 55)
  else none

def unit? : List Char → Option (Nat × List Char)
  | a :: b :: c :: d :: rest => do
    return (((← hexValue? a) * 16 + (← hexValue? b)) * 256 + (← hexValue? c) * 16 + (← hexValue? d), rest)
  | _ => none

/-- The character after a backslash and the letter `u`: one unit, or two that pair up. A
unit without its partner is no character and reads as the replacement character. -/
def escaped? (cs : List Char) : Option (Char × List Char) := do
  let (high, rest) ← unit? cs
  if 0xd800 ≤ high && high < 0xdc00 then
    match rest with
    | '\\' :: 'u' :: more =>
      match unit? more with
      | some (low, rest') =>
        if 0xdc00 ≤ low && low < 0xe000 then
          return (Char.ofNat (0x10000 + (high - 0xd800) * 0x400 + (low - 0xdc00)), rest')
        else return (Char.ofNat 0xfffd, rest)
      | none => none
    | _ => return (Char.ofNat 0xfffd, rest)
  else if 0xdc00 ≤ high && high < 0xe000 then return (Char.ofNat 0xfffd, rest)
  else return (Char.ofNat high, rest)

/-- The text up to the closing quote. -/
def readText : Nat → List Char → List Char → Except Failure (String × List Char)
  | 0, _, _ => malformed
  | _ + 1, _, [] => malformed
  | fuel + 1, done, '\\' :: rest =>
    match rest with
    | 'u' :: more =>
      match escaped? more with
      | some (c, rest') => readText fuel (c :: done) rest'
      | none => malformed
    | c :: rest' =>
      match c with
      | 'n' => readText fuel ('\n' :: done) rest'
      | 'r' => readText fuel ('\r' :: done) rest'
      | 't' => readText fuel ('\t' :: done) rest'
      | 'b' => readText fuel (Char.ofNat 8 :: done) rest'
      | 'f' => readText fuel (Char.ofNat 12 :: done) rest'
      | _ =>
        if c == '\\' || c == '/' || c == Text.doubleQuote then readText fuel (c :: done) rest'
        else malformed
    | [] => malformed
  | fuel + 1, done, c :: rest =>
    if c == Text.doubleQuote then .ok (String.ofList done.reverse, rest)
    else if c.toNat < 32 then malformed
    else readText fuel (c :: done) rest

def natural (cs : List Char) : Nat := cs.foldl (fun n c => 10 * n + (c.toNat - 48)) 0

/-- A point and at least one digit. -/
def readFraction (cs : List Char) : Option (List Char × List Char) :=
  match cs with
  | '.' :: rest =>
    match rest.span Char.isDigit with
    | ([], _) => none
    | found => some found
  | _ => none

/-- A power of ten with an optional sign. -/
def readPower (cs : List Char) : Option (Int × List Char) :=
  match cs with
  | e :: rest =>
    if e == 'e' || e == 'E' then
      let (negative, digits) :=
        match rest with
        | '-' :: more => (true, more)
        | '+' :: more => (false, more)
        | _ => (false, rest)
      match digits.span Char.isDigit with
      | ([], _) => none
      | (ds, rest') => some (if negative then -(natural ds : Int) else natural ds, rest')
    else none
  | [] => none

/-- The digits that come first. No other follows a zero. -/
def wholePart (cs : List Char) : List Char × List Char :=
  match cs with
  | '0' :: rest => (['0'], rest)
  | _ => cs.span Char.isDigit

def readNumber (negative : Bool) (cs : List Char) : Except Failure (Value × List Char) :=
  match wholePart cs with
  | ([], _) => malformed
  | (ds, rest) =>
    let fraction := readFraction rest
    let rest := (fraction.map (·.2)).getD rest
    let power := readPower rest
    let rest := (power.map (·.2)).getD rest
    match fraction, power with
    | none, none =>
      if ds.length > mostDigits then .error (.invalid .other)
      else .ok (.int (if negative then -(natural ds : Int) else natural ds), rest)
    | _, _ =>
      let decimals := (fraction.map (·.1)).getD []
      let e := (power.map (·.1)).getD 0 - decimals.length
      let x := Decimal.nearestDecimal (natural (ds ++ decimals)) e
      .ok (.float (if negative then -x else x), rest)

def word (w : String) (v : Value) (cs : List Char) : Except Failure (Value × List Char) :=
  if cs.take w.length == w.toList then .ok (v, cs.drop w.length) else malformed

def openBrace : Char := Char.ofNat 123

def closeBrace : Char := Char.ofNat 125

mutual

def readValue : Nat → List Char → Except Failure (Value × List Char)
  | 0, _ => malformed
  | fuel + 1, cs =>
    match cs with
    | 'n' :: _ => word "null" .absent cs
    | 't' :: _ => word "true" (.bool true) cs
    | 'f' :: _ => word "false" (.bool false) cs
    | 'N' :: _ => word "NaN" (.float (0 / 0)) cs
    | 'I' :: _ => word "Infinity" (.float (1 / 0)) cs
    | '-' :: 'I' :: _ => word "-Infinity" (.float (-1 / 0)) cs
    | '-' :: rest => readNumber true rest
    | '[' :: rest =>
      match skipGap rest with
      | ']' :: rest' => .ok (.list [], rest')
      | rest' => do
        let (items, rest'') ← readItems fuel [] rest'
        return (.list items, rest'')
    | c :: rest =>
      if c == Text.doubleQuote then do
        let (s, rest') ← readText (rest.length + 1) [] rest
        return (.text s, rest')
      else if c == openBrace then
        match skipGap rest with
        | d :: rest' =>
          if d == closeBrace then .ok (.dict [], rest')
          else do
            let (entries, rest'') ← readEntries fuel [] (d :: rest')
            return (.dict (Table.ofList entries).entries, rest'')
        | [] => malformed
      else readNumber false cs
    | [] => malformed

def readItems : Nat → List Value → List Char → Except Failure ((List Value) × List Char)
  | 0, _, _ => malformed
  | fuel + 1, done, cs => do
    let (v, rest) ← readValue fuel (skipGap cs)
    match skipGap rest with
    | ',' :: rest' => readItems fuel (v :: done) rest'
    | ']' :: rest' => return ((v :: done).reverse, rest')
    | _ => malformed

def readEntries : Nat → List (Value × Value) → List Char → Except Failure ((List (Value × Value)) × List Char)
  | 0, _, _ => malformed
  | fuel + 1, done, cs => do
    match skipGap cs with
    | q :: rest =>
      if q != Text.doubleQuote then malformed
      else
        let (key, rest') ← readText (rest.length + 1) [] rest
        match skipGap rest' with
        | ':' :: rest'' =>
          let (v, after) ← readValue fuel (skipGap rest'')
          let entry := (Value.text key, v)
          match skipGap after with
          | ',' :: more => readEntries fuel (entry :: done) more
          | c :: more =>
            if c == closeBrace then return ((entry :: done).reverse, more) else malformed
          | [] => malformed
        | _ => malformed
    | [] => malformed

end

/-- One value and nothing else. -/
def read (text : String) : Except Failure Value := do
  let cs := skipGap text.toList
  let (v, rest) ← readValue (2 * cs.length + 1) cs
  if (skipGap rest).isEmpty then return v else malformed

end ProbCore.Data
