import ProbCore.Failure
import ProbCore.Value.Order

/-! Values as text in the notation of data files. -/

namespace ProbCore.Data

/-- How values are written: what stands between items and after keys, whether the keys of a
dictionary are sorted, whether values that the notation lacks are written as text, and how many
digits an integer may have. -/
structure Style where
  betweenItems : String
  afterKey : String
  sortKeys : Bool
  foreignAsText : Bool
  digitLimit : Option Nat

/-- Integers of more digits than this are not exchanged with files. -/
def mostDigits : Nat := 4300

/-- One text for equal data: no blanks, keys in order, everything writable. -/
def canonical : Style := ⟨",", ":", true, true, none⟩

/-- The layout of files: a blank after each separator, keys as inserted, data only. -/
def filed : Style := ⟨", ", ": ", false, false, some mostDigits⟩

/-- An integer in base ten, unless it has too many digits. -/
def intText (style : Style) (n : Int) : Except Failure String :=
  match style.digitLimit with
  | none => .ok (toString n)
  | some most => if (toString n.natAbs).length ≤ most then .ok (toString n) else .error (.invalid .other)

def numberText (x : Float) : String := Decimal.floatText Decimal.dataFormat x

def truthText (b : Bool) : String := if b then "true" else "false"

/-- The text of a key; keys that are not texts are written as if they were. -/
def keyText (style : Style) : Value → Except Failure String
  | .text s => .ok s
  | .absent => .ok "null"
  | .bool b => .ok (truthText b)
  | .int n => intText style n
  | .float x => .ok (numberText x)
  | .undefined _ => .ok (numberText (0 / 0))
  | _ => .error .illTyped

/-- All texts or all numbers: keys that can be put in order. -/
def orderable (keys : List Value) : Bool :=
  keys.length ≤ 1
    || keys.all (fun k => match k with | .text _ => true | _ => false)
    || keys.all (fun k => k.number?.isSome)

def inOrder {α : Type} (a b : Value × α) : Bool :=
  (Value.compareBy? .lt b.1 a.1) != some true

def arrange {α : Type} (style : Style) (entries : List (Value × α)) :
    Except Failure (List (Value × α)) :=
  if !style.sortKeys then .ok entries
  else if orderable (entries.map (·.1)) then .ok (entries.mergeSort inOrder)
  else .error .illTyped

def bracketed (style : Style) (items : List String) : String :=
  "[" ++ String.intercalate style.betweenItems items ++ "]"

def braced (style : Style) (entries : List (String × String)) : String :=
  "\x7b"
    ++ String.intercalate style.betweenItems
      (entries.map fun (k, v) => Text.quoted k ++ style.afterKey ++ v)
    ++ "\x7d"

def cellTexts : Cells → List String
  | .reals xs => xs.map numberText
  | .ints ns => ns.map toString
  | .flags bs => bs.map truthText

def arrayText (style : Style) (shape : List Nat) (cells : List String) : String :=
  match shape with
  | [] => cells.headD "null"
  | n :: inner =>
    let step := Tensor.size inner
    bracketed style ((List.range n).map fun i =>
      arrayText style inner ((cells.drop (i * step)).take step))

def foreign (style : Style) (text : String) : Except Failure String :=
  if style.foreignAsText then .ok (Text.quoted text) else .error .illTyped

mutual

def write (style : Style) : Value → Except Failure String
  | .absent => .ok "null"
  | .bool b => .ok (truthText b)
  | .int n => intText style n
  | .float x => .ok (numberText x)
  | .undefined _ => .ok (numberText (0 / 0))
  | .text s => .ok (Text.quoted s)
  | .list xs | .tuple xs => do return bracketed style (← writeItems style xs)
  | .dict es => do
    let entries ← arrange style (← writeEntries style es)
    return braced style (← entries.mapM fun (k, v) => do return (← keyText style k, v))
  | .tensor t => .ok (arrayText style t.shape (cellTexts t.cells))
  | .index p => foreign style (Value.display (.index p))
  | .address ts => foreign style (Value.display (.address ts))
  | .marginal m => foreign style (Value.literal (.marginal m))
  | .memo table name => foreign style (Value.literal (.memo table name))
  | .function name => foreign style (Value.literal (.function name))

def writeItems (style : Style) : List Value → Except Failure (List String)
  | [] => .ok []
  | x :: xs => do return (← write style x) :: (← writeItems style xs)

/-- The entries with their values written and their keys as they are. -/
def writeEntries (style : Style) : List (Value × Value) → Except Failure (List (Value × String))
  | [] => .ok []
  | (k, v) :: rest => do return (k, ← write style v) :: (← writeEntries style rest)

end

/-- The canonical text, by which arguments and unhashable values are told apart. -/
def serialize (v : Value) : Except Failure String := write canonical v

end ProbCore.Data
