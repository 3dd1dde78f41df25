import ProbCore.Data.Reader
import ProbCore.Data.Writer
import ProbCore.Dist.Array
import ProbCore.Value.Arithmetic

/-! Data files and what is shown on the screen. A file is its content, or missing. -/

namespace ProbCore.Data

abbrev File := Option String

/-- What is done with a file. -/
abbrev Access := EStateM Failure File

namespace Access

def ofExcept {α : Type} : Except Failure α → Access α
  | .ok x => pure x
  | .error e => throw e

end Access

namespace File

def content : Access String := do
  match ← get with
  | some text => return text
  | none => throw .noSuchFile

def readValue : Access Value := do Access.ofExcept (read (← content))

/-- Puts a value into the file. The whole text is made first. -/
def writeValue (v : Value) : Access Unit := do
  let text ← Access.ofExcept (write filed v)
  set (some text)

/-- A row of a data set as a column. -/
private def column (row : Value) : Except Failure Value := do
  let cells ←
    match row with
    | .text _ => throw (.invalid .other)
    | _ => Numbers.ofValue Numbers.toSingle row
  let n ← row.length
  if cells.cells.length != n then throw .illTyped
  return .tensor ⟨[n, 1], .reals cells.cells⟩

/-- A list of rows, each delivered as a column. -/
def readColumns : Access Value := do
  match (← readValue).items? with
  | some rows => return .list (← Access.ofExcept (rows.mapM column))
  | none => throw .illTyped

def remove : Access Unit := do
  let _ ← content
  set (none : File)

end File

private def comparable (keys : List Value) : Bool :=
  keys.all fun a => keys.all fun b => (Value.compareBy? .lt a b).isSome

mutual

/-- Dictionaries are shown with their keys in order. -/
private def arranged : Value → Except Failure Value
  | .list xs => do return .list (← arrangedAll xs)
  | .tuple xs => do return .tuple (← arrangedAll xs)
  | .dict es => do
    let entries ← arrangedEntries es
    if entries.length ≤ 1 || comparable (entries.map (·.1)) then
      return .dict (entries.mergeSort fun a b => Value.compareBy? .lt b.1 a.1 != some true)
    else throw (.invalid .other)
  | v => .ok v

private def arrangedAll : List Value → Except Failure (List Value)
  | [] => .ok []
  | x :: xs => do return (← arranged x) :: (← arrangedAll xs)

private def arrangedEntries : List (Value × Value) → Except Failure (List (Value × Value))
  | [] => .ok []
  | (k, v) :: rest => do return (k, ← arranged v) :: (← arrangedEntries rest)

end

private def shownText : Value → String
  | .tensor t => t.text
  | .text s => s
  | .index p => Value.display (.index p)
  | .address ts => Value.display (.address ts)
  | v => Value.literalWith Tensor.innerText v

/-- The line that shows some values. -/
def displayLine (vs : List Value) : Except Failure String := do
  let shown ← vs.mapM arranged
  return String.intercalate " " (shown.map shownText) ++ "\n"

end ProbCore.Data
