import ProbCore.Value.Basic
import ProbCore.Failure

/-! Which reports are shown: levels by name, and a filter that quiets other libraries. -/

namespace ProbCore.Logging

/-- What an upper-case word of the logging vocabulary stands for. -/
inductive Meaning where
  | level (number : Int)
  | words
  | styles

private def vocabulary : List (String × Meaning) :=
  [("CRITICAL", .level 50), ("FATAL", .level 50), ("ERROR", .level 40), ("WARNING", .level 30),
   ("WARN", .level 30), ("INFO", .level 20), ("DEBUG", .level 10), ("NOTSET", .level 0),
   ("BASIC_FORMAT", .words), ("_STYLES", .styles)]

/-- Upper case, with the two letters outside ASCII whose capitals are inside it. -/
private def capital (c : Char) : Char :=
  if c.toNat == 0x131 then 'I' else if c.toNat == 0x17f then 'S' else c.toUpper

/-- The level that a name stands for in any case; unknown names stand for `INFO`. A word of
the vocabulary that is no level is refused. -/
def levelOf (name : Value) : Except Failure Int :=
  match name with
  | .text s =>
    match vocabulary.lookup (String.ofList (s.toList.map capital)) with
    | none => .ok 20
    | some (.level n) => .ok n
    | some .words => .error (.invalid .other)
    | some .styles => .error .illTyped
  | _ => .error .illTyped

/-- A logger set up with one handler. -/
structure Setup where
  level : Int
  handlers : Nat
  filters : List String

def setup (level logger : Value) : Except Failure Setup := do
  let n ← levelOf level
  match logger with
  | .text _ | .absent => return ⟨n, 1, ["LibraryLogFilter"]⟩
  | _ => throw .illTyped

/-- Keeps reports of the named libraries below a threshold from being shown. -/
structure LibraryFilter where
  libraries : List String
  threshold : Int

def LibraryFilter.usual : LibraryFilter := ⟨["jax", "jaxlib", "absl"], 30⟩

/-- The part of a reporter's name before the first point. -/
def library (name : String) : String := String.ofList (name.toList.takeWhile (· != '.'))

def LibraryFilter.passes (f : LibraryFilter) (name : String) (level : Int) : Bool :=
  !f.libraries.contains (library name) || f.threshold ≤ level

private def textOf : Value → Except Failure String
  | .text s => .ok s
  | _ => .error .illTyped

/-- A filter from settings that may be left open. -/
def LibraryFilter.make (libraries threshold : Value) : Except Failure LibraryFilter := do
  let names ←
    match libraries with
    | .absent => pure usual.libraries
    | .list xs | .tuple xs => xs.mapM textOf
    | _ => throw .illTyped
  let bar ←
    match threshold with
    | .absent => pure usual.threshold
    | v =>
      match v.int? with
      | some n => pure n
      | none => throw .illTyped
  return ⟨names, bar⟩

end ProbCore.Logging
