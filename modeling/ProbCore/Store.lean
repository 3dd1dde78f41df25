import ProbCore.Failure
import ProbCore.Table

/-! The state of a program, passed along its execution. An update makes a new store, so an
execution resumed with an older one sees the older state. -/

namespace ProbCore

structure Store where
  data : Table Value Value

instance : Inhabited Store := ⟨⟨∅⟩⟩

namespace Store

def empty : Store := ⟨∅⟩

/-- Only hashable values are keys. -/
private def withKey {α : Type} (key : Value) (answer : α) : Except Failure α :=
  if key.isHashable then .ok answer else .error .illTyped

def get? (s : Store) (key : Value) : Except Failure (Option Value) := withKey key (s.data.get? key)

def set (s : Store) (key value : Value) : Except Failure Store :=
  withKey key ⟨s.data.insert key value⟩

def contains (s : Store) (key : Value) : Except Failure Bool := withKey key (s.data.contains key)

def item (s : Store) (key : Value) : Except Failure Value := do
  match ← s.get? key with
  | some v => pure v
  | none => throw .unknownName

def size (s : Store) : Nat := s.data.size

/-- Stores are equal when they hold equal entries, in any order. -/
instance : BEq Store := ⟨fun s t => Value.beq (.dict s.data.entries) (.dict t.data.entries)⟩

end Store

end ProbCore
