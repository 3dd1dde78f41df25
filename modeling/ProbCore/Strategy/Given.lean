import ProbCore.Value.Basic

/-! Settings as their user wrote them. -/

namespace ProbCore

/-- A setting together with its spelling, which messages repeat. -/
structure Given (α : Type) where
  val : α
  shown : Value

def Given.count (n : Nat) : Given Nat := ⟨n, .int n⟩

end ProbCore
