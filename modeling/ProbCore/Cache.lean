import ProbCore.Failure

/-! Caches of results by the text of their arguments. A bounded cache makes room by dropping
the entry that was used the longest time ago. -/

namespace ProbCore

/-- Entries from the least to the most recently used. -/
structure Cache (β : Type) where
  bound : Option Int
  entries : List (String × β)

namespace Cache

variable {β : Type}

def empty (bound : Option Int) : Cache β := ⟨bound, []⟩

def size (c : Cache β) : Nat := c.entries.length

def keys (c : Cache β) : List String := c.entries.map (·.1)

def contains (c : Cache β) (key : String) : Bool := c.entries.any (·.1 == key)

/-- A look that is no use. -/
def peek (c : Cache β) (key : String) : Except Failure β :=
  match c.entries.lookup key with
  | some v => .ok v
  | none => .error .unknownName

private def without (key : String) (entries : List (String × β)) : List (String × β) :=
  entries.filter (·.1 != key)

/-- The value and the cache with its entry as the most recently used. -/
def get (c : Cache β) (key : String) : Except Failure (β × Cache β) := do
  let v ← c.peek key
  return (v, { c with entries := without key c.entries ++ [(key, v)] })

def full (c : Cache β) : Bool :=
  match c.bound with
  | some n => n ≤ c.entries.length
  | none => false

/-- The cache with an entry written, and the key that was dropped to make room. Room can only
be made where there is an entry to drop. -/
def put (c : Cache β) (key : String) (value : β) : Except Failure (Cache β × Option String) :=
  if c.contains key then
    .ok ({ c with entries := without key c.entries ++ [(key, value)] }, none)
  else if c.full then
    match c.entries with
    | [] => .error .unknownName
    | (dropped, _) :: rest => .ok ({ c with entries := rest ++ [(key, value)] }, some dropped)
  else .ok ({ c with entries := c.entries ++ [(key, value)] }, none)

def clear (c : Cache β) : Cache β := { c with entries := [] }

end Cache

/-- Keys are texts. -/
def Value.cacheKey : Value → Except Failure String
  | .text s => .ok s
  | _ => .error .illTyped

end ProbCore
