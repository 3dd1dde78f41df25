/-! Tables that keep their entries in order of insertion. -/

namespace ProbCore

/-- Keys with their values. A key written again keeps its place and its first spelling. -/
structure Table (α β : Type) where
  entries : List (α × β)

namespace Table

variable {α β : Type}

def empty : Table α β := ⟨[]⟩

instance : EmptyCollection (Table α β) := ⟨empty⟩
instance : Inhabited (Table α β) := ⟨empty⟩

def keys (t : Table α β) : List α := t.entries.map (·.1)

def size (t : Table α β) : Nat := t.entries.length

variable [BEq α]

def get? (t : Table α β) (key : α) : Option β :=
  (t.entries.find? (·.1 == key)).map (·.2)

def contains (t : Table α β) (key : α) : Bool := t.entries.any (·.1 == key)

private def put (key : α) (value : β) : List (α × β) → List (α × β)
  | [] => [(key, value)]
  | (k, v) :: rest => if k == key then (k, value) :: rest else (k, v) :: put key value rest

def insert (t : Table α β) (key : α) (value : β) : Table α β := ⟨put key value t.entries⟩

def erase (t : Table α β) (key : α) : Table α β := ⟨t.entries.eraseP (·.1 == key)⟩

/-- The table that the entries fill in turn. -/
def ofList (entries : List (α × β)) : Table α β :=
  entries.foldl (fun t (k, v) => t.insert k v) empty

end Table

end ProbCore
