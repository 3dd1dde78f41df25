import ProbCore.Data.Writer

/-! Keys by which returned values are grouped. Values of different kinds never share a key,
even where they compare equal. -/

namespace ProbCore.Value

inductive Kind where
  | absent | bool | int | float | text | list | tuple | dict | index | address | tensor | marginal
  | memo | function
  deriving DecidableEq, Repr

def kind : Value → Kind
  | absent => .absent
  | bool _ => .bool
  | int _ => .int
  | float _ | undefined _ => .float
  | text _ => .text
  | list _ => .list
  | tuple _ => .tuple
  | dict _ => .dict
  | index _ => .index
  | address _ => .address
  | tensor _ => .tensor
  | marginal _ => .marginal
  | memo .. => .memo
  | function _ => .function

/-- A tuple by the keys of its parts, a hashable value by itself and its kind, any other by
its kind and its canonical text. -/
inductive Key where
  | parts (keys : List Key)
  | atom (value : Value)
  | written (kind : Kind) (text : String)

mutual

/-- Whether two values belong to one group. A computed float that is no number is in a group of
its own each time it is returned, as `Value.beq` has it; one given from outside is known by its
mark. -/
def Key.beq : Key → Key → Bool
  | .parts as, .parts bs => Key.beqParts as bs
  | .atom a, .atom b => a.kind == b.kind && a == b
  | .written k s, .written l t => k == l && s == t
  | _, _ => false

def Key.beqParts : List Key → List Key → Bool
  | [], [] => true
  | a :: as, b :: bs => Key.beq a b && Key.beqParts as bs
  | _, _ => false

end

instance : BEq Key := ⟨Key.beq⟩

mutual

def key : Value → Except Failure Key
  | tuple xs => do return .parts (← keys xs)
  | memo table name => .ok (.atom (.memo table name))
  | v => if v.isHashable then .ok (.atom v) else do return .written v.kind (← Data.serialize v)

def keys : List Value → Except Failure (List Key)
  | [] => .ok []
  | x :: xs => do return (← key x) :: (← keys xs)

end

private def placeOf (k : Key) (seen : List Key) : Nat × List Key :=
  let place := seen.findIdx (· == k)
  (place, if place < seen.length then seen else seen ++ [k])

/-- For each value the number of its group, in order of first appearance. -/
def groupNumbers (vs : List Value) : List (Except Failure Nat) :=
  go vs []
where
  go : List Value → List Key → List (Except Failure Nat)
    | [], _ => []
    | v :: rest, seen =>
      match v.key with
      | .ok k =>
        let (place, seen) := placeOf k seen
        .ok place :: go rest seen
      | .error e => .error e :: go rest seen

/-- The name of a value in a histogram: itself when hashable, else its canonical text. -/
def label (v : Value) : Except Failure Value :=
  if v.isHashable then .ok v else do return .text (← Data.serialize v)

end ProbCore.Value
