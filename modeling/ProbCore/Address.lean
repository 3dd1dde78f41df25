import ProbCore.Value.Equality
import ProbCore.Value.Literal

/-! Addresses name the points of a program's execution by the path of tokens that leads to
them. -/

namespace ProbCore

structure Address where
  tokens : List Value

namespace Address

def root : Address := ⟨[]⟩

def extend (a : Address) (token : Value) : Address := ⟨a.tokens ++ [token]⟩

/-- The address of one element of a collection. An element token equals no other token. -/
def element (a : Address) (position : Int) : Address := a.extend (.index (.int position))

instance : BEq Address := ⟨fun a b => Value.beqItems a.tokens b.tokens⟩

/-- Whether two tokens are equal or one object. A token that does not equal itself, such as a
float that is no number, passes for another one of its kind: an address that extends `base` has
the very tokens of `base`. -/
def sameToken (x y : Value) : Bool := x == y || (!(x == x) && !(y == y))

def sameTokens : List Value → List Value → Bool
  | [], [] => true
  | x :: xs, y :: ys => sameToken x y && sameTokens xs ys
  | _, _ => false

def startsWith (a base : Address) : Bool :=
  sameTokens (a.tokens.take base.tokens.length) base.tokens

/-- The rest of the path below `base`. -/
def relativeTo? (a base : Address) : Option Address :=
  if a.startsWith base then some ⟨a.tokens.drop base.tokens.length⟩ else none

/-- The rest of the path below `base`, or the whole path when it lies elsewhere. -/
def within (a base : Address) : Address := (a.relativeTo? base).getD a

def isHashable (a : Address) : Bool := Value.allHashable a.tokens

def text (a : Address) : String := Value.display (.address a.tokens)

end Address

end ProbCore
