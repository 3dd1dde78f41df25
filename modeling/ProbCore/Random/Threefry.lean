/-! A counter-based generator: a key and a counter are mixed in twenty rounds. The same key
and counter always give the same words, so a key stands for a whole stream. -/

namespace ProbCore.Random

structure Key where
  high : UInt32
  low : UInt32
  deriving DecidableEq, Repr

/-- The key that stands for a seed. -/
def Key.ofSeed (seed : Nat) : Key := ⟨0, seed.toUInt32⟩

private def rotateLeft (x : UInt32) (turn : UInt32) : UInt32 := (x <<< turn) ||| (x >>> (32 - turn))

private def mix (x : UInt32 × UInt32) (turn : UInt32) : UInt32 × UInt32 :=
  let sum := x.1 + x.2
  (sum, rotateLeft x.2 turn ^^^ sum)

private def turns (group : Nat) : List UInt32 :=
  if group % 2 == 0 then [13, 15, 26, 6] else [17, 29, 16, 24]

/-- Five groups of four rounds, each group closed by adding two words of the key schedule
and its number. -/
def threefry (key : Key) (x0 x1 : UInt32) : UInt32 × UInt32 :=
  let word := fun (i : Nat) =>
    match i % 3 with
    | 0 => key.high
    | 1 => key.low
    | _ => key.high ^^^ key.low ^^^ 0x1BD11BDA
  (List.range 5).foldl
    (fun x g =>
      let mixed := (turns g).foldl mix x
      (mixed.1 + word (g + 1), mixed.2 + word (g + 2) + (g + 1).toUInt32))
    (x0 + word 0, x1 + word 1)

private def Key.child (key : Key) (i : UInt32) : Key :=
  let (high, low) := threefry key 0 i
  ⟨high, low⟩

/-- Two new keys: one to keep splitting, one to draw with. -/
def Key.split (key : Key) : Key × Key := (key.child 0, key.child 1)

/-- Word `i` of the stream of a key. -/
def Key.bits (key : Key) (i : Nat) : UInt32 :=
  let (a, b) := threefry key 0 i.toUInt32
  a ^^^ b

end ProbCore.Random
