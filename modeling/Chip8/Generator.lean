import Chip8.Generator.Keystream

/-!
The source of random bytes: a key and the number of keystream words used so far.
-/

namespace Chip8

structure Generator where
  key : Keystream.Key
  position : Nat := 0

namespace Generator

/-- One step of the linear congruence that spreads a seed over a key. -/
def advance (state : UInt64) : UInt64 :=
  state * 6364136223846793005 + 11634580027462260723

/-- The word that a state of the congruence gives: a mixture of its high bits, turned right by its
highest five. -/
def scrambled (state : UInt64) : UInt32 :=
  let mixed := ((state >>> 18 ^^^ state) >>> 27).toUInt32
  let turn := (state >>> 59).toUInt32
  mixed >>> turn ||| mixed <<< (32 - turn)

/-- The state of the congruence after `n` steps. -/
def stateAfter (seed : UInt64) : Nat → UInt64
  | 0 => seed
  | n + 1 => advance (stateAfter seed n)

/-- The generator of a seed. -/
def ofSeed (seed : UInt64) : Generator :=
  ⟨Vector.ofFn fun k : Fin 8 => scrambled (stateAfter seed (k.val + 1)), 0⟩

/-- The next word, and the generator past it. -/
def next (g : Generator) : UInt32 × Generator :=
  (Keystream.word g.key g.position, { g with position := g.position + 1 })

/-- The low byte of the next word, and the generator past it. -/
def nextByte (g : Generator) : UInt8 × Generator :=
  (g.next.1.toUInt8, g.next.2)

end Generator

end Chip8
