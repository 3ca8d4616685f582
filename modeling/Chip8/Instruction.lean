/-!
The instruction set: what a word that the machine recognises tells it to do. Registers are named
by number; operands of a decoded word are nibbles, bytes or twelve-bit addresses.
-/

namespace Chip8

/-- What a skip depends on. -/
inductive Condition
  | equalsByte (x byte : UInt8)
  | differsFromByte (x byte : UInt8)
  | equals (x y : UInt8)
  | differs (x y : UInt8)
  | keyDown (x : UInt8)
  | keyUp (x : UInt8)
  deriving DecidableEq

/-- An operation on two registers that leaves its result in the first. -/
inductive Arithmetic
  | copy
  | or
  | and
  | xor
  | add
  | subtract
  | subtractFrom
  deriving DecidableEq

/-- The end that a shift moves bits to. -/
inductive Direction
  | right
  | left
  deriving DecidableEq

inductive Instruction
  | clearScreen
  | ret
  | jump (address : UInt16)
  | call (address : UInt16)
  | skipIf (condition : Condition)
  | loadByte (x byte : UInt8)
  | addByte (x byte : UInt8)
  | combine (operation : Arithmetic) (x y : UInt8)
  | shift (direction : Direction) (x : UInt8)
  | loadIndex (address : UInt16)
  | random (x byte : UInt8)
  | draw (x y rows : UInt8)
  | readDelay (x : UInt8)
  | awaitKey (x : UInt8)
  | setDelay (x : UInt8)
  | setSound (x : UInt8)
  | addToIndex (x : UInt8)
  | pointAtGlyph (x : UInt8)
  | storeDecimal (x : UInt8)
  | storeRegisters (x : UInt8)
  | loadRegisters (x : UInt8)
  deriving DecidableEq

end Chip8
