import Chip8.Instruction

/-!
Instruction words. The highest nibble of a word selects its form; the other nibbles hold register
numbers `x` and `y`, a nibble, a byte or an address.
-/

namespace Chip8.Word

/-- The word of two bytes, high byte first. -/
def ofBytes (high low : UInt8) : UInt16 :=
  UInt16.ofNat (high.toNat * 256 + low.toNat)

def form (w : UInt16) : Nat :=
  w.toNat / 4096

def x (w : UInt16) : UInt8 :=
  UInt8.ofNat (w.toNat / 256 % 16)

def y (w : UInt16) : UInt8 :=
  UInt8.ofNat (w.toNat / 16 % 16)

def nibble (w : UInt16) : UInt8 :=
  UInt8.ofNat (w.toNat % 16)

def byte (w : UInt16) : UInt8 :=
  UInt8.ofNat (w.toNat % 256)

def address (w : UInt16) : UInt16 :=
  UInt16.ofNat (w.toNat % 4096)

end Chip8.Word

namespace Chip8.Instruction

/-- Form 8: the lowest nibble selects the operation, and shifts ignore `y`. -/
def arithmetic? (w : UInt16) : Option Instruction :=
  match w.toNat % 16 with
  | 0x0 => some (.combine .copy (Word.x w) (Word.y w))
  | 0x1 => some (.combine .or (Word.x w) (Word.y w))
  | 0x2 => some (.combine .and (Word.x w) (Word.y w))
  | 0x3 => some (.combine .xor (Word.x w) (Word.y w))
  | 0x4 => some (.combine .add (Word.x w) (Word.y w))
  | 0x5 => some (.combine .subtract (Word.x w) (Word.y w))
  | 0x6 => some (.shift .right (Word.x w))
  | 0x7 => some (.combine .subtractFrom (Word.x w) (Word.y w))
  | 0xE => some (.shift .left (Word.x w))
  | _ => none

/-- Form F: the low byte selects the operation. -/
def device? (w : UInt16) : Option Instruction :=
  match w.toNat % 256 with
  | 0x07 => some (.readDelay (Word.x w))
  | 0x0A => some (.awaitKey (Word.x w))
  | 0x15 => some (.setDelay (Word.x w))
  | 0x18 => some (.setSound (Word.x w))
  | 0x1E => some (.addToIndex (Word.x w))
  | 0x29 => some (.pointAtGlyph (Word.x w))
  | 0x33 => some (.storeDecimal (Word.x w))
  | 0x55 => some (.storeRegisters (Word.x w))
  | 0x65 => some (.loadRegisters (Word.x w))
  | _ => none

/-- The instruction that a word encodes. Form 5 ignores its lowest nibble; form B and machine
routines are not recognised. -/
def decode? (w : UInt16) : Option Instruction :=
  match Word.form w with
  | 0x0 => match w.toNat with
    | 0x00E0 => some .clearScreen
    | 0x00EE => some .ret
    | _ => none
  | 0x1 => some (.jump (Word.address w))
  | 0x2 => some (.call (Word.address w))
  | 0x3 => some (.skipIf (.equalsByte (Word.x w) (Word.byte w)))
  | 0x4 => some (.skipIf (.differsFromByte (Word.x w) (Word.byte w)))
  | 0x5 => some (.skipIf (.equals (Word.x w) (Word.y w)))
  | 0x6 => some (.loadByte (Word.x w) (Word.byte w))
  | 0x7 => some (.addByte (Word.x w) (Word.byte w))
  | 0x8 => arithmetic? w
  | 0x9 => if w.toNat % 16 = 0 then some (.skipIf (.differs (Word.x w) (Word.y w))) else none
  | 0xA => some (.loadIndex (Word.address w))
  | 0xC => some (.random (Word.x w) (Word.byte w))
  | 0xD => some (.draw (Word.x w) (Word.y w) (Word.nibble w))
  | 0xE => match w.toNat % 256 with
    | 0x9E => some (.skipIf (.keyDown (Word.x w)))
    | 0xA1 => some (.skipIf (.keyUp (Word.x w)))
    | _ => none
  | 0xF => device? w
  | _ => none

end Chip8.Instruction
