import Chip8.Numeral

/-!
Glyphs of the sixteen hexadecimal digits, five rows of eight pixels each, packed together at the
start of memory.
-/

namespace Chip8.Font

/-- Address of the first glyph. -/
def start : Nat := 0

/-- Rows of a glyph. -/
def glyphHeight : Nat := 5

/-- Bytes of a complete set of glyphs. -/
def length : Nat := 16 * glyphHeight

/-- The glyphs that a machine starts with. -/
def builtin : List UInt8 := [
  0xF0, 0x90, 0x90, 0x90, 0xF0,
  0x20, 0x60, 0x20, 0x20, 0x70,
  0xF0, 0x10, 0xF0, 0x80, 0xF0,
  0xF0, 0x10, 0xF0, 0x10, 0xF0,
  0x90, 0x90, 0xF0, 0x10, 0x10,
  0xF0, 0x80, 0xF0, 0x10, 0xF0,
  0xF0, 0x80, 0xF0, 0x90, 0xF0,
  0xF0, 0x10, 0x20, 0x40, 0x40,
  0xF0, 0x90, 0xF0, 0x90, 0xF0,
  0xF0, 0x90, 0xF0, 0x10, 0xF0,
  0xF0, 0x90, 0xF0, 0x90, 0x90,
  0xE0, 0x90, 0xE0, 0x90, 0xE0,
  0xF0, 0x80, 0x80, 0x80, 0xF0,
  0xE0, 0x90, 0x90, 0x90, 0xE0,
  0xF0, 0x80, 0xF0, 0x80, 0xF0,
  0xF0, 0x80, 0xF0, 0x80, 0x80]

/-- The index value that points at the glyph of a register's value; the product fits sixteen bits
for every byte. -/
def address (digit : UInt8) : UInt16 :=
  UInt16.ofNat (start + digit.toNat * glyphHeight)

/-- What is said of a set of glyphs of the wrong length. -/
def lengthMessage (n : Nat) : String :=
  "fontset data must be " ++ Numeral.decimal length ++ " bytes, got " ++ Numeral.decimal n

end Chip8.Font
