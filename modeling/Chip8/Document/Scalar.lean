import Chip8.Document
import Chip8.Document.Tag
import Chip8.Numeral

/-!
Scalars as they are written, and what they mean.
-/

namespace Chip8

namespace Scalar

inductive Style
  | plain
  | quoted
  | literal
  | folded
  deriving DecidableEq

end Scalar

structure Scalar where
  style : Scalar.Style
  text : String
  tag : Option String := none
  deriving DecidableEq

namespace Scalar

/-- The scalar of a value that is left out. -/
def missing : Scalar :=
  { style := .plain, text := "" }

def isMissing (s : Scalar) : Bool :=
  s.style == .plain && s.text.isEmpty

/-- Whether a numeral with further digits starts with zero, in which case it is text. -/
def hasLeadingZero (cs : List Char) : Bool :=
  match cs with
  | '0' :: c :: rest => (c :: rest).all Character.isDigit
  | _ => false

/-- Reads an unsigned number: decimal, or in base 16, 8 or 2 after `0x`, `0o` or `0b`. -/
def natural? (cs : List Char) : Option Nat :=
  let unsigned := match cs with
    | '+' :: rest => rest
    | cs => cs
  match unsigned with
  | '0' :: 'x' :: rest => Numeral.read? 16 rest
  | '0' :: 'o' :: rest => Numeral.read? 8 rest
  | '0' :: 'b' :: rest => Numeral.read? 2 rest
  | _ => if hasLeadingZero unsigned then none else Numeral.read? 10 unsigned

/-- The number that a text stands for, or the text. -/
def number (text : String) : Document :=
  match natural? text.toList with
  | some n => .natural n
  | none => .text text

/-- The meaning without the tag: of plain scalars a word for nothing, a number or text; of literal
ones a number if the tag asks for one. -/
def untagged (s : Scalar) : Document :=
  match s.style with
  | .plain =>
    if s.text ∈ ["~", "null", "Null", "NULL"] then .null
    else if s.text.isEmpty ∧ s.tag ≠ some Document.nullTag then .null
    else number s.text
  | .literal => if s.tag = some Document.integerTag then number s.text else .text s.text
  | .quoted | .folded => .text s.text

def document (s : Scalar) : Document :=
  match s.tag with
  | none => s.untagged
  | some tag => .tagged tag s.untagged

end Scalar

end Chip8
