import Chip8.Document.Gap
import Chip8.Numeral

/-!
Scalars in quotes. Line breaks in them are folded; between double quotes a backslash escapes.
-/

namespace Chip8.Quoted

open Character

/-- The character that a letter after a backslash stands for. -/
def escaped? : Char → Option Char
  | '0' => some '\x00'
  | 'a' => some '\x07'
  | 'b' => some '\x08'
  | 't' | '\t' => some '\x09'
  | 'n' => some '\x0a'
  | 'v' => some '\x0b'
  | 'f' => some '\x0c'
  | 'r' => some '\x0d'
  | 'e' => some '\x1b'
  | ' ' => some ' '
  | '\x22' => some '\x22'
  | '/' => some '/'
  | '\x5c' => some '\x5c'
  | 'N' => some '\u0085'
  | '_' => some '\u00a0'
  | 'L' => some '\u2028'
  | 'P' => some '\u2029'
  | _ => none

/-- The hexadecimal digits after a letter that escapes a code point. -/
def codeLength? : Char → Option Nat
  | 'x' => some 2
  | 'u' => some 4
  | 'U' => some 8
  | _ => none

/-- The character of a code point written in hexadecimal. -/
def codePoint? (digits : List Char) : Option Char := do
  let n ← Numeral.read? 16 digits
  if n.isValidChar then some (Char.ofNat n) else none

/-- Reads what follows a backslash on its line. -/
def escape? (c : Cursor) : Option (Char × Cursor) := do
  let letter ← c.head?
  match codeLength? letter with
  | some n =>
    let digits := (c.rest.drop 1).take n
    if digits.length = n then (codePoint? digits).map fun ch => (ch, c.advance (n + 1)) else none
  | none => (escaped? letter).map fun ch => (ch, c.skip)

/-- Reads characters in single quotes up to the next gap or quote, which may be the end of the
text, and puts them in front of the text already read, which stands in reverse. A quote inside is
written twice. -/
def singlePart : Nat → List Char → Cursor → List Char × Cursor
  | 0, text, c => (text, c)
  | fuel + 1, text, c =>
    match c.rest with
    | '\x27' :: '\x27' :: _ => singlePart fuel ('\x27' :: text) (c.advance 2)
    | ch :: _ =>
      if ch = '\x27' ∨ isBlankOrBreak ch then (text, c) else singlePart fuel (ch :: text) c.skip
    | [] => (text, c)

/-- The same in double quotes. A line break after a backslash ends the part too, and is left out:
then the result is marked. -/
def doublePart? : Nat → List Char → Cursor → Option (List Char × Bool × Cursor)
  | 0, _, _ => none
  | fuel + 1, text, c =>
    match c.rest with
    | [] => some (text, false, c)
    | '\x5c' :: rest =>
      if rest.head?.any isBreak then some (text, true, c.skip.skipBreak)
      else
        match escape? c.skip with
        | some (ch, c) => doublePart? fuel (ch :: text) c
        | none => none
    | ch :: _ =>
      if ch = '\x22' ∨ isBlankOrBreak ch then some (text, false, c)
      else doublePart? fuel (ch :: text) c.skip

def part? (quote : Char) (fuel : Nat) (text : List Char) (c : Cursor) :
    Option (List Char × Bool × Cursor) :=
  if quote = '\x22' then doublePart? fuel text c
  else
    let (text, c) := singlePart fuel text c
    some (text, false, c)

/-- Reads parts and the gaps between them up to the closing quote. -/
def parts? (quote : Char) : Nat → List Char → Cursor → Option (List Char × Cursor)
  | 0, _, _ => none
  | fuel + 1, text, c =>
    if c.atBoundary ∨ c.rest.isEmpty then none
    else
      match part? quote (fuel + 1) text c with
      | none => none
      | some (text, escaped, c) =>
        if c.head? = some quote then some (text.reverse, c.skip)
        else
          match Gap.read? 0 (fuel + 1) { escaped } c with
          | none => none
          | some (gap, c) => parts? quote fuel (gap.text ++ text) c

/-- Reads a scalar that starts with a quote, from a text with less than `fuel` characters left. -/
def read? (quote : Char) (fuel : Nat) (c : Cursor) : Option (List Char × Cursor) :=
  parts? quote fuel [] c.skip

end Chip8.Quoted
