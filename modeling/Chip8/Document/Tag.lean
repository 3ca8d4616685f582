import Chip8.Document
import Chip8.Document.Cursor
import Chip8.Numeral

/-!
Tags, which name the type of a value, and the handles that shorten them. Their bytes may be written
in hexadecimal after a percent sign.
-/

namespace Chip8

structure Tag where
  /-- What the tag starts with in short; empty where it is written out. -/
  handle : List Char
  suffix : List UInt8

namespace Tag

open Character

def byte (c : Char) : UInt8 :=
  UInt8.ofNat c.toNat

def bytes (text : String) : List UInt8 :=
  text.toList.map byte

/-- Whether a tag may hold a character as it is. Commas and square brackets are for tags that are
written out. -/
def isPlain (writtenOut : Bool) (c : Char) : Bool :=
  isWord c ||
    c ∈ [';', '/', '?', ':', '@', '&', '=', '+', '$', '.', '!', '~', '*', '\x27', '(', ')'] ||
    (writtenOut && c ∈ [',', '[', ']'])

/-- Reads a byte in hexadecimal after a percent sign. -/
def octet? (c : Cursor) : Option (Nat × Cursor) :=
  match c.rest with
  | '%' :: a :: b :: _ => (Numeral.read? 16 [a, b]).map fun n => (n, c.advance 3)
  | _ => none

/-- The bytes of a character that starts with a byte. -/
def width? (n : Nat) : Option Nat :=
  if n < 0x80 then some 1
  else if n < 0xc0 then none
  else if n < 0xe0 then some 2
  else if n < 0xf0 then some 3
  else if n < 0xf8 then some 4
  else none

/-- Reads bytes that continue a character, and puts them in front of those already read. -/
def continuation? : Nat → List UInt8 → Cursor → Option (List UInt8 × Cursor)
  | 0, before, c => some (before, c)
  | n + 1, before, c =>
    match octet? c with
    | some (b, c) =>
      if 0x80 ≤ b ∧ b < 0xc0 then continuation? n (UInt8.ofNat b :: before) c else none
    | none => none

/-- Reads a character in hexadecimal. -/
def escape? (before : List UInt8) (c : Cursor) : Option (List UInt8 × Cursor) := do
  let (b, c) ← octet? c
  let width ← width? b
  continuation? (width - 1) (UInt8.ofNat b :: before) c

/-- Reads the bytes of a tag up to a character that it cannot hold, in front of those already read,
which stand in reverse. -/
def suffix? (writtenOut : Bool) : Nat → List UInt8 → Cursor → Option (List UInt8 × Cursor)
  | 0, _, _ => none
  | fuel + 1, before, c =>
    match c.head? with
    | none => some (before.reverse, c)
    | some ch =>
      if ch = '%' then
        match escape? before c with
        | some (before, c) => suffix? writtenOut fuel before c
        | none => none
      else if isPlain writtenOut ch then suffix? writtenOut fuel (byte ch :: before) c.skip
      else some (before.reverse, c)

/-- The same for bytes of which there has to be one. -/
def nonemptySuffix? (writtenOut : Bool) (fuel : Nat) (c : Cursor) :
    Option (List UInt8 × Cursor) := do
  let (suffix, c) ← suffix? writtenOut fuel [] c
  if suffix.isEmpty then none else some (suffix, c)

/-- Tags count up to their first zero byte. -/
def counted (bs : List UInt8) : List UInt8 :=
  bs.takeWhile (· != 0)

/-- The exclamation mark and the word after it, with the mark that may end it. -/
def readWord (c : Cursor) : List Char × Cursor :=
  let word := (c.rest.drop 1).takeWhile isWord
  let after := c.advance (word.length + 1)
  if after.head? = some '!' then ('!' :: word ++ ['!'], after.skip) else ('!' :: word, after)

/-- Whether a word names a handle, other than the one that is a mark alone. -/
def isHandle (word : List Char) : Bool :=
  1 < word.length && word.getLast? == some '!'

/-- Reads a tag that starts with an exclamation mark. -/
def token? (fuel : Nat) (c : Cursor) : Option (Tag × Cursor) :=
  if (c.rest.drop 1).head? = some '<' then do
    let (suffix, c) ← nonemptySuffix? true fuel (c.advance 2)
    if c.head? = some '>' then some (⟨[], counted suffix⟩, c.skip) else none
  else
    let (word, c) := readWord c
    if isHandle word then do
      let (suffix, c) ← nonemptySuffix? false fuel c
      some (⟨word, counted suffix⟩, c)
    else do
      let (suffix, c) ← suffix? false fuel ((word.drop 1).map byte).reverse c
      let suffix := counted suffix
      some (if suffix.isEmpty then ⟨[], [byte '!']⟩ else ⟨['!'], suffix⟩, c)

/-- Reads a tag with a gap after it, or with a comma inside brackets; from a text with less than
`fuel` characters left. -/
def read? (bracketed : Bool) (fuel : Nat) (c : Cursor) : Option (Tag × Cursor) := do
  let (t, c) ← token? fuel c
  if c.gapAfter 0 ∨ (bracketed ∧ c.head? = some ',') then some (t, c) else none

/-- What the handles stand for that need no directive. -/
def standardHandles : List (List Char × List UInt8) :=
  [(['!'], [byte '!']), (['!', '!'], bytes Document.standardTag)]

/-- The tag in full; empty if its bytes are no text. -/
def fullName? (handles : List (List Char × List UInt8)) (t : Tag) : Option String := do
  let start ← if t.handle = [] then some [] else handles.lookup t.handle
  some ((String.fromUTF8? ⟨(start ++ t.suffix).toArray⟩).getD "")

end Tag

end Chip8
