import Chip8.Document.Character

/-!
Places in a text: what is left of it, and the line and column where that starts.
-/

namespace Chip8

structure Cursor where
  rest : List Char
  offset : Nat := 0
  line : Nat := 0
  column : Nat := 0

namespace Cursor

open Character

def head? (c : Cursor) : Option Char :=
  c.rest.head?

/-- Moves past characters of one line. -/
def advance : Nat → Cursor → Cursor
  | 0, c => c
  | n + 1, c =>
    match c.rest with
    | [] => c
    | ch :: rest => advance n ⟨rest, c.offset + ch.utf8Size, c.line, c.column + 1⟩

def skip (c : Cursor) : Cursor :=
  c.advance 1

def skipWhile (p : Char → Bool) (c : Cursor) : Cursor :=
  c.advance (c.rest.takeWhile p).length

/-- Moves to the start of the next line; a carriage return and a line feed are one break. -/
def skipBreak (c : Cursor) : Cursor :=
  match c.rest with
  | '\x0d' :: '\n' :: rest => ⟨rest, c.offset + 2, c.line + 1, 0⟩
  | ch :: rest => if isBreak ch then ⟨rest, c.offset + ch.utf8Size, c.line + 1, 0⟩ else c
  | [] => c

def skipComment (c : Cursor) : Cursor :=
  let c := c.skipWhile isBlank
  if c.head? = some '#' then c.skipWhile fun ch => !isBreak ch else c

def atBreak (c : Cursor) : Bool :=
  c.head?.any isBreak

/-- Whether the text ends or a line break follows. -/
def atLineEnd (c : Cursor) : Bool :=
  c.head?.all isBreak

/-- Whether the text ends or a blank or a line break follows after `n` characters. -/
def gapAfter (n : Nat) (c : Cursor) : Bool :=
  (c.rest.drop n).head?.all isBlankOrBreak

/-- Whether a line starts with three marks that stand alone. -/
def atMarker (mark : Char) (c : Cursor) : Bool :=
  c.column == 0 && c.rest.take 3 == [mark, mark, mark] && c.gapAfter 3

def atBoundary (c : Cursor) : Bool :=
  c.atMarker '-' || c.atMarker '.'

end Cursor

end Chip8
