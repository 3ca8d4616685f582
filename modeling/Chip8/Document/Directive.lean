import Chip8.Document.Tag

/-!
Directives, which stand in front of a document: its version, and what a tag handle stands for.
-/

namespace Chip8

inductive Directive
  | version (major minor : Nat)
  | handle (name : List Char) (expansion : List UInt8)

namespace Directive

open Character

/-- Reads a number of one to nine digits. -/
def number? (c : Cursor) : Option (Nat × Cursor) :=
  let digits := c.rest.takeWhile isDigit
  if digits.length < 10 then
    (Numeral.read? 10 digits).map fun n => (n, c.advance digits.length)
  else none

def version? (c : Cursor) : Option (Directive × Cursor) := do
  let (major, c) ← number? (c.skipWhile isBlank)
  if c.head? = some '.' then
    let (minor, c) ← number? c.skip
    some (.version major minor, c)
  else none

def handle? (fuel : Nat) (c : Cursor) : Option (Directive × Cursor) :=
  let c := c.skipWhile isBlank
  if c.head? = some '!' then
    let (name, c) := Tag.readWord c
    if (name = ['!'] ∨ Tag.isHandle name) ∧ c.head?.any isBlank then do
      let (expansion, c) ← Tag.nonemptySuffix? true fuel (c.skipWhile isBlank)
      if c.gapAfter 0 then some (.handle name (Tag.counted expansion), c) else none
    else none
  else none

/-- Reads a directive that starts with a percent sign, with the end of its line; from a text with
less than `fuel` characters left. -/
def read? (fuel : Nat) (c : Cursor) : Option (Directive × Cursor) := do
  let name := (c.rest.drop 1).takeWhile isWord
  let c := c.advance (name.length + 1)
  if !c.gapAfter 0 then none
  else do
    let (d, c) ←
      if name = ['Y', 'A', 'M', 'L'] then version? c
      else if name = ['T', 'A', 'G'] then handle? fuel c
      else none
    let c := c.skipComment
    if c.atLineEnd then some (d, c.skipBreak) else none

end Directive

end Chip8
