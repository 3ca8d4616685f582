import Chip8.Document.Cursor
import Chip8.Numeral

/-!
Scalars that are blocks of indented lines. Their header tells whether line breaks are kept or
folded, what becomes of those at the end, and maybe the indentation.
-/

namespace Chip8.Block

open Character

/-- What becomes of the line breaks at the end. -/
inductive Ending
  | dropped
  | single
  | kept
  deriving DecidableEq

structure Header where
  ending : Ending := .single
  /-- The indentation relative to that of the surroundings, where it is given. -/
  indentation : Option Nat := none

def ending? (c : Cursor) : Option (Ending × Cursor) :=
  match c.head? with
  | some '+' => some (.kept, c.skip)
  | some '-' => some (.dropped, c.skip)
  | _ => none

def digit? (c : Cursor) : Option (Nat × Cursor) :=
  match c.head? with
  | some ch => if isDigit ch then (Numeral.digitValue? ch).map fun d => (d, c.skip) else none
  | none => none

/-- Reads the ending and the indentation, in either order and both optional. -/
def indicators (c : Cursor) : Header × Cursor :=
  match ending? c with
  | some (ending, c) =>
    match digit? c with
    | some (d, c) => (⟨ending, some d⟩, c)
    | none => (⟨ending, none⟩, c)
  | none =>
    match digit? c with
    | some (d, c) =>
      match ending? c with
      | some (ending, c) => (⟨ending, some d⟩, c)
      | none => (⟨.single, some d⟩, c)
    | none => ({}, c)

def header? (c : Cursor) : Option (Header × Cursor) :=
  let (h, c) := indicators c.skip
  let c := c.skipComment
  if h.indentation = some 0 ∨ !c.atLineEnd then none else some (h, c.skipBreak)

/-- Moves past the spaces left of the column `indent`, or past all while it is not known. -/
def skipIndent (indent : Option Nat) (c : Cursor) : Cursor :=
  let spaces := (c.rest.takeWhile (· == ' ')).length
  match indent with
  | none => c.advance spaces
  | some n => c.advance (if n - c.column < spaces then n - c.column else spaces)

/-- Reads the breaks of blank lines, the last one first, up to the indentation of a line that is
not blank; gives also the widest indentation. No tab may stand left of the column `indent`. -/
def breaks? (indent : Option Nat) :
    Nat → List Char → Nat → Cursor → Option (List Char × Nat × Cursor)
  | 0, _, _, _ => none
  | fuel + 1, breaks, widest, c =>
    let c := skipIndent indent c
    let widest := if widest < c.column then c.column else widest
    if c.head? = some '\t' ∧ indent.all (c.column < ·) then none
    else if c.atBreak then
      breaks? indent fuel ((c.head?.map breakText).toList ++ breaks) widest c.skipBreak
    else some (breaks, widest, c)

/-- What has been read of a block: the text, the break of its last line, and the breaks of the
blank lines after that, all in reverse. -/
structure Lines where
  text : List Char := []
  lastBreak : List Char := []
  blankLines : List Char := []
  blankStart : Bool := false

/-- The text up to the start of a further line. In a folded block a single break between lines that
start without blanks is a space, and of several the first is dropped. -/
def Lines.joined (folded blankStart : Bool) (l : Lines) : List Char :=
  if folded ∧ l.lastBreak = ['\n'] ∧ !l.blankStart ∧ !blankStart then
    if l.blankLines.isEmpty then ' ' :: l.text else l.blankLines ++ l.text
  else l.blankLines ++ (l.lastBreak ++ l.text)

/-- Reads the lines that are indented up to the column `indent`. -/
def lines? (folded : Bool) (indent : Nat) : Nat → Lines → Cursor → Option (Lines × Cursor)
  | 0, _, _ => none
  | fuel + 1, l, c =>
    if c.column ≠ indent ∨ c.rest.isEmpty then some (l, c)
    else
      let blankStart := c.head?.any isBlank
      let line := c.rest.takeWhile fun ch => !isBreak ch
      let c := c.advance line.length
      let text := line.reverse ++ l.joined folded blankStart
      let lastBreak := (c.head?.map breakText).toList
      match breaks? (some indent) (fuel + 1) [] 0 c.skipBreak with
      | none => none
      | some (blankLines, _, c) =>
        lines? folded indent fuel { text, lastBreak, blankLines, blankStart } c

/-- The text of a block after its ending is treated as the header tells. -/
def Lines.ended (ending : Ending) (l : Lines) : List Char :=
  match ending with
  | .dropped => l.text.reverse
  | .single => (l.lastBreak ++ l.text).reverse
  | .kept => (l.blankLines ++ (l.lastBreak ++ l.text)).reverse

/-- Reads a block from its header on, from a text with less than `fuel` characters left. It is
indented at least up to the column `least`; an indentation that is given counts from the column
`base` of the surroundings. -/
def read? (folded : Bool) (base least fuel : Nat) (c : Cursor) : Option (List Char × Cursor) := do
  let (h, c) ← header? c
  let given := h.indentation.map (base + ·)
  let (blankLines, widest, c) ← breaks? given fuel [] 0 c
  let least := if least = 0 then 1 else least
  let indent := given.getD (if widest < least then least else widest)
  let (l, c) ← lines? folded indent fuel { blankLines } c
  some (l.ended h.ending, c)

end Chip8.Block
