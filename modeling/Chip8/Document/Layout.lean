import Chip8.Document.Block
import Chip8.Document.Plain
import Chip8.Document.Quoted
import Chip8.Document.Token

/-!
From text to tokens. Whether a scalar or a bracket starts a key is known only at the colon after it,
which stands on the same line and at most 1024 bytes later; then the token for the key is put in
front of it.
-/

namespace Chip8

namespace Layout

structure Candidate where
  index : Nat
  start : Cursor
  /-- Whether nothing but a key can stand there. -/
  required : Bool

def keyReach : Nat := 1024

/-- Whether a colon at a place would come too late for a key. -/
def Candidate.isStale (k : Candidate) (c : Cursor) : Bool :=
  k.start.line < c.line || k.start.offset + keyReach < c.offset

end Layout

/-- The tokens read so far, and what is open at a place. -/
structure Layout where
  cursor : Cursor
  /-- The last one first. -/
  tokens : List Token := []
  count : Nat := 0
  /-- The columns of the lists and records by indentation, the innermost first. -/
  columns : List Nat := []
  /-- The key that may have started in the innermost brackets or outside of all. -/
  candidate : Option Layout.Candidate := none
  /-- The same for what surrounds each open bracket, the innermost first. -/
  surroundings : List (Option Layout.Candidate) := []
  keyAllowed : Bool := true

namespace Layout

open Character

def bracketed (s : Layout) : Bool :=
  !s.surroundings.isEmpty

/-- The column of a line that belongs to the innermost list or record. -/
def innerColumn (s : Layout) : Nat :=
  match s.columns with
  | [] => 0
  | column :: _ => column + 1

def emit (t : Token) (s : Layout) : Layout :=
  { s with tokens := t :: s.tokens, count := s.count + 1 }

/-- Puts a token after the first `index` tokens. -/
def insert (index : Nat) (t : Token) (s : Layout) : Layout :=
  let later := s.count - index
  { s with tokens := s.tokens.take later ++ t :: s.tokens.drop later, count := s.count + 1 }

def emitPast (n : Nat) (t : Token) (s : Layout) : Layout :=
  { s.emit t with cursor := s.cursor.advance n }

/-- Starts a list or record in a column, unless one is open there or right of it. -/
def indent (column index : Nat) (t : Token) (s : Layout) : Layout :=
  if s.bracketed ∨ s.columns.head?.any (column ≤ ·) then s
  else { s.insert index t with columns := column :: s.columns }

/-- Ends the innermost lists and records up to one whose column stays open. -/
def dedent (staysOpen : Nat → Bool) (s : Layout) : Layout :=
  if s.bracketed then s
  else
    let ended := (s.columns.takeWhile fun column => !staysOpen column).length
    { s with
      columns := s.columns.drop ended
      tokens := List.replicate ended .dedent ++ s.tokens
      count := s.count + ended }

/-- Gives up the candidate for a key, unless it is required. -/
def dropCandidate? (s : Layout) : Option Layout :=
  if s.candidate.any (·.required) then none else some { s with candidate := none }

/-- Gives up the candidate for a key if it is too far back. -/
def dropStale? (s : Layout) : Option Layout :=
  if s.candidate.any (·.isStale s.cursor) then s.dropCandidate? else some s

/-- Makes this place the candidate for a key, if one may start here. -/
def noteCandidate? (s : Layout) : Option Layout :=
  if s.keyAllowed then
    let required := !s.bracketed && s.columns.head? == some s.cursor.column
    s.dropCandidate?.map fun s => { s with candidate := some ⟨s.count, s.cursor, required⟩ }
  else some s

/-- Moves past blanks, comments and line breaks. No tab may stand where indentation counts. -/
def skipToToken : Nat → Layout → Layout
  | 0, s => s
  | fuel + 1, s =>
    let c := s.cursor
    let c := if c.column = 0 ∧ c.head? = some byteOrderMark then c.skip else c
    let c := c.skipWhile fun ch => ch == ' ' || (ch == '\t' && (s.bracketed || !s.keyAllowed))
    let c := if c.head? = some '#' then c.skipWhile fun ch => !isBreak ch else c
    if c.atBreak then
      skipToToken fuel { s with cursor := c.skipBreak, keyAllowed := s.keyAllowed || !s.bracketed }
    else { s with cursor := c }

def directive? (fuel : Nat) (s : Layout) : Option Layout := do
  let s ← (s.dedent fun _ => false).dropCandidate?
  let (d, c) ← Directive.read? fuel s.cursor
  some { s.emit (.directive d) with cursor := c, keyAllowed := false }

/-- Reads the three marks where a document starts or ends. -/
def boundary? (t : Token) (s : Layout) : Option Layout := do
  let s ← (s.dedent fun _ => false).dropCandidate?
  some { s.emitPast 3 t with keyAllowed := false }

def openBracket? (t : Token) (s : Layout) : Option Layout := do
  let s ← s.noteCandidate?
  some { s.emitPast 1 t with
    candidate := none
    surroundings := s.candidate :: s.surroundings
    keyAllowed := true }

def closeBracket? (t : Token) (s : Layout) : Option Layout := do
  let s ← s.dropCandidate?
  some { s.emitPast 1 t with
    candidate := s.surroundings.head?.join
    surroundings := s.surroundings.tail
    keyAllowed := false }

def comma? (s : Layout) : Option Layout := do
  let s ← s.dropCandidate?
  some { s.emitPast 1 .comma with keyAllowed := true }

def dash? (s : Layout) : Option Layout :=
  if !s.bracketed ∧ !s.keyAllowed then none
  else do
    let s ← (s.indent s.cursor.column s.count .indentedList).dropCandidate?
    some { s.emitPast 1 .dash with keyAllowed := true }

/-- Reads the question mark in front of a key. -/
def key? (s : Layout) : Option Layout :=
  if !s.bracketed ∧ !s.keyAllowed then none
  else do
    let s ← (s.indent s.cursor.column s.count .indentedRecord).dropCandidate?
    some { s.emitPast 1 .key with keyAllowed := !s.bracketed }

/-- Reads the colon after a key. -/
def value? (s : Layout) : Option Layout :=
  match s.candidate with
  | some k =>
    let s := (s.insert k.index .key).indent k.start.column k.index .indentedRecord
    some { s.emitPast 1 .value with candidate := none, keyAllowed := false }
  | none =>
    if !s.bracketed ∧ !s.keyAllowed then none
    else
      let s := s.indent s.cursor.column s.count .indentedRecord
      some { s.emitPast 1 .value with keyAllowed := !s.bracketed }

/-- Reads the name of an anchor or alias after its mark. -/
def named? (t : List Char → Token) (s : Layout) : Option Layout := do
  let s ← s.noteCandidate?
  let name := (s.cursor.rest.drop 1).takeWhile isWord
  let after := s.cursor.advance (name.length + 1)
  if !name.isEmpty ∧ (after.gapAfter 0 ∨
      after.head?.any (· ∈ ['?', ':', ',', ']', '\x7d', '%', '@', '\x60'])) then
    some { s.emit (t name) with cursor := after, keyAllowed := false }
  else none

def tag? (fuel : Nat) (s : Layout) : Option Layout := do
  let s ← s.noteCandidate?
  let (t, c) ← Tag.read? s.bracketed fuel s.cursor
  some { s.emit (.tag t) with cursor := c, keyAllowed := false }

def block? (style : Scalar.Style) (fuel : Nat) (s : Layout) : Option Layout := do
  let s ← s.dropCandidate?
  let base := s.columns.head?.getD 0
  let (text, c) ← Block.read? (style == .folded) base s.innerColumn fuel s.cursor
  some { s.emit (.scalar style (String.ofList text)) with cursor := c, keyAllowed := true }

def quoted? (quote : Char) (fuel : Nat) (s : Layout) : Option Layout := do
  let s ← s.noteCandidate?
  let (text, c) ← Quoted.read? quote fuel s.cursor
  some { s.emit (.scalar .quoted (String.ofList text)) with cursor := c, keyAllowed := false }

def plain? (fuel : Nat) (s : Layout) : Option Layout := do
  let s ← s.noteCandidate?
  let (text, broken, c) ← Plain.read? s.innerColumn s.bracketed fuel s.cursor
  some { s.emit (.scalar .plain (String.ofList text)) with cursor := c, keyAllowed := broken }

/-- Reads the token that starts with a character, from a text with less than `fuel` characters
left. -/
def next? (fuel : Nat) (ch : Char) (s : Layout) : Option Layout :=
  let marked := s.bracketed || s.cursor.gapAfter 1
  if s.cursor.column = 0 ∧ ch = '%' then s.directive? fuel
  else if s.cursor.atMarker '-' then s.boundary? .documentStart
  else if s.cursor.atMarker '.' then s.boundary? .documentEnd
  else if ch = '[' then s.openBracket? .listStart
  else if ch = '\x7b' then s.openBracket? .recordStart
  else if ch = ']' then s.closeBracket? .listEnd
  else if ch = '\x7d' then s.closeBracket? .recordEnd
  else if ch = ',' then s.comma?
  else if ch = '-' ∧ s.cursor.gapAfter 1 then s.dash?
  else if ch = '?' ∧ marked then s.key?
  else if ch = ':' ∧ marked then s.value?
  else if ch = '*' then s.named? .alias
  else if ch = '&' then s.named? .anchor
  else if ch = '!' then s.tag? fuel
  else if ch = '|' ∧ !s.bracketed then s.block? .literal fuel
  else if ch = '>' ∧ !s.bracketed then s.block? .folded fuel
  else if ch = '\x27' ∨ ch = '\x22' then s.quoted? ch fuel
  else if Plain.startsAt s.bracketed s.cursor then s.plain? fuel
  else none

/-- Reads the tokens up to the end of a text with less than `fuel` characters left. -/
def tokens? : Nat → Layout → Option (List Token)
  | 0, _ => none
  | fuel + 1, s =>
    match (s.skipToToken (fuel + 1)).dropStale? with
    | none => none
    | some s =>
      let s := s.dedent (· ≤ s.cursor.column)
      match s.cursor.head? with
      | none => (s.dedent fun _ => false).dropCandidate?.map (·.tokens.reverse)
      | some ch =>
        match s.next? (fuel + 1) ch with
        | none => none
        | some s => tokens? fuel s

end Layout

def Token.ofText? (text : List Char) : Option (List Token) :=
  if text.all Character.isAllowed then
    Layout.tokens? (text.length + 1) { cursor := { rest := text } }
  else none

end Chip8
