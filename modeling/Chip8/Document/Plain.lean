import Chip8.Document.Gap

/-!
Scalars without quotes. They end before a comment, a colon with a blank after it, a line that is
indented less, and inside brackets also before brackets and commas.
-/

namespace Chip8.Plain

open Character

/-- Whether a scalar can start here. -/
def startsAt (bracketed : Bool) (c : Cursor) : Bool :=
  match c.head? with
  | none => false
  | some ch =>
    !(isBlankOrBreak ch || isIndicator ch) || (ch == '-' && !c.gapAfter 1) ||
      (!bracketed && (ch == '?' || ch == ':') && !c.gapAfter 1)

/-- Whether a scalar ends before `ch`. -/
def endsBefore (bracketed : Bool) (ch : Char) (rest : List Char) : Bool :=
  isBlankOrBreak ch || (ch == ':' && rest.head?.all isBlankOrBreak) ||
    (bracketed && isBracketOrComma ch)

/-- Whether `ch` is a colon that inside brackets stands in front of an indicator; such text is
refused. -/
def clashes (bracketed : Bool) (ch : Char) (rest : List Char) : Bool :=
  bracketed && ch == ':' && rest.head?.any fun c => c == '?' || isBracketOrComma c

/-- Puts characters up to the next gap or the end in front of those already read, which stand in
reverse. -/
def part? (bracketed : Bool) : List Char → List Char → Option (List Char)
  | before, [] => some before
  | before, ch :: rest =>
    if clashes bracketed ch rest then none
    else if endsBefore bracketed ch rest then some before
    else part? bracketed (ch :: before) rest

/-- Reads the parts of a scalar after the text already read, which stands in reverse, and the gap
after it. Further lines start at the column `limit` or right of it, except inside brackets. Gives
the text, whether a line break follows it, and the place after that gap. -/
def parts? (limit : Nat) (bracketed : Bool) :
    Nat → List Char → Gap → Cursor → Option (List Char × Bool × Cursor)
  | 0, _, _, _ => none
  | fuel + 1, text, gap, c =>
    if c.atBoundary ∨ c.head? = some '#' then some (text.reverse, gap.isBroken, c)
    else do
      let part ← part? bracketed [] c.rest
      if part.isEmpty then some (text.reverse, gap.isBroken, c)
      else
        let text := part ++ (gap.text ++ text)
        let (gap, c) ← Gap.read? limit (fuel + 1) {} (c.advance part.length)
        if gap.isBroken ∧ !bracketed ∧ c.column < limit then some (text.reverse, true, c)
        else parts? limit bracketed fuel text gap c

/-- Reads a scalar from a text with less than `fuel` characters left. -/
def read? (limit : Nat) (bracketed : Bool) (fuel : Nat) (c : Cursor) :
    Option (List Char × Bool × Cursor) :=
  parts? limit bracketed fuel [] {} c

end Chip8.Plain
