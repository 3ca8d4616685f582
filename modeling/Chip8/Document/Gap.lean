import Chip8.Document.Cursor

/-!
Blanks and line breaks inside scalars that run over several lines.
-/

namespace Chip8

structure Gap where
  /-- Blanks before the first line break, the last one first. -/
  blanks : List Char := []
  /-- Line breaks, the last one first. -/
  breaks : List Char := []
  /-- Whether it starts with a line break that is escaped. -/
  escaped : Bool := false

namespace Gap

open Character

def isBroken (g : Gap) : Bool :=
  g.escaped || !g.breaks.isEmpty

/-- The text that a gap stands for, its last character first. A single line break is a space, and
of several the first is dropped. -/
def text (g : Gap) : List Char :=
  if g.escaped then g.breaks
  else match g.breaks with
    | [] => g.blanks
    | ['\n'] => [' ']
    | breaks => if breaks.getLast? = some '\n' then breaks.dropLast else breaks

/-- Reads blanks and line breaks after those of `g`. No tab may stand left of the column `limit` of
a further line. -/
def read? (limit : Nat) : Nat → Gap → Cursor → Option (Gap × Cursor)
  | 0, _, _ => none
  | fuel + 1, g, c =>
    match c.head? with
    | none => some (g, c)
    | some ch =>
      if isBlank ch then
        if !g.isBroken then read? limit fuel { g with blanks := ch :: g.blanks } c.skip
        else if ch = '\t' ∧ c.column < limit then none
        else read? limit fuel g c.skip
      else if isBreak ch then
        read? limit fuel { g with breaks := breakText ch :: g.breaks } c.skipBreak
      else some (g, c)

end Gap

end Chip8
