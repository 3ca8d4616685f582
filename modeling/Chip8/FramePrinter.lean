import Chip8.Numeral
import Chip8.Screen

/-!
Frames as text: a numbered heading followed by the rows of the screen.
-/

namespace Chip8

structure FramePrinter where
  /-- Frames presented so far, lost ones included. -/
  frames : Nat := 0
  /-- The text that was written. -/
  written : String := ""

namespace FramePrinter

/-- A frame of a machine, for whose text there is always room. -/
def frameText (number : Nat) (s : Screen) : String :=
  "frame " ++ Numeral.decimal number ++ "\n" ++ s.text

/-- The message logged when a frame is lost. -/
def lossText (reason : String) : String :=
  "WARN failed to present frame: " ++ reason

/-- Presents a frame, and gives the messages logged. Where the writer fails, for the reason given,
the frame is counted but nothing of it is written. -/
def present (p : FramePrinter) (s : Screen) (failure : Option String) :
    FramePrinter × List String :=
  match failure with
  | none => (⟨p.frames + 1, p.written ++ frameText (p.frames + 1) s⟩, [])
  | some reason => (⟨p.frames + 1, p.written⟩, [lossText reason])

end FramePrinter

end Chip8
