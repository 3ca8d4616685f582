import Chip8.Clock
import Chip8.Screen.Blit

/-!
The settings of a machine.
-/

namespace Chip8

structure Settings where
  frequency : Option Nat := none
  width : Nat := 64
  height : Nat := 32
  placement : Placement := .linear
  /-- Seed of the random bytes; without one they start from fresh entropy. -/
  seed : Option UInt64 := none
  deriving DecidableEq

namespace Settings

/-- Instructions a second, or the standard rate where none is set. -/
def effectiveFrequency (s : Settings) : Nat :=
  s.frequency.getD Frequency.standard

end Settings

end Chip8
