import Chip8.Memory
import Chip8.Numeral
import Chip8.Screen

/-!
What can go wrong: faults of the running program, which halt the machine, and requests that the
machine refuses.
-/

namespace Chip8

inductive Failure
  | unknownInstruction (word : UInt16)
  | stackOverflow (pc : UInt16)
  | stackUnderflow (pc : UInt16)
  | largeProgram (size : Nat)
  | font (reason : String)
  | screenSize (width height : Nat)
  deriving DecidableEq

namespace Failure

/-- Whether the failure is a fault of the running program. -/
def isFatal : Failure → Bool
  | .unknownInstruction _ | .stackOverflow _ | .stackUnderflow _ => true
  | .largeProgram _ | .font _ | .screenSize .. => false

def message : Failure → String
  | .unknownInstruction word => "unknown instruction: 0x" ++ Numeral.hex 4 word.toNat
  | .stackOverflow pc => "call stack overflow at 0x" ++ Numeral.hex 3 pc.toNat
  | .stackUnderflow pc => "call stack underflow at 0x" ++ Numeral.hex 3 pc.toNat
  | .largeProgram size =>
    "program too large for VM memory: " ++ Numeral.decimal size ++ " bytes, at most " ++
      Numeral.decimal Memory.programCapacity ++ " allowed"
  | .font reason => "font error: " ++ reason
  | .screenSize width height =>
    "invalid display size " ++ Numeral.decimal width ++ "x" ++ Numeral.decimal height ++
      ", must be non-empty with at most " ++ Numeral.decimal Screen.maxPixels ++ " pixels"

end Failure

end Chip8
