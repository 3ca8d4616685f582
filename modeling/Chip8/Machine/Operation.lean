import Chip8.Machine.Execute

/-!
All that can be done to a machine from outside, as data, so that histories are lists of operations.
-/

namespace Chip8

inductive Operation
  | load (program : List UInt8)
  | loadFont (glyphs : List UInt8)
  | loadBuiltinFont
  | step
  | run (n : Nat)
  | setKey (k : Key) (down : Bool)
  | setKeyNumber (id : UInt8) (down : Bool)
  | clearKeys
  | tick
  deriving DecidableEq

namespace Machine

/-- Performs one operation; only steps and runs report a signal. -/
def perform (m : Machine) : Operation → Outcome (Option Signal)
  | .load program => (m.load program).map fun _ => none
  | .loadFont glyphs => (m.loadFont glyphs).map fun _ => none
  | .loadBuiltinFont => ⟨m.loadBuiltinFont, .ok none, #[]⟩
  | .step => m.step.map some
  | .run n => (m.run n).map some
  | .setKey k down => ⟨m.setKey k down, .ok none, #[]⟩
  | .setKeyNumber id down => ⟨m.setKeyNumber id down, .ok none, #[]⟩
  | .clearKeys => ⟨m.clearKeys, .ok none, #[]⟩
  | .tick => ⟨m.tick, .ok none, #[]⟩

def after (m : Machine) (history : List Operation) : Machine :=
  history.foldl (fun m op => (m.perform op).machine) m

def outcomes (m : Machine) : List Operation → List (Outcome (Option Signal))
  | [] => []
  | op :: rest => m.perform op :: outcomes (m.perform op).machine rest

end Machine

end Chip8
