import Chip8.CallStack
import Chip8.Failure
import Chip8.Font
import Chip8.Generator
import Chip8.Instruction.Mnemonic
import Chip8.Keypad
import Chip8.Memory
import Chip8.Registers
import Chip8.Settings

/-!
The state of a machine, what it reports and logs, and the operations that do not run a program.
-/

namespace Chip8

inductive Status
  | running
  /-- Paused until a key is pressed, whose number goes to register `x`. -/
  | waiting (x : UInt8)
  | halted
  deriving DecidableEq

/-- What a step tells the driver of the machine. -/
inductive Signal
  | proceed
  /-- A jump, call or return moved the program counter. -/
  | jump
  /-- The screen may have changed. -/
  | draw
  | sound
  | keyWait
  /-- The machine is halted and did nothing. -/
  | halted
  deriving DecidableEq

inductive Event
  | loaded (size : Nat)
  | executing (address : Nat) (word : UInt16) (instruction : Instruction)
  | faulted (address : Nat) (cause : Failure)
  deriving DecidableEq

def Event.text : Event → String
  | .loaded size => "DEBUG loaded program of " ++ Numeral.decimal size ++ " bytes"
  | .executing address word instruction =>
    "TRACE " ++ Numeral.hex 4 address ++ ": " ++ Numeral.hex 4 word.toNat ++ " " ++
      instruction.mnemonic
  | .faulted address cause =>
    "WARN halted at 0x" ++ Numeral.hex 3 address ++ ": " ++ cause.message

structure Machine where
  settings : Settings
  memory : Memory
  registers : Registers
  index : UInt16
  pc : Nat
  stack : CallStack
  delay : UInt8
  sound : UInt8
  keypad : Keypad
  screen : Screen
  status : Status
  fault : Option Failure
  generator : Generator

/-- A machine after an operation, the operation's result, and what it logged. -/
structure Outcome (α : Type) where
  machine : Machine
  result : Except Failure α
  log : Array Event := #[]

def Outcome.map {α β : Type} (f : α → β) (o : Outcome α) : Outcome β :=
  ⟨o.machine, o.result.map f, o.log⟩

namespace Machine

/-- The buzzer sounds while the sound timer counts down. -/
def buzzer (m : Machine) : Bool :=
  0 < m.sound

/-- Puts glyphs in their place at the start of memory. -/
def setFont (m : Machine) (glyphs : List UInt8) : Machine :=
  { m with memory := m.memory.store Font.start glyphs }

def loadBuiltinFont (m : Machine) : Machine :=
  m.setFont Font.builtin

/-- Replaces all glyphs; any other number of bytes is refused. -/
def loadFont (m : Machine) (glyphs : List UInt8) : Outcome Unit :=
  if glyphs.length = Font.length then ⟨m.setFont glyphs, .ok (), #[]⟩
  else ⟨m, .error (.font (Font.lengthMessage glyphs.length)), #[]⟩

/-- A machine with the built-in font and no program. Without a seed in the settings the random
bytes come from `entropy`. -/
def create (settings : Settings) (entropy : Generator) : Except Failure Machine :=
  if Screen.isAllowedSize settings.width settings.height then
    .ok (loadBuiltinFont {
      settings
      memory := .blank
      registers := .zero
      index := 0
      pc := Memory.programStart
      stack := {}
      delay := 0
      sound := 0
      keypad := {}
      screen := .dark settings.width settings.height
      status := .running
      fault := none
      generator := (settings.seed.map Generator.ofSeed).getD entropy })
  else .error (.screenSize settings.width settings.height)

/-- Erases memory, registers, timers, keys, outstanding calls and the screen. -/
def clear (m : Machine) : Machine :=
  { m with
    memory := .blank
    registers := .zero
    index := 0
    pc := Memory.programStart
    stack := {}
    delay := 0
    sound := 0
    keypad := {}
    screen := m.screen.clear }

/-- Makes the machine ready to run a program; one that does not fit is refused. Settings and the
position in the random stream stay. -/
def load (m : Machine) (program : List UInt8) : Outcome Unit :=
  if program.length ≤ Memory.programCapacity then
    let blank := m.clear.loadBuiltinFont
    ⟨{ blank with
        memory := blank.memory.store Memory.programStart program
        status := .running
        fault := none }, .ok (), #[.loaded program.length]⟩
  else ⟨m, .error (.largeProgram program.length), #[]⟩

/-- Notes a key as down or up. A press ends the wait for a key. -/
def setKey (m : Machine) (k : Key) (down : Bool) : Machine :=
  let noted := { m with keypad := m.keypad.set k down }
  match m.status, down with
  | .waiting x, true =>
    { noted with registers := m.registers.set x k.toByte, status := .running }
  | _, _ => noted

/-- The same for a key number; numbers that name no key are ignored. -/
def setKeyNumber (m : Machine) (id : UInt8) (down : Bool) : Machine :=
  match Key.ofByte? id with
  | some k => m.setKey k down
  | none => m

def clearKeys (m : Machine) : Machine :=
  { m with keypad := {} }

/-- Counts both timers down by one, to zero at least, whatever the machine is doing. -/
def tick (m : Machine) : Machine :=
  { m with
    delay := if m.delay = 0 then 0 else m.delay - 1
    sound := if m.sound = 0 then 0 else m.sound - 1 }

end Machine

end Chip8
