import Chip8.Instruction.Decode
import Chip8.Machine

/-!
Execution of instructions, one step and many. The program counter has moved past an instruction
before it takes effect.
-/

namespace Chip8

/-- The new value of the first register, and of the flag register where the operation sets it. -/
def Arithmetic.apply : Arithmetic → UInt8 → UInt8 → UInt8 × Option UInt8
  | .copy, _, b => (b, none)
  | .or, a, b => (a ||| b, none)
  | .and, a, b => (a &&& b, none)
  | .xor, a, b => (a ^^^ b, none)
  | .add, a, b => (a + b, some (if 256 ≤ a.toNat + b.toNat then 1 else 0))
  | .subtract, a, b => (a - b, some (if b < a then 1 else 0))
  | .subtractFrom, a, b => (b - a, some (if a < b then 1 else 0))

/-- The shifted value and the bit that left it. -/
def Direction.apply : Direction → UInt8 → UInt8 × UInt8
  | .right, a => (a / 2, a % 2)
  | .left, a => (a * 2, a / 128)

/-- Hundreds, tens and units. -/
def decimalDigits (b : UInt8) : List UInt8 :=
  [b / 100 % 10, b / 10 % 10, b % 10]

namespace Registers

/-- Sets a register and then the flag, so that the flag wins where they are one. -/
def setWithFlag (v : Registers) (x b flagValue : UInt8) : Registers :=
  (v.set x b).set flag flagValue

end Registers

namespace Machine

def holds (m : Machine) : Condition → Bool
  | .equalsByte x n => m.registers.get x == n
  | .differsFromByte x n => m.registers.get x != n
  | .equals x y => m.registers.get x == m.registers.get y
  | .differs x y => m.registers.get x != m.registers.get y
  | .keyDown x => m.keypad.isDown (m.registers.get x)
  | .keyUp x => !m.keypad.isDown (m.registers.get x)

def halt (m : Machine) (cause : Failure) : Machine × Except Failure Signal :=
  ({ m with status := .halted, fault := some cause }, .error cause)

/-- The effect of an instruction that lies at `address`. -/
def execute (m : Machine) (address : Nat) : Instruction → Machine × Except Failure Signal
  | .clearScreen => ({ m with screen := m.screen.clear }, .ok .draw)
  | .ret =>
    match m.stack.pop? with
    | some (a, rest) => ({ m with stack := rest, pc := a.toNat }, .ok .jump)
    | none => m.halt (.stackUnderflow (UInt16.ofNat address))
  | .jump a => ({ m with pc := a.toNat }, .ok .jump)
  | .call a =>
    match m.stack.push? (UInt16.ofNat m.pc) with
    | some stack => ({ m with stack, pc := a.toNat }, .ok .jump)
    | none => m.halt (.stackOverflow (UInt16.ofNat address))
  | .skipIf c => (if m.holds c then { m with pc := Memory.nextWord m.pc } else m, .ok .proceed)
  | .loadByte x n => ({ m with registers := m.registers.set x n }, .ok .proceed)
  | .addByte x n =>
    ({ m with registers := m.registers.set x (m.registers.get x + n) }, .ok .proceed)
  | .combine f x y =>
    match f.apply (m.registers.get x) (m.registers.get y) with
    | (b, none) => ({ m with registers := m.registers.set x b }, .ok .proceed)
    | (b, some flag) => ({ m with registers := m.registers.setWithFlag x b flag }, .ok .proceed)
  | .shift d x =>
    let (b, flag) := d.apply (m.registers.get x)
    ({ m with registers := m.registers.setWithFlag x b flag }, .ok .proceed)
  | .loadIndex a => ({ m with index := a }, .ok .proceed)
  | .random x n =>
    let (b, generator) := m.generator.nextByte
    ({ m with registers := m.registers.set x (n &&& b), generator }, .ok .proceed)
  | .draw x y n =>
    let rows := m.memory.fetch m.index.toNat n.toNat
    let (screen, erased) := m.screen.blit m.settings.placement
      (m.registers.get x).toNat (m.registers.get y).toNat rows
    ({ m with
        screen
        registers := m.registers.set Registers.flag (if erased then 1 else 0) }, .ok .draw)
  | .readDelay x => ({ m with registers := m.registers.set x m.delay }, .ok .proceed)
  | .awaitKey x => ({ m with status := .waiting x }, .ok .keyWait)
  | .setDelay x => ({ m with delay := m.registers.get x }, .ok .proceed)
  | .setSound x => ({ m with sound := m.registers.get x }, .ok .sound)
  | .addToIndex x => ({ m with index := m.index + (m.registers.get x).toUInt16 }, .ok .proceed)
  | .pointAtGlyph x => ({ m with index := Font.address (m.registers.get x) }, .ok .proceed)
  | .storeDecimal x =>
    let digits := decimalDigits (m.registers.get x)
    ({ m with memory := m.memory.store m.index.toNat digits }, .ok .proceed)
  | .storeRegisters x =>
    ({ m with memory := m.memory.store m.index.toNat (m.registers.upTo x) }, .ok .proceed)
  | .loadRegisters x =>
    let bytes := m.memory.fetch m.index.toNat (x.toNat % 16 + 1)
    ({ m with registers := m.registers.setFirst bytes }, .ok .proceed)

/-- The word that the program counter points at. -/
def word (m : Machine) : UInt16 :=
  Word.ofBytes (m.memory.read m.pc) (m.memory.read (m.pc + 1))

def advance (m : Machine) : Machine :=
  { m with pc := Memory.nextWord m.pc }

/-- The log of an instruction and of the fault that it ended in, if any. -/
def executionLog (address : Nat) (word : UInt16) (i : Instruction) :
    Except Failure Signal → Array Event
  | .ok _ => #[.executing address word i]
  | .error cause => #[.executing address word i, .faulted address cause]

/-- Executes one instruction. A machine that waits or is halted does nothing; a fault halts it. -/
def step (m : Machine) : Outcome Signal :=
  match m.status with
  | .waiting _ => ⟨m, .ok .keyWait, #[]⟩
  | .halted => ⟨m, .ok .halted, #[]⟩
  | .running =>
    let address := m.pc
    let word := m.word
    match Instruction.decode? word with
    | none =>
      let (m, result) := m.advance.halt (.unknownInstruction word)
      ⟨m, result, #[.faulted address (.unknownInstruction word)]⟩
    | some i =>
      let (m, result) := m.advance.execute address i
      ⟨m, result, executionLog address word i result⟩

end Machine

namespace Outcome

/-- Whether a run ends here: after a fault, and where the machine waits or is halted. -/
def isFinal (o : Outcome Signal) : Bool :=
  match o.result with
  | .error _ | .ok .keyWait | .ok .halted => true
  | .ok _ => false

/-- Takes at most `n` further steps and gathers their log. -/
def resume : Nat → Outcome Signal → Outcome Signal
  | 0, o => o
  | n + 1, o =>
    let next := o.machine.step
    let o := { next with log := o.log ++ next.log }
    if o.isFinal then o else resume n o

end Outcome

namespace Machine

/-- Takes at most `n` steps, and stops early where the machine waits or is halted. -/
def run (m : Machine) (n : Nat) : Outcome Signal :=
  Outcome.resume n ⟨m, .ok .proceed, #[]⟩

end Machine

end Chip8
