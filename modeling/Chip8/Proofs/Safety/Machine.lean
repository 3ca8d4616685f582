import Chip8.Proofs.Machine.Loading
import Chip8.Proofs.Safety.Sprite

/-!
The checked machine: every operation with its bounds checked, except where a sum or difference is
meant to wrap around. On every machine that operations lead to it gives what the machine gives, so
no program and no request takes one out of bounds.
-/

namespace Chip8

variable {m : Machine} {i : Instruction}

namespace Checked

def holds (m : Machine) : Condition → Checked Bool
  | .equalsByte x n => do return (← get m.registers x.toNat) == n
  | .differsFromByte x n => do return (← get m.registers x.toNat) != n
  | .equals x y => do return (← get m.registers x.toNat) == (← get m.registers y.toNat)
  | .differs x y => do return (← get m.registers x.toNat) != (← get m.registers y.toNat)
  | .keyDown x => do isDown m.keypad (← get m.registers x.toNat)
  | .keyUp x => do return !(← isDown m.keypad (← get m.registers x.toNat))

/-- The machine with a register set. -/
def setRegister (m : Machine) (x b : UInt8) : Checked Machine := do
  return { m with registers := ← set m.registers x.toNat b }

/-- The machine with a register set and then the flag. -/
def setWithFlag (m : Machine) (x b flagValue : UInt8) : Checked Machine := do
  setRegister (← setRegister m x b) Registers.flag flagValue

/-- The effect of an instruction that lies at `address`. -/
def execute (m : Machine) (address : Nat) :
    Instruction → Checked (Machine × Except Failure Signal)
  | .clearScreen => some ({ m with screen := m.screen.clear }, .ok .draw)
  | .ret => do
    match ← pop m.stack with
    | some (a, rest) => return ({ m with stack := rest, pc := a.toNat }, .ok .jump)
    | none => return m.halt (.stackUnderflow (UInt16.ofNat address))
  | .jump a => some ({ m with pc := a.toNat }, .ok .jump)
  | .call a => do
    match ← push m.stack (UInt16.ofNat m.pc) with
    | some stack => return ({ m with stack, pc := a.toNat }, .ok .jump)
    | none => return m.halt (.stackOverflow (UInt16.ofNat address))
  | .skipIf c => do
    if ← holds m c then
      let pc ← nextWord m.pc
      return ({ m with pc }, .ok .proceed)
    else return (m, .ok .proceed)
  | .loadByte x n => do return (← setRegister m x n, .ok .proceed)
  | .addByte x n => do
    let b ← get m.registers x.toNat
    return (← setRegister m x (b + n), .ok .proceed)
  | .combine f x y => do
    match f.apply (← get m.registers x.toNat) (← get m.registers y.toNat) with
    | (b, none) => return (← setRegister m x b, .ok .proceed)
    | (b, some flag) => return (← setWithFlag m x b flag, .ok .proceed)
  | .shift d x => do
    let (b, flag) := d.apply (← get m.registers x.toNat)
    return (← setWithFlag m x b flag, .ok .proceed)
  | .loadIndex a => some ({ m with index := a }, .ok .proceed)
  | .random x n => do
    let (b, generator) := m.generator.nextByte
    return (← setRegister { m with generator } x (n &&& b), .ok .proceed)
  | .draw x y n => do
    let column ← get m.registers x.toNat
    let line ← get m.registers y.toNat
    -- The rows are gathered in a buffer of fifteen bytes.
    if n.toNat ≤ 15 then
      let rows ← fetch m.memory m.index.toNat n.toNat
      let (screen, erased) ←
        blit m.screen m.settings.placement column.toNat line.toNat rows
      return (← setRegister { m with screen } Registers.flag (if erased then 1 else 0), .ok .draw)
    else none
  | .readDelay x => do return (← setRegister m x m.delay, .ok .proceed)
  | .awaitKey x => some ({ m with status := .waiting x }, .ok .keyWait)
  | .setDelay x => do
    let delay ← get m.registers x.toNat
    return ({ m with delay }, .ok .proceed)
  | .setSound x => do
    let sound ← get m.registers x.toNat
    return ({ m with sound }, .ok .sound)
  | .addToIndex x => do
    let b ← get m.registers x.toNat
    return ({ m with index := m.index + b.toUInt16 }, .ok .proceed)
  | .pointAtGlyph x => do
    let index ← glyphAddress (← get m.registers x.toNat)
    return ({ m with index }, .ok .proceed)
  | .storeDecimal x => do
    let digits := decimalDigits (← get m.registers x.toNat)
    let memory ← store m.memory m.index.toNat 0 digits
    return ({ m with memory }, .ok .proceed)
  | .storeRegisters x => do
    let memory ← store m.memory m.index.toNat 0 (← upTo m.registers x.toNat)
    return ({ m with memory }, .ok .proceed)
  | .loadRegisters x => do
    let registers ← fill m.registers 0 (← fetch m.memory m.index.toNat (x.toNat + 1))
    return ({ m with registers }, .ok .proceed)

def word (m : Machine) : Checked UInt16 := do
  return Word.ofBytes (← read m.memory m.pc) (← read m.memory (← sum UInt64.size m.pc 1))

def step (m : Machine) : Checked (Outcome Signal) :=
  match m.status with
  | .waiting _ => some ⟨m, .ok .keyWait, #[]⟩
  | .halted => some ⟨m, .ok .halted, #[]⟩
  | .running => do
    let word ← word m
    let next := { m with pc := ← nextWord m.pc }
    match Instruction.decode? word with
    | none =>
      let (halted, result) := next.halt (.unknownInstruction word)
      return ⟨halted, result, #[.faulted m.pc (.unknownInstruction word)]⟩
    | some i =>
      let (done, result) ← execute next m.pc i
      return ⟨done, result, Machine.executionLog m.pc word i result⟩

/-- Takes at most `n` further steps and gathers their log. -/
def resume : Nat → Outcome Signal → Checked (Outcome Signal)
  | 0, o => some o
  | n + 1, o => do
    let next ← step o.machine
    let o := { next with log := o.log ++ next.log }
    if o.isFinal then return o else resume n o

def run (m : Machine) (n : Nat) : Checked (Outcome Signal) :=
  resume n ⟨m, .ok .proceed, #[]⟩

/-- Puts glyphs in their place, of which there are to be a complete set. -/
def setFont (m : Machine) (glyphs : List UInt8) : Checked Machine := do
  let last ← sum UInt64.size Font.start Font.length
  return { m with memory := ← copy m.memory Font.start last glyphs }

def loadFont (m : Machine) (glyphs : List UInt8) : Checked (Outcome Unit) :=
  if glyphs.length = Font.length then do return ⟨← setFont m glyphs, .ok (), #[]⟩
  else some ⟨m, .error (.font (Font.lengthMessage glyphs.length)), #[]⟩

def load (m : Machine) (program : List UInt8) : Checked (Outcome Unit) :=
  if program.length ≤ Memory.programCapacity then do
    let blank ← setFont m.clear Font.builtin
    let last ← sum UInt64.size Memory.programStart program.length
    let memory ← copy blank.memory Memory.programStart last program
    return ⟨{ blank with
        memory
        status := .running
        fault := none }, .ok (), #[.loaded program.length]⟩
  else some ⟨m, .error (.largeProgram program.length), #[]⟩

/-- Notes a key by shifting a bit to its place. -/
def setKey (m : Machine) (k : Key) (down : Bool) : Checked Machine := do
  let _ ← distance 16 k.val
  let noted := { m with keypad := m.keypad.set k down }
  match m.status, down with
  | .waiting x, true => setRegister { noted with status := .running } x k.toByte
  | _, _ => return noted

def setKeyNumber (m : Machine) (id : UInt8) (down : Bool) : Checked Machine :=
  match Key.ofByte? id with
  | some k => setKey m k down
  | none => some m

def perform (m : Machine) : Operation → Checked (Outcome (Option Signal))
  | .load program => do return (← load m program).map fun _ => none
  | .loadFont glyphs => do return (← loadFont m glyphs).map fun _ => none
  | .loadBuiltinFont => do return ⟨← setFont m Font.builtin, .ok none, #[]⟩
  | .step => do return (← step m).map some
  | .run n => do return (← run m n).map some
  | .setKey k down => do return ⟨← setKey m k down, .ok none, #[]⟩
  | .setKeyNumber id down => do return ⟨← setKeyNumber m id down, .ok none, #[]⟩
  -- Neither erasing the mask of keys nor counting to zero at least goes out of bounds.
  | .clearKeys => some ⟨m.clearKeys, .ok none, #[]⟩
  | .tick => some ⟨m.tick, .ok none, #[]⟩

/-- A dark screen, whose pixels are counted by a plain product. -/
def dark (width height : Nat) : Checked Screen := do
  let _ ← product UInt64.size width height
  return .dark width height

/-- The machine of some settings before it has its glyphs. -/
def bare (s : Settings) (entropy : Generator) (screen : Screen) : Machine where
  settings := s
  memory := .blank
  registers := .zero
  index := 0
  pc := Memory.programStart
  stack := {}
  delay := 0
  sound := 0
  keypad := {}
  screen
  status := .running
  fault := none
  generator := (s.seed.map Generator.ofSeed).getD entropy

/-- A size whose product does not fit a word is refused like one that is too large. -/
def create (s : Settings) (entropy : Generator) : Checked (Except Failure Machine) :=
  match product UInt64.size s.width s.height with
  | none => some (.error (.screenSize s.width s.height))
  | some n =>
    if 0 < n ∧ n ≤ Screen.maxPixels then do
      let screen ← dark s.width s.height
      return .ok (← setFont (bare s entropy screen) Font.builtin)
    else some (.error (.screenSize s.width s.height))

theorem holds_eq {c : Condition} (h : ∀ x ∈ c.registers, x.toNat < 16) :
    holds m c = some (m.holds c) := by
  cases c with
  | equals x y | differs x y =>
    have hx : x.toNat < 16 := h x (.head _)
    have hy : y.toNat < 16 := h y (.tail _ (.head _))
    simp only [holds, get_toNat _ hx, get_toNat _ hy]
    rfl
  | equalsByte x | differsFromByte x | keyDown x | keyUp x =>
    have hx : x.toNat < 16 := h x (.head _)
    simp only [holds, get_toNat _ hx, isDown_eq]
    rfl

theorem setRegister_of_lt (m : Machine) {x : UInt8} (h : x.toNat < 16) (b : UInt8) :
    setRegister m x b = some { m with registers := m.registers.set x b } := by
  rw [setRegister, set_toNat _ h]
  rfl

theorem setWithFlag_of_lt (m : Machine) {x : UInt8} (h : x.toNat < 16) (b flagValue : UInt8) :
    setWithFlag m x b flagValue =
      some { m with registers := m.registers.setWithFlag x b flagValue } := by
  have hflag : Registers.flag.toNat < 16 := by decide
  rw [setWithFlag, setRegister_of_lt m h]
  exact setRegister_of_lt _ hflag flagValue

/-- The index register leaves room in a word for any offset of a few bytes. -/
theorem toNat_index_add_le (a : UInt16) {n : Nat} (h : n ≤ 16) : a.toNat + n ≤ UInt64.size := by
  have ha := a.toNat_lt
  rw [UInt64.size]
  omega

theorem fetch_index (m : Memory) (a : UInt16) {n : Nat} (h : n ≤ 16) :
    fetch m a.toNat n = some (m.fetch a.toNat n) :=
  fetch_of_le m (toNat_index_add_le a h)

theorem store_index (m : Memory) (a : UInt16) {bytes : List UInt8} (h : bytes.length ≤ 16) :
    store m a.toNat 0 bytes = some (m.store a.toNat bytes) :=
  store_of_le m bytes (toNat_index_add_le a h)

/-- A decoded instruction stays within bounds on a machine that keeps its invariant. -/
theorem execute_of_inRange {s : Settings} (h : m.Invariant s)
    (hs : Screen.isAllowedSize m.screen.width m.screen.height = true) (hi : i.InRange) (a : Nat) :
    execute m a i = some (m.execute a i) := by
  have hreg := hi.register
  cases i with
  | clearScreen | jump b | loadIndex b | awaitKey x => rfl
  | ret =>
    rw [execute, pop_of_le h.depth_le, Machine.execute]
    cases m.stack.pop? <;> rfl
  | call b =>
    rw [execute, push_eq, Machine.execute]
    cases m.stack.push? (UInt16.ofNat m.pc) <;> rfl
  | skipIf c =>
    rw [execute, holds_eq hreg, nextWord_of_le h.pc_le, Machine.execute]
    cases m.holds c <;> rfl
  | combine f x y =>
    have hx : x.toNat < 16 := hreg x (.head _)
    have hy : y.toNat < 16 := hreg y (.tail _ (.head _))
    rw [execute, get_toNat _ hx, get_toNat _ hy, Machine.execute]
    cases f <;> simp only [Arithmetic.apply, setRegister_of_lt m hx, setWithFlag_of_lt m hx] <;> rfl
  | draw x y n =>
    have hx : x.toNat < 16 := hreg x (.head _)
    have hy : y.toNat < 16 := hreg y (.tail _ (.head _))
    have hn : n.toNat < 16 := hi.rows x y n rfl
    have hflag : Registers.flag.toNat < 16 := by decide
    have hlength : (m.memory.fetch m.index.toNat n.toNat).length < 16 := by
      rwa [Memory.length_fetch]
    simp only [execute, get_toNat _ hx, get_toNat _ hy, if_pos (Nat.le_of_lt_succ hn),
      fetch_index m.memory m.index (Nat.le_of_lt hn),
      blit_of_lt hs (UInt8.toNat_lt _) (UInt8.toNat_lt _) hlength, setRegister_of_lt _ hflag,
      Option.bind_eq_bind, Option.bind_some]
    rfl
  | storeRegisters x =>
    have hx : x.toNat < 16 := hreg x (.head _)
    have hlength : (m.registers.upTo x).length ≤ 16 := by
      rw [Registers.length_upTo]
      omega
    simp only [execute, upTo_toNat _ hx, store_index _ _ hlength, Option.bind_eq_bind,
      Option.bind_some]
    rfl
  | loadRegisters x =>
    have hx : x.toNat < 16 := hreg x (.head _)
    have hlength : (m.memory.fetch m.index.toNat (x.toNat + 1)).length ≤ 16 := by
      rw [Memory.length_fetch]
      omega
    simp only [execute, fetch_index m.memory m.index (n := x.toNat + 1) hx, fill_of_le _ hlength,
      Option.bind_eq_bind, Option.bind_some, Machine.execute, Nat.mod_eq_of_lt hx]
    rfl
  | storeDecimal x =>
    have hx : x.toNat < 16 := hreg x (.head _)
    have hlength : (decimalDigits (m.registers.get x)).length ≤ 16 := by
      simp [decimalDigits]
    simp only [execute, get_toNat _ hx, store_index _ _ hlength, Option.bind_eq_bind,
      Option.bind_some]
    rfl
  | loadByte x n | addByte x n | shift d x | random x n | readDelay x | setDelay x | setSound x
  | addToIndex x | pointAtGlyph x =>
    have hx : x.toNat < 16 := hreg x (.head _)
    simp only [execute, get_toNat _ hx, setRegister_of_lt _ hx, setWithFlag_of_lt _ hx,
      glyphAddress_eq]
    rfl

theorem word_of_le (h : m.pc ≤ 0xFFF) : word m = some m.word := by
  rw [word, sum_of_lt (show m.pc + 1 < UInt64.size by rw [UInt64.size]; omega), read_eq]
  change (read m.memory (m.pc + 1)).bind _ = _
  rw [read_eq]
  rfl

theorem step_eq (h : m.Reachable) : step m = some m.step := by
  have hpc := h.invariant.pc_le
  unfold step
  split
  case h_1 x hs => rw [Machine.step_of_waiting hs]
  case h_2 hs => rw [Machine.step_of_halted hs]
  case h_3 hs =>
    rw [word_of_le hpc, nextWord_of_le hpc]
    simp only [Option.bind_eq_bind, Option.bind_some]
    cases hd : Instruction.decode? m.word with
    | none =>
      rw [Machine.step_of_unknown hs hd]
      rfl
    | some i =>
      have hexecute : execute m.advance m.pc i = some (m.advance.execute m.pc i) :=
        execute_of_inRange h.invariant.advance h.isAllowedSize_screen
          (Instruction.inRange_of_decode? hd) m.pc
      rw [Machine.step_of_decode? hs hd]
      change (execute m.advance m.pc i).bind _ = _
      rw [hexecute]
      rfl

theorem resume_eq (n : Nat) {o : Outcome Signal} (h : o.machine.Reachable) :
    resume n o = some (o.resume n) := by
  induction n generalizing o with
  | zero => rfl
  | succ n ih =>
    have hnext : o.machine.step.machine.Reachable := .perform .step h
    rw [resume, step_eq h, Outcome.resume]
    change (if _ then _ else _) = _
    split
    case isTrue => rfl
    case isFalse => exact ih hnext

theorem setFont_of_length (m : Machine) {glyphs : List UInt8} (h : glyphs.length = Font.length) :
    setFont m glyphs = some (m.setFont glyphs) := by
  have hlength : glyphs.length = 80 := h
  rw [setFont, sum_of_lt (show Font.start + Font.length < UInt64.size by decide), ← h]
  change (copy m.memory Font.start (Font.start + glyphs.length) glyphs).bind _ = _
  rw [copy_of_le _ (by rw [Font.start]; omega)]
  rfl

theorem loadFont_eq (m : Machine) (glyphs : List UInt8) :
    loadFont m glyphs = some (m.loadFont glyphs) := by
  unfold loadFont Machine.loadFont
  split
  case isTrue h =>
    rw [setFont_of_length m h]
    rfl
  case isFalse => rfl

theorem load_eq (m : Machine) (p : List UInt8) : load m p = some (m.load p) := by
  unfold load Machine.load
  split
  case isTrue h =>
    have hlength : Memory.programStart + p.length ≤ 4096 := by
      have hp : p.length ≤ 3584 := h
      rw [Memory.programStart]
      omega
    have hsum : Memory.programStart + p.length < UInt64.size := by
      rw [UInt64.size]
      omega
    rw [setFont_of_length m.clear rfl, sum_of_lt hsum]
    change (copy m.clear.loadBuiltinFont.memory _ _ p).bind _ = _
    rw [copy_of_le _ hlength]
    rfl
  case isFalse => rfl

theorem setKey_eq (h : m.Reachable) (k : Key) (down : Bool) :
    setKey m k down = some (m.setKey k down) := by
  unfold setKey Machine.setKey
  rw [distance_of_lt k.isLt]
  cases hs : m.status with
  | waiting x =>
    cases down with
    | true => exact setRegister_of_lt _ (h.invariant.waiting_lt x hs) k.toByte
    | false => rfl
  | running => rfl
  | halted => rfl

theorem setKeyNumber_eq (h : m.Reachable) (id : UInt8) (down : Bool) :
    setKeyNumber m id down = some (m.setKeyNumber id down) := by
  unfold setKeyNumber Machine.setKeyNumber
  cases Key.ofByte? id with
  | none => rfl
  | some k => exact setKey_eq h k down

/-- Every operation stays within bounds. -/
theorem perform_eq (h : m.Reachable) (op : Operation) :
    perform m op = some (m.perform op) := by
  cases op with
  | load p =>
    rw [perform, load_eq]
    rfl
  | loadFont glyphs =>
    rw [perform, loadFont_eq]
    rfl
  | loadBuiltinFont =>
    rw [perform, setFont_of_length m rfl]
    rfl
  | step =>
    rw [perform, step_eq h]
    rfl
  | run n =>
    rw [perform, run, resume_eq n h]
    rfl
  | setKey k down =>
    rw [perform, setKey_eq h]
    rfl
  | setKeyNumber id down =>
    rw [perform, setKeyNumber_eq h]
    rfl
  | clearKeys | tick => rfl

variable {s : Settings} {entropy : Generator}

theorem create_of_isAllowedSize (hs : Screen.isAllowedSize s.width s.height = true) :
    Machine.create s entropy =
      .ok (bare s entropy (.dark s.width s.height)).loadBuiltinFont :=
  Machine.create_eq_ok_iff.mpr ⟨hs, rfl⟩

theorem create_of_not_isAllowedSize (hs : ¬Screen.isAllowedSize s.width s.height = true) :
    Machine.create s entropy = .error (.screenSize s.width s.height) := by
  rw [Machine.create, if_neg hs]

theorem create_eq (s : Settings) (entropy : Generator) :
    create s entropy = some (Machine.create s entropy) := by
  by_cases hs : Screen.isAllowedSize s.width s.height = true
  · have hpixels := Screen.isAllowedSize_iff.mp hs
    have hfits : s.width * s.height < UInt64.size := Nat.lt_of_le_of_lt hpixels.2 (by decide)
    have hglyphs : Font.builtin.length = Font.length := rfl
    rw [create_of_isAllowedSize hs]
    simp only [create, dark, product_of_lt hfits, if_pos hpixels, setFont_of_length _ hglyphs,
      Option.bind_eq_bind, Option.bind_some]
    rfl
  · rw [create_of_not_isAllowedSize hs]
    unfold create product
    by_cases hfits : s.width * s.height < UInt64.size
    · have hpixels := fun h => hs (Screen.isAllowedSize_iff.mpr h)
      simp only [if_pos hfits, if_neg hpixels]
    · simp only [if_neg hfits]

theorem exists_create_iff : (∃ m, Machine.create s entropy = .ok m) ↔
    Screen.isAllowedSize s.width s.height = true := by
  constructor
  · rintro ⟨m, hm⟩
    exact (Machine.create_eq_ok_iff.mp hm).1
  · exact fun hs => Machine.exists_create hs entropy

end Checked

namespace Machine

/-- A machine is made exactly when its screen has at least one pixel and no more than the most, and
neither making it nor any operation on it that may follow takes an index out of bounds or a plain
sum, product, difference or shift out of its word. -/
theorem bounds_never_fail :
    (∀ (s : Settings) (entropy : Generator),
      Checked.create s entropy = some (create s entropy) ∧
      ((∃ m, create s entropy = .ok m) ↔ 1 ≤ s.width * s.height ∧ s.width * s.height ≤ 65536)) ∧
    ∀ m, Reachable m → ∀ op, Checked.perform m op = some (m.perform op) :=
  ⟨fun s entropy => ⟨Checked.create_eq s entropy,
      Checked.exists_create_iff.trans Screen.isAllowedSize_iff⟩,
    fun _ hm op => Checked.perform_eq hm op⟩

/-- On a screen of one column, a sprite of as many rows as there can be, from memory across its end,
at the lowest row to the right that a register can name. -/
theorem bounds_never_fail_on_one_column : ∃ m, Reachable m ∧
    m.screen.width = 1 ∧ m.screen.height = 65536 ∧ m.next? = some (.draw 0 0 15) ∧
    m.registers.get 0 = 255 ∧ m.index = 0x10FE ∧
    Checked.perform m .step = some (m.perform .step) := by
  have hb := @Reachable.create { width := 1, height := 65536 } (.ofSeed 0) _ rfl
  obtain ⟨m, hm, hw, hh, hx, hr, hi⟩ : ∃ m, Reachable m ∧
      m.screen.width = 1 ∧ m.screen.height = 65536 ∧ m.next? = some (.draw 0 0 15) ∧
      m.registers.get 0 = 255 ∧ m.index = 0x10FE :=
    ⟨_, hb.after [.load [0xAF, 0xFF, 0x60, 0xFF, 0xF0, 0x1E, 0xD0, 0x0F], .run 3],
      by decide +kernel⟩
  exact ⟨m, hm, hw, hh, hx, hr, hi, bounds_never_fail.2 m hm .step⟩

-- No operations make a machine that waits for a register past the last; a key would take it out of
-- bounds.
example (g : Generator) :
    Checked.perform { Checked.bare {} g (.dark 64 32) with status := .waiting 16 }
      (.setKey 0 true) = none :=
  rfl

end Machine

end Chip8
