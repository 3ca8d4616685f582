import Chip8.Proofs.Machine.RandomBytes
import Chip8.Proofs.Machine.Signals
import Chip8.Proofs.Machine.Stores

/-!
The frame of a step. What a step that completes can change is told by the digits of its word: the
cells from the index on, the registers, and each of the other parts by a few words only.
-/

namespace Chip8

variable {w : UInt16} {i : Instruction} {m : Machine} {z : UInt8}

namespace Word

/-- Whether a word is of form F with the given low byte. -/
def IsDevice (w : UInt16) (low : Nat) : Prop :=
  w.toNat / 4096 = 0xF ∧ w.toNat % 256 = low

/-- How many cells a step at the word may change, from the index on. -/
def stored (w : UInt16) : Nat :=
  match w.toNat / 4096, w.toNat % 256 with
  | 0xF, 0x33 => 3
  | 0xF, 0x55 => w.toNat / 256 % 16 + 1
  | _, _ => 0

/-- Whether a step at the word may change the register with number `z`. -/
def Sets (w : UInt16) (z : Nat) : Prop :=
  match w.toNat / 4096 with
  | 0x6 | 0x7 | 0xC => z = w.toNat / 256 % 16
  | 0x8 => z = w.toNat / 256 % 16 ∨ 4 ≤ w.toNat % 16 ∧ z = 15
  | 0xD => z = 15
  | 0xF => w.toNat % 256 = 0x07 ∧ z = w.toNat / 256 % 16 ∨
      w.toNat % 256 = 0x65 ∧ z ≤ w.toNat / 256 % 16
  | _ => False

end Word

namespace Instruction

/-- Whether an instruction may change the register with number `z`. -/
def Sets (i : Instruction) (z : Nat) : Prop :=
  match i with
  | .loadByte x _ | .addByte x _ | .random x _ | .readDelay x => z = x.toNat % 16
  | .combine f x _ => z = x.toNat % 16 ∨ 4 ≤ f.code ∧ z = 15
  | .shift _ x => z = x.toNat % 16 ∨ z = 15
  | .draw .. => z = 15
  | .loadRegisters x => z ≤ x.toNat % 16
  | _ => False

theorem Encoded.isDevice {x : UInt8} {low : Nat} (h : Encoded w i) (hf : i.form = 0xF)
    (hk : i.ignored = 0) (hd : i.digits = 0x100 * x.toNat + low) (hlow : low < 0x100) :
    Word.IsDevice w low := by
  obtain ⟨-, hform, k, -, hdigits⟩ := h
  rw [hk, hd] at hdigits
  exact ⟨hform.trans hf, by omega⟩

/-- A word allows as many stores as its instruction makes. -/
theorem Encoded.stored_le (h : Encoded w i) : i.stored ≤ Word.stored w := by
  obtain ⟨hi, hform, k, -, hdigits⟩ := h
  cases i with
  | storeDecimal x =>
    simp only [digits, ignored] at hdigits
    have hlow : w.toNat % 256 = 0x33 := by omega
    rw [Word.stored, hform, hlow]
    exact Nat.le_refl 3
  | storeRegisters x =>
    have hx : x.toNat < 16 := hi.register x (.head _)
    simp only [digits, ignored] at hdigits
    have hlow : w.toNat % 256 = 0x55 := by omega
    have hnumber : w.toNat / 256 % 16 = x.toNat % 16 := by omega
    rw [Word.stored, hform, hlow, hnumber]
    exact Nat.le_refl (x.toNat % 16 + 1)
  | _ => exact Nat.zero_le _

/-- A word allows the registers that its instruction sets. -/
theorem Encoded.sets {z : Nat} (h : Encoded w i) (hz : i.Sets z) : Word.Sets w z := by
  obtain ⟨hi, hform, k, hk, hdigits⟩ := h
  unfold Word.Sets
  rw [hform]
  cases i with
  | loadByte x n | addByte x n | random x n =>
    have hn : n.toNat < 256 := n.toNat_lt
    have hz : z = x.toNat % 16 := hz
    simp only [digits, ignored] at hdigits
    show z = w.toNat / 256 % 16
    omega
  | combine f x y =>
    have hy : y.toNat < 16 := hi.register y (.tail _ (.head _))
    have hcode : f.code < 16 := f.code_lt
    have hz : z = x.toNat % 16 ∨ 4 ≤ f.code ∧ z = 15 := hz
    simp only [digits, ignored] at hdigits
    show z = w.toNat / 256 % 16 ∨ 4 ≤ w.toNat % 16 ∧ z = 15
    omega
  | shift d x =>
    have hcode : 4 ≤ d.code ∧ d.code < 16 := by cases d <;> decide
    have hz : z = x.toNat % 16 ∨ z = 15 := hz
    simp only [digits, ignored] at hdigits
    show z = w.toNat / 256 % 16 ∨ 4 ≤ w.toNat % 16 ∧ z = 15
    omega
  | draw x y n => exact hz
  | readDelay x =>
    have hz : z = x.toNat % 16 := hz
    simp only [digits, ignored] at hdigits
    exact .inl ⟨by omega, by omega⟩
  | loadRegisters x =>
    have hz : z ≤ x.toNat % 16 := hz
    simp only [digits, ignored] at hdigits
    exact .inr ⟨by omega, by omega⟩
  | _ => cases hz

end Instruction

theorem Registers.get_setWithFlag_of_ne {v : Registers} {x b flag : UInt8}
    (hx : z.toNat % 16 ≠ x.toNat % 16) (hf : z.toNat % 16 ≠ 15) :
    (v.setWithFlag x b flag).get z = v.get z := by
  rw [setWithFlag, get_set_of_ne hf, get_set_of_ne hx]

namespace Machine

theorem get_execute {a : Nat} (h : ¬ i.Sets (z.toNat % 16)) :
    (m.execute a i).1.registers.get z = m.registers.get z := by
  cases i with
  | loadByte | addByte | random | readDelay => exact Registers.get_set_of_ne h
  | combine f x y =>
    obtain ⟨hx, hf⟩ := not_or.mp h
    have hf : 4 ≤ f.code → z.toNat % 16 ≠ 15 := fun hc hz => hf ⟨hc, hz⟩
    cases f with
    | copy | or | and | xor => exact Registers.get_set_of_ne hx
    | add | subtract | subtractFrom =>
      exact Registers.get_setWithFlag_of_ne hx (hf (by decide))
  | shift d x =>
    obtain ⟨hx, hf⟩ := not_or.mp h
    exact Registers.get_setWithFlag_of_ne hx hf
  | draw x y n => exact Registers.get_set_of_ne h
  | loadRegisters x =>
    have hx : x.toNat % 16 + 1 ≤ z.toNat % 16 := Nat.lt_of_not_le h
    simp only [execute]
    rw [Registers.get_setFirst, List.getElem?_eq_none (by rwa [Memory.length_fetch]),
      Option.getD_none]
  | ret | call | skipIf => simp only [execute]; split <;> rfl
  | _ => rfl

theorem index_execute {a : Nat} (hb : ∀ b, i ≠ .loadIndex b) (hx : ∀ x, i ≠ .addToIndex x)
    (hg : ∀ x, i ≠ .pointAtGlyph x) : (m.execute a i).1.index = m.index := by
  cases i with
  | loadIndex b => exact absurd rfl (hb b)
  | addToIndex x => exact absurd rfl (hx x)
  | pointAtGlyph x => exact absurd rfl (hg x)
  | ret | call | skipIf => simp only [execute]; split <;> rfl
  | loadRegisters x => simp only [execute]
  | combine f x y => cases f <;> rfl
  | _ => rfl

theorem delay_execute {a : Nat} (hx : ∀ x, i ≠ .setDelay x) :
    (m.execute a i).1.delay = m.delay := by
  cases i with
  | setDelay x => exact absurd rfl (hx x)
  | ret | call | skipIf => simp only [execute]; split <;> rfl
  | loadRegisters x => simp only [execute]
  | combine f x y => cases f <;> rfl
  | _ => rfl

theorem fault_of_completed? (h : m.completed? = some i) : m.step.machine.fault = m.fault := by
  obtain ⟨hm, s, hr⟩ := step_of_completed? h
  rw [hm]
  cases i with
  | ret =>
    obtain ⟨b, rest, -, hx⟩ := execute_ret_of_ok hr
    rw [hx]
    rfl
  | call t =>
    obtain ⟨stack, -, hx⟩ := execute_call_of_ok hr
    rw [hx]
    rfl
  | skipIf c => simp only [execute]; split <;> rfl
  | loadRegisters x => simp only [execute]; rfl
  | combine f x y => cases f <;> rfl
  | _ => rfl

/-- That the next step changes no part of the machine but those that its word allows. -/
structure StaysInFrame (m : Machine) : Prop where
  memory : ∀ c < 4096, m.step.machine.memory.read c ≠ m.memory.read c →
    ∃ k < Word.stored m.word, c = (m.index.toNat + k) % 4096
  registers : ∀ z : UInt8, z.toNat < 16 →
    m.step.machine.registers.get z ≠ m.registers.get z → Word.Sets m.word z.toNat
  index : m.step.machine.index ≠ m.index → m.word.toNat / 4096 = 0xA ∨
    Word.IsDevice m.word 0x1E ∨ Word.IsDevice m.word 0x29
  stack : m.step.machine.stack ≠ m.stack → m.word.toNat / 4096 = 0x2 ∨ m.word = 0x00EE
  delay : m.step.machine.delay ≠ m.delay → Word.IsDevice m.word 0x15
  sound : m.step.machine.sound ≠ m.sound → Word.IsDevice m.word 0x18
  screen : m.step.machine.screen ≠ m.screen → m.word = 0x00E0 ∨ m.word.toNat / 4096 = 0xD
  generator : m.step.machine.generator ≠ m.generator → m.word.toNat / 4096 = 0xC
  status : m.step.machine.status ≠ m.status → Word.IsDevice m.word 0x0A
  keypad_eq : m.step.machine.keypad = m.keypad
  fault_eq : m.step.machine.fault = m.fault
  settings_eq : m.step.machine.settings = m.settings

section Completed

variable (h : m.completed? = some i)

include h

theorem encoded_of_completed? : Instruction.Encoded m.word i :=
  Instruction.encoded_of_decode? (completed?_eq_some_iff.mp h).2.1

theorem stores_of_completed? {c : Nat} (hc : c < 4096)
    (hne : m.step.machine.memory.read c ≠ m.memory.read c) :
    ∃ k < Word.stored m.word, c = (m.index.toNat + k) % 4096 := by
  have hstores : m.Stores i c := by
    refine Decidable.byContradiction fun hmiss => hne ?_
    obtain ⟨hm, -⟩ := step_of_completed? h
    rw [hm]
    exact read_execute hmiss
  obtain ⟨k, hk, hplace⟩ := hstores
  rw [Nat.mod_eq_of_lt hc] at hplace
  exact ⟨k, Nat.lt_of_lt_of_le hk (encoded_of_completed? h).stored_le, hplace.symm⟩

theorem sets_of_completed? (hz : z.toNat < 16)
    (hne : m.step.machine.registers.get z ≠ m.registers.get z) : Word.Sets m.word z.toNat := by
  have hsets : i.Sets (z.toNat % 16) := by
    refine Classical.byContradiction fun hmiss => hne ?_
    obtain ⟨hm, -⟩ := step_of_completed? h
    rw [hm]
    exact get_execute hmiss
  rw [Nat.mod_eq_of_lt hz] at hsets
  exact (encoded_of_completed? h).sets hsets

theorem word_of_index_ne (hne : m.step.machine.index ≠ m.index) :
    m.word.toNat / 4096 = 0xA ∨ Word.IsDevice m.word 0x1E ∨ Word.IsDevice m.word 0x29 := by
  have hw := encoded_of_completed? h
  obtain ⟨hm, -⟩ := step_of_completed? h
  rw [hm] at hne
  cases i with
  | loadIndex b => exact .inl hw.form_eq
  | addToIndex x => exact .inr (.inl (hw.isDevice rfl rfl rfl (by decide)))
  | pointAtGlyph x => exact .inr (.inr (hw.isDevice rfl rfl rfl (by decide)))
  | _ => exact (hne (index_execute nofun nofun nofun)).elim

theorem word_of_stack_ne (hne : m.step.machine.stack ≠ m.stack) :
    m.word.toNat / 4096 = 0x2 ∨ m.word = 0x00EE := by
  have hw := encoded_of_completed? h
  obtain ⟨hm, -⟩ := step_of_completed? h
  rw [hm] at hne
  cases i with
  | call t => exact .inl hw.form_eq
  | ret => exact .inr (Instruction.decode?_eq_ret_iff.mp hw.decode?_eq)
  | _ => exact (hne (stack_execute nofun nofun)).elim

theorem word_of_delay_ne (hne : m.step.machine.delay ≠ m.delay) :
    Word.IsDevice m.word 0x15 := by
  have hw := encoded_of_completed? h
  obtain ⟨hm, -⟩ := step_of_completed? h
  rw [hm] at hne
  cases i with
  | setDelay x => exact hw.isDevice rfl rfl rfl (by decide)
  | _ => exact (hne (delay_execute nofun)).elim

theorem word_of_sound_ne (hne : m.step.machine.sound ≠ m.sound) :
    Word.IsDevice m.word 0x18 := by
  have hw := encoded_of_completed? h
  obtain ⟨hm, s, hr⟩ := step_of_completed? h
  rw [hm] at hne
  obtain rfl := signal_of_execute hr
  cases i with
  | setSound x => exact hw.isDevice rfl rfl rfl (by decide)
  | _ => exact (hne ((keeps_execute hr).sound_eq Signal.noConfusion)).elim

theorem word_of_screen_ne (hne : m.step.machine.screen ≠ m.screen) :
    m.word = 0x00E0 ∨ m.word.toNat / 4096 = 0xD := by
  have hw := encoded_of_completed? h
  obtain ⟨hm, s, hr⟩ := step_of_completed? h
  rw [hm] at hne
  obtain rfl := signal_of_execute hr
  cases i with
  | clearScreen =>
    obtain ⟨-, hform, k, -, hdigits⟩ := hw
    simp only [Instruction.form, Instruction.digits, Instruction.ignored] at hform hdigits
    exact .inl (UInt16.toNat_inj.mp (show m.word.toNat = 0x00E0 by omega))
  | draw x y n => exact .inr hw.form_eq
  | _ => exact (hne ((keeps_execute hr).screen_eq Signal.noConfusion)).elim

theorem word_of_generator_ne (hne : m.step.machine.generator ≠ m.generator) :
    m.word.toNat / 4096 = 0xC := by
  have hw := encoded_of_completed? h
  obtain ⟨hm, -⟩ := step_of_completed? h
  rw [hm, generator_execute] at hne
  cases i with
  | random x n => exact hw.form_eq
  | _ => exact (hne rfl).elim

theorem word_of_status_ne (hne : m.step.machine.status ≠ m.status) :
    Word.IsDevice m.word 0x0A := by
  have hw := encoded_of_completed? h
  obtain ⟨hm, s, hr⟩ := step_of_completed? h
  rw [hm] at hne
  rcases status_of_execute hr with ⟨hsame, -⟩ | ⟨x, rfl, -⟩
  · exact (hne hsame).elim
  · exact hw.isDevice rfl rfl rfl (by decide)

end Completed

/-- Every step of a running machine that does not fail stays in the frame of its word. -/
theorem stays_in_frame {s : Signal} (hs : m.status = .running) (hr : m.step.result = .ok s) :
    m.StaysInFrame := by
  obtain ⟨i, h⟩ : ∃ i, m.completed? = some i := by
    cases m.stepped with
    | idle hn _ _ => exact absurd hs hn
    | fault e _ _ _ he => cases hr.symm.trans he
    | complete i t _ hd _ ht => exact ⟨i, completed?_eq_some_iff.mpr ⟨hs, hd, t, ht⟩⟩
  have hcontrols : m.SharesControls m.step.machine := m.sharesControls_step
  exact {
    memory := fun c hc hne => stores_of_completed? h hc hne
    registers := fun z hz hne => sets_of_completed? h hz hne
    index := word_of_index_ne h
    stack := word_of_stack_ne h
    delay := word_of_delay_ne h
    sound := word_of_sound_ne h
    screen := word_of_screen_ne h
    generator := word_of_generator_ne h
    status := word_of_status_ne h
    keypad_eq := hcontrols.keypad_eq
    fault_eq := fault_of_completed? h
    settings_eq := hcontrols.settings_eq }

/-- Three registers stored across the end of memory. -/
theorem stays_in_frame_across_wrap : ∃ m, Reachable m ∧ m.word = 0xF255 ∧
    m.index.toNat = 0xFFE ∧ m.StaysInFrame ∧ m.step.machine.memory.read 0 ≠ m.memory.read 0 ∧
    m.step.machine.memory.read 1 = m.memory.read 1 := by
  have hb := @Reachable.create {} (.ofSeed 0) _ rfl
  obtain ⟨m, hm, hc, hw, hi, hfirst⟩ : ∃ m, Reachable m ∧
      m.completed? = some (.storeRegisters 2) ∧ m.word = 0xF255 ∧ m.index.toNat = 0xFFE ∧
      m.step.machine.memory.read 0 ≠ m.memory.read 0 :=
    ⟨_, hb.after [.load [0x62, 0x05, 0xAF, 0xFE, 0xF2, 0x55], .run 2], by decide +kernel⟩
  obtain ⟨hs, -, s, hr⟩ := completed?_eq_some_iff.mp hc
  have hframe : m.StaysInFrame := stays_in_frame hs hr
  refine ⟨m, hm, hw, hi, hframe, hfirst, ?_⟩
  refine Decidable.byContradiction fun hne => ?_
  obtain ⟨k, hk, hplace⟩ := hframe.memory 1 (by decide) hne
  have hthree : Word.stored m.word = 3 := by
    rw [hw]
    decide
  omega

end Machine

end Chip8
