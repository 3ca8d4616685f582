import Chip8.Proofs.Machine.Frame
import Chip8.Proofs.Machine.Saving

/-!
Decimal digits in memory. A register is written out as three digits from the index on, hundreds
first, also where they go around the end of memory. As long as these cells keep what they hold, the
first three registers can be loaded with the digits, the register that they came from included.
-/

namespace Chip8

open Finset

/-- The three decimal digits of a byte. -/
structure Decimal (b : UInt8) where
  hundreds : UInt8
  tens : UInt8
  units : UInt8
  hundreds_le : hundreds.toNat ≤ 9
  tens_le : tens.toNat ≤ 9
  units_le : units.toNat ≤ 9
  value_eq : 100 * hundreds.toNat + 10 * tens.toNat + units.toNat = b.toNat

namespace Decimal

variable {b : UInt8}

def toList (d : Decimal b) : List UInt8 :=
  [d.hundreds, d.tens, d.units]

/-- The digits are those of the number, because a byte has less than ten hundreds. -/
theorem exists_toList_eq (b : UInt8) : ∃ d : Decimal b, d.toList = decimalDigits b := by
  have hb : b.toNat < 256 := b.toNat_lt
  have hdigit (n : UInt8) : (b / n % 10).toNat = b.toNat / n.toNat % 10 := by
    rw [UInt8.toNat_mod, UInt8.toNat_div]
    rfl
  have hhundreds : (b / 100 % 10).toNat = b.toNat / 100 % 10 := hdigit 100
  have htens : (b / 10 % 10).toNat = b.toNat / 10 % 10 := hdigit 10
  have hunits : (b % 10).toNat = b.toNat % 10 := UInt8.toNat_mod b 10
  refine ⟨⟨b / 100 % 10, b / 10 % 10, b % 10, ?_, ?_, ?_, ?_⟩, rfl⟩
  all_goals omega

end Decimal

namespace Machine

variable {m : Machine} {x b : UInt8} {d : Decimal b}

/-- That `w` is `m` after the digits have been written to memory. -/
structure WritesDecimal (d : Decimal b) (m w : Machine) : Prop where
  read_hundreds : w.memory.read (m.index.toNat % 4096) = d.hundreds
  read_tens : w.memory.read ((m.index.toNat + 1) % 4096) = d.tens
  read_units : w.memory.read ((m.index.toNat + 2) % 4096) = d.units
  read_other : ∀ c < 4096, (∀ k ≤ 2, (m.index.toNat + k) % 4096 ≠ c) →
    w.memory.read c = m.memory.read c
  card_other : #{c ∈ range 4096 | ∀ k ≤ (2 : Nat), (m.index.toNat + k) % 4096 ≠ c} = 4093
  rest_eq : w = { m with memory := w.memory }

/-- That `w` is `m` after the digits have been loaded to the first three registers. -/
structure ReadsDecimal (d : Decimal b) (m w : Machine) : Prop where
  get_hundreds : w.registers.get 0 = d.hundreds
  get_tens : w.registers.get 1 = d.tens
  get_units : w.registers.get 2 = d.units
  get_other : ∀ z : UInt8, 2 < z.toNat → z.toNat < 16 →
    w.registers.get z = m.registers.get z
  rest_eq : w = { m with registers := w.registers }

theorem memory_execute_storeDecimal (m : Machine) (a : Nat)
    (hd : d.toList = decimalDigits (m.registers.get x)) :
    (m.execute a (.storeDecimal x)).1.memory = m.memory.store m.index.toNat d.toList := by
  rw [hd]
  rfl

theorem writesDecimal_execute (m : Machine) (a : Nat)
    (hd : d.toList = decimalDigits (m.registers.get x)) :
    m.WritesDecimal d (m.execute a (.storeDecimal x)).1 := by
  have hlength : d.toList.length = 3 := rfl
  have hread {k : Nat} (hk : k < d.toList.length) :
      (m.execute a (.storeDecimal x)).1.memory.read ((m.index.toNat + k) % 4096) =
        d.toList[k] := by
    rw [memory_execute_storeDecimal m a hd, Memory.read_mod, Memory.read_store _ _ _ _ hk]
    omega
  constructor
  case read_hundreds => exact @hread 0 (by omega)
  case read_tens => exact @hread 1 (by omega)
  case read_units => exact @hread 2 (by omega)
  case read_other =>
    intro c hc houtside
    refine read_execute ?_
    rintro ⟨k, hk, hplace⟩
    have hk : k < 3 := hk
    rw [Nat.mod_eq_of_lt hc] at hplace
    exact houtside k (by omega) hplace
  case card_other => exact Memory.card_outside _ (by decide)
  case rest_eq => rfl

/-- What is loaded from the index on is the digits, whatever the registers were. -/
theorem readsDecimal_execute (a : Nat) (hf : m.memory.fetch m.index.toNat 3 = d.toList) :
    m.ReadsDecimal d (m.execute a (.loadRegisters 2)).1 := by
  have hregisters : (m.execute a (.loadRegisters 2)).1.registers =
      m.registers.setFirst d.toList := by
    rw [registers_execute_loadRegisters, ← hf]
    rfl
  constructor
  case get_hundreds | get_tens | get_units =>
    rw [hregisters, Registers.get_setFirst]
    rfl
  case get_other =>
    intro z hz hz'
    refine get_execute ?_
    show ¬ z.toNat % 16 ≤ 2
    omega
  case rest_eq => simp only [execute]

theorem step_of_storeDecimal (hs : m.status = .running) (hx : x.toNat < 16)
    (hw : m.word.toNat = 0xF033 + 256 * x.toNat) :
    m.step.machine = (m.advance.execute m.pc (.storeDecimal x)).1 ∧
      m.step.result = .ok .proceed := by
  have hd : Instruction.decode? m.word = some (.storeDecimal x) :=
    Instruction.decode?_of_register 0xF 0x33 rfl rfl rfl rfl hx (by decide) (by omega)
  rw [step_of_decode? hs hd]
  exact ⟨rfl, rfl⟩

/-- A register written out in decimal is three digits that make up its value, and any machine with
the same index that has them in memory loads them again. Steps at the words `Fx33` and `F265` write
and load. -/
theorem decimal_is_read_back (hx : x.toNat < 16) :
    (∀ (m : Machine) (a : Nat), ∃ d : Decimal (m.registers.get x),
      m.WritesDecimal d (m.execute a (.storeDecimal x)).1 ∧
      ∀ (w : Machine) (b : Nat), w.index = m.index →
        w.memory.fetch m.index.toNat 3 =
          (m.execute a (.storeDecimal x)).1.memory.fetch m.index.toNat 3 →
        w.ReadsDecimal d (w.execute b (.loadRegisters 2)).1) ∧
    (∀ m : Machine, m.status = .running → m.word.toNat = 0xF033 + 256 * x.toNat →
      m.step.machine = (m.advance.execute m.pc (.storeDecimal x)).1 ∧
        m.step.result = .ok .proceed) ∧
    (∀ m : Machine, m.status = .running → m.word = 0xF265 →
      m.step.machine = (m.advance.execute m.pc (.loadRegisters 2)).1 ∧
        m.step.result = .ok .proceed) := by
  refine ⟨?_, fun _ hs hw => step_of_storeDecimal hs hx hw, ?_⟩
  · intro m a
    obtain ⟨d, hd⟩ := Decimal.exists_toList_eq (m.registers.get x)
    refine ⟨d, writesDecimal_execute m a hd, ?_⟩
    intro w b hi hf
    refine readsDecimal_execute b ?_
    rw [hi, hf, memory_execute_storeDecimal m a hd]
    exact Memory.fetch_store _ _ (by decide : 3 ≤ 4096)
  · intro m hs hw
    exact step_of_loadRegisters hs (by decide) (by rw [hw]; rfl)

/-- A register written out across the end of memory and then overwritten by its own last digit. -/
theorem decimal_is_read_back_across_wrap : ∃ m, Reachable m ∧ m.index.toNat = 0xFFF ∧
    m.registers.get 2 = 254 ∧ m.word = 0xF233 ∧ m.step.machine.word = 0xF265 ∧
    (m.step.machine.memory.read 0).toNat = 5 ∧
    (m.step.machine.step.machine.registers.get 0).toNat = 2 ∧
    (m.step.machine.step.machine.registers.get 2).toNat = 4 := by
  have hb := @Reachable.create {} (.ofSeed 0) _ rfl
  obtain ⟨m, hm, hs, hi, hv, hw, hnext⟩ : ∃ m, Reachable m ∧ m.status = .running ∧
      m.index.toNat = 0xFFF ∧ m.registers.get 2 = 254 ∧ m.word = 0xF233 ∧
      m.step.machine.word = 0xF265 :=
    ⟨_, hb.after [.load [0x62, 0xFE, 0xAF, 0xFF, 0xF2, 0x33, 0xF2, 0x65], .run 2],
      by decide +kernel⟩
  obtain ⟨hdecimal, hstore, hload⟩ := @decimal_is_read_back 2 (by decide)
  obtain ⟨d, hwritten, hreads⟩ := hdecimal m.advance m.pc
  obtain ⟨hstored, -⟩ := hstore m hs (by rw [hw]; rfl)
  rw [← hstored] at hwritten hreads
  let w := m.step.machine
  have hs' : w.status = .running := by
    show m.step.machine.status = _
    rw [hwritten.rest_eq]
    exact hs
  have hi' : w.advance.index = m.advance.index := by
    show m.step.machine.index = _
    rw [hwritten.rest_eq]
  have hread := hreads w.advance w.pc hi' rfl
  obtain ⟨hloaded, -⟩ := hload w hs' hnext
  rw [← hloaded] at hread
  have htens : w.memory.read ((m.index.toNat + 1) % 4096) = d.tens := hwritten.read_tens
  rw [hi] at htens
  obtain ⟨h2, h5, h4⟩ : d.hundreds.toNat = 2 ∧ d.tens.toNat = 5 ∧ d.units.toNat = 4 := by
    have hvalue : 100 * d.hundreds.toNat + 10 * d.tens.toNat + d.units.toNat = 254 :=
      d.value_eq.trans (congrArg UInt8.toNat hv)
    have htens := d.tens_le
    have hunits := d.units_le
    omega
  refine ⟨m, hm, hi, hv, hw, hnext, ?_, ?_, ?_⟩
  · exact (congrArg UInt8.toNat htens).trans h5
  · exact (congrArg UInt8.toNat hread.get_hundreds).trans h2
  · exact (congrArg UInt8.toNat hread.get_units).trans h4

end Machine

end Chip8
