import Chip8.Proofs.Machine.History
import Mathlib.Data.Finset.Card

/-!
Registers saved to memory and loaded again. The cells from the index on never meet each other, also
where they go around the end of memory, so what is stored there is found again and what is loaded
from there can be stored back.
-/

namespace Chip8

open Finset

namespace Memory

variable {m : Memory} {a c n : Nat} {bytes : List UInt8}

/-- Fewer offsets than there are cells lead to different cells. -/
theorem offset_inj {j k : Nat} (hn : n ≤ 4096) (hj : j < n) (hk : k < n)
    (h : (a + j) % 4096 = (a + k) % 4096) : j = k := by
  omega

/-- All but `n + 1` cells lie outside a range of as many. -/
theorem card_outside (a : Nat) (hn : n < 4096) :
    #{c ∈ range 4096 | ∀ k ≤ n, (a + k) % 4096 ≠ c} = 4096 - (n + 1) := by
  let inside := (range (n + 1)).image fun k => (a + k) % 4096
  have hinside : inside.card = n + 1 := by
    rw [card_image_of_injOn, card_range]
    intro j hj k hk h
    exact offset_inj hn (mem_range.mp hj) (mem_range.mp hk) h
  have hsubset : inside ⊆ range 4096 := by
    intro c hc
    obtain ⟨k, -, rfl⟩ := mem_image.mp hc
    exact mem_range.mpr (Nat.mod_lt _ (by decide))
  have houtside : {c ∈ range 4096 | ∀ k ≤ n, (a + k) % 4096 ≠ c} = range 4096 \ inside := by
    ext c
    simp [inside, Nat.lt_succ_iff]
  rw [houtside, card_sdiff_of_subset hsubset, hinside, card_range]

/-- What is stored is fetched. -/
theorem fetch_store (m : Memory) (a : Nat) (h : bytes.length ≤ 4096) :
    (m.store a bytes).fetch a bytes.length = bytes := by
  apply List.ext_getElem
  · exact length_fetch ..
  · intro k _ hk
    rw [getElem_fetch, read_store m a bytes h hk]

/-- Storing what has been fetched changes nothing. -/
theorem store_fetch (m : Memory) (a : Nat) (hn : n ≤ 4096) : m.store a (m.fetch a n) = m := by
  have hlength : (m.fetch a n).length = n := length_fetch ..
  refine Memory.ext fun c hc => ?_
  by_cases hinside : ∃ k < n, (a + k) % 4096 = c
  · obtain ⟨k, hk, rfl⟩ := hinside
    rw [← hlength] at hk hn
    rw [read_mod, read_mod, read_store m a _ hn hk, getElem_fetch]
  · refine m.read_store_of_ne a c _ fun k hk hplace => hinside ⟨k, ?_, ?_⟩
    · rwa [← hlength]
    · rwa [Nat.mod_eq_of_lt hc] at hplace

end Memory

namespace Registers

variable {v : Registers} {x z : UInt8} {bytes : List UInt8}

theorem getElem_upTo_of_lt (v : Registers) {k : Nat} (hk : k < (v.upTo x).length) :
    (v.upTo x)[k] = v.get (UInt8.ofNat k) := by
  have hnumber : (UInt8.ofNat k).toNat = k := by
    rw [length_upTo] at hk
    exact toNat_ofNat_of_lt (by omega)
  have h := v.getElem_upTo x (UInt8.ofNat k) (by rwa [hnumber])
  simpa only [hnumber] using h

/-- Registers that have just been replaced hold what they were replaced by. -/
theorem upTo_setFirst (v : Registers) (h : bytes.length = x.toNat % 16 + 1) :
    (v.setFirst bytes).upTo x = bytes := by
  apply List.ext_getElem
  · rw [length_upTo, h]
  · intro k hk hk'
    have hlt : k < 16 := by omega
    rw [getElem_upTo_of_lt _ hk, get_setFirst, toNat_ofNat_of_lt hlt, Nat.mod_eq_of_lt hlt,
      List.getElem?_eq_getElem hk', Option.getD_some]

/-- The registers of `v` up to `x`, put in place of those of `w`. -/
theorem get_setFirst_upTo (w v : Registers) (x z : UInt8) : (w.setFirst (v.upTo x)).get z =
    if z.toNat % 16 ≤ x.toNat % 16 then v.get z else w.get z := by
  have hlt : z.toNat % 16 < 16 := Nat.mod_lt _ (by decide)
  rw [get_setFirst]
  split
  case isTrue h =>
    have hk : z.toNat % 16 < (v.upTo x).length := by
      rw [length_upTo]
      omega
    have hnumber : (UInt8.ofNat (z.toNat % 16)).toNat % 16 = z.toNat % 16 := by
      rw [toNat_ofNat_of_lt hlt, Nat.mod_mod]
    rw [List.getElem?_eq_getElem hk, Option.getD_some, getElem_upTo_of_lt, get_congr hnumber]
  case isFalse h =>
    have hk : (v.upTo x).length ≤ z.toNat % 16 := by
      rw [length_upTo]
      omega
    rw [List.getElem?_eq_none hk, Option.getD_none]

end Registers

namespace Machine

variable {m w : Machine} {x : UInt8}

/-- That `w` is `m` after registers 0 to `x` have been saved. -/
structure Saves (x : UInt8) (m w : Machine) : Prop where
  read_saved : ∀ k ≤ x.toNat,
    w.memory.read ((m.index.toNat + k) % 4096) = m.registers.get (UInt8.ofNat k)
  read_other : ∀ c < 4096, (∀ k ≤ x.toNat, (m.index.toNat + k) % 4096 ≠ c) →
    w.memory.read c = m.memory.read c
  card_other : #{c ∈ range 4096 | ∀ k ≤ x.toNat, (m.index.toNat + k) % 4096 ≠ c} =
    4096 - (x.toNat + 1)
  rest_eq : w = { m with memory := w.memory }

/-- That `w` is `m` after registers 0 to `x` have been set to those of `v`. -/
structure Restores (x : UInt8) (v : Registers) (m w : Machine) : Prop where
  get_restored : ∀ z : UInt8, z.toNat ≤ x.toNat → w.registers.get z = v.get z
  get_other : ∀ z : UInt8, x.toNat < z.toNat → z.toNat < 16 →
    w.registers.get z = m.registers.get z
  rest_eq : w = { m with registers := w.registers }

theorem memory_execute_storeRegisters (m : Machine) (a : Nat) (x : UInt8) :
    (m.execute a (.storeRegisters x)).1.memory =
      m.memory.store m.index.toNat (m.registers.upTo x) :=
  rfl

theorem registers_execute_loadRegisters (m : Machine) (a : Nat) (x : UInt8) :
    (m.execute a (.loadRegisters x)).1.registers =
      m.registers.setFirst (m.memory.fetch m.index.toNat (x.toNat % 16 + 1)) := by
  simp only [execute]

theorem saves_execute (m : Machine) (a : Nat) (hx : x.toNat < 16) :
    m.Saves x (m.execute a (.storeRegisters x)).1 := by
  have hlength : (m.registers.upTo x).length = x.toNat + 1 := by
    rw [Registers.length_upTo, Nat.mod_eq_of_lt hx]
  constructor
  case read_saved =>
    intro k hk
    have hk : k < (m.registers.upTo x).length := by omega
    rw [memory_execute_storeRegisters, Memory.read_mod, Memory.read_store _ _ _ (by omega) hk,
      Registers.getElem_upTo_of_lt]
  case read_other =>
    intro c hc houtside
    refine Memory.read_store_of_ne _ _ _ _ fun k hk => ?_
    rw [Nat.mod_eq_of_lt hc]
    exact houtside k (by omega)
  case card_other => exact Memory.card_outside _ (by omega)
  case rest_eq => rfl

/-- What has been saved is what is fetched, by any machine with that memory and that index. -/
theorem fetch_of_saved {a : Nat} (hm : w.memory = (m.execute a (.storeRegisters x)).1.memory)
    (hi : w.index = m.index) :
    w.memory.fetch w.index.toNat (x.toNat % 16 + 1) = m.registers.upTo x := by
  have hlength : (m.registers.upTo x).length = x.toNat % 16 + 1 := m.registers.length_upTo x
  rw [hm, hi, memory_execute_storeRegisters, ← hlength]
  exact Memory.fetch_store _ _ (by omega)

theorem restores_execute {a : Nat} (b : Nat) (hx : x.toNat < 16)
    (hm : w.memory = (m.execute a (.storeRegisters x)).1.memory) (hi : w.index = m.index) :
    w.Restores x m.registers (w.execute b (.loadRegisters x)).1 := by
  have hregisters : (w.execute b (.loadRegisters x)).1.registers =
      w.registers.setFirst (m.registers.upTo x) := by
    rw [registers_execute_loadRegisters, fetch_of_saved hm hi]
  constructor
  case get_restored =>
    intro z hz
    rw [hregisters, Registers.get_setFirst_upTo, if_pos (by omega)]
  case get_other =>
    intro z hz hz'
    rw [hregisters, Registers.get_setFirst_upTo, if_neg (by omega)]
  case rest_eq => simp only [execute]

/-- Registers that have just been loaded are already in memory. -/
theorem memory_of_load_store (m : Machine) (a b : Nat) (x : UInt8) :
    ((m.execute a (.loadRegisters x)).1.execute b (.storeRegisters x)).1.memory = m.memory := by
  let w := (m.execute a (.loadRegisters x)).1
  have hmemory : w.memory = m.memory := by simp only [w, execute]
  have hindex : w.index = m.index := by simp only [w, execute]
  have hupTo : w.registers.upTo x = m.memory.fetch m.index.toNat (x.toNat % 16 + 1) := by
    rw [registers_execute_loadRegisters]
    exact Registers.upTo_setFirst _ (Memory.length_fetch ..)
  rw [memory_execute_storeRegisters, hupTo, hindex, hmemory]
  exact Memory.store_fetch _ _ (by omega)

theorem step_of_storeRegisters (hs : m.status = .running) (hx : x.toNat < 16)
    (hw : m.word.toNat = 0xF055 + 256 * x.toNat) :
    m.step.machine = (m.advance.execute m.pc (.storeRegisters x)).1 ∧
      m.step.result = .ok .proceed := by
  have hd : Instruction.decode? m.word = some (.storeRegisters x) :=
    Instruction.decode?_of_register 0xF 0x55 rfl rfl rfl rfl hx (by decide) (by omega)
  rw [step_of_decode? hs hd]
  exact ⟨rfl, rfl⟩

theorem step_of_loadRegisters (hs : m.status = .running) (hx : x.toNat < 16)
    (hw : m.word.toNat = 0xF065 + 256 * x.toNat) :
    m.step.machine = (m.advance.execute m.pc (.loadRegisters x)).1 ∧
      m.step.result = .ok .proceed := by
  have hd : Instruction.decode? m.word = some (.loadRegisters x) :=
    Instruction.decode?_of_register 0xF 0x65 rfl rfl rfl rfl hx (by decide) (by omega)
  rw [step_of_decode? hs hd]
  refine ⟨rfl, ?_⟩
  simp only [execute]

/-- Registers that have been saved come back from that memory into any machine with the same index,
and what has been loaded is saved without a change. Steps at the words `Fx55` and `Fx65` save and
load. -/
theorem registers_survive_memory (hx : x.toNat < 16) :
    (∀ (m : Machine) (a : Nat), m.Saves x (m.execute a (.storeRegisters x)).1) ∧
    (∀ (m w : Machine) (a b : Nat), w.memory = (m.execute a (.storeRegisters x)).1.memory →
      w.index = m.index → w.Restores x m.registers (w.execute b (.loadRegisters x)).1) ∧
    (∀ (m : Machine) (a b : Nat),
      ((m.execute a (.loadRegisters x)).1.execute b (.storeRegisters x)).1.memory = m.memory) ∧
    (∀ m : Machine, m.status = .running → m.word.toNat = 0xF055 + 256 * x.toNat →
      m.step.machine = (m.advance.execute m.pc (.storeRegisters x)).1 ∧
        m.step.result = .ok .proceed) ∧
    (∀ m : Machine, m.status = .running → m.word.toNat = 0xF065 + 256 * x.toNat →
      m.step.machine = (m.advance.execute m.pc (.loadRegisters x)).1 ∧
        m.step.result = .ok .proceed) :=
  ⟨fun m a => saves_execute m a hx,
    fun _ _ _ b hm hi => restores_execute b hx hm hi,
    fun m a b => memory_of_load_store m a b x,
    fun _ hs hw => step_of_storeRegisters hs hx hw,
    fun _ hs hw => step_of_loadRegisters hs hx hw⟩

/-- Three registers saved across the end of memory, lost and loaded again. -/
theorem registers_survive_memory_across_wrap : ∃ m w, Reachable m ∧ m.index.toNat = 0xFFE ∧
    w = { m.step.machine with registers := .zero } ∧ w.memory.read 0 = 0x33 ∧
    (w.execute w.pc (.loadRegisters 2)).1.registers.get 2 = 0x33 := by
  have hb := @Reachable.create {} (.ofSeed 0) _ rfl
  obtain ⟨m, hm, hs, hi, hv, hw⟩ : ∃ m, Reachable m ∧ m.status = .running ∧
      m.index.toNat = 0xFFE ∧ m.registers.get 2 = 0x33 ∧ m.word.toNat = 0xF055 + 256 * 2 :=
    ⟨_, hb.after [.load [0x60, 0x11, 0x61, 0x22, 0x62, 0x33, 0xAF, 0xFE, 0xF2, 0x55], .run 4],
      by decide +kernel⟩
  obtain ⟨hsaves, hrestores, -, hstep, -⟩ := @registers_survive_memory 2 (by decide)
  obtain ⟨hsaved, -⟩ := hstep m hs hw
  let w : Machine := { m.step.machine with registers := .zero }
  have hmemory : w.memory = (m.advance.execute m.pc (.storeRegisters 2)).1.memory := by
    show m.step.machine.memory = _
    rw [hsaved]
  have hindex : w.index = m.advance.index := by
    show m.step.machine.index = _
    rw [hsaved]
    rfl
  have hread : w.memory.read ((m.index.toNat + 2) % 4096) = m.registers.get 2 := by
    rw [hmemory]
    exact (hsaves m.advance m.pc).read_saved 2 (by decide)
  refine ⟨m, w, hm, hi, rfl, ?_, ?_⟩
  · rw [hi, hv] at hread
    exact hread
  · have hrestored := hrestores m.advance w m.pc w.pc hmemory hindex
    exact (hrestored.get_restored 2 (by decide)).trans hv

end Machine

end Chip8
