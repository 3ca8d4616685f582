import Chip8.Proofs.Machine.Veil
import Mathlib.Data.List.Forall2

/-!
Indexing. Memory is addressed through the index register modulo its size, so the register behaves
like one of twelve bits: what stands above these shows nowhere, over whole histories.
-/

namespace Chip8

namespace Memory

theorem fetch_congr (m : Memory) {a b : Nat} (h : a % 4096 = b % 4096) (n : Nat) :
    m.fetch a n = m.fetch b n := by
  unfold fetch
  apply List.map_congr_left
  intro k _
  apply read_congr
  omega

theorem store_congr (m : Memory) {a b : Nat} (h : a % 4096 = b % 4096) (bytes : List UInt8) :
    m.store a bytes = m.store b bytes := by
  induction bytes generalizing m a b with
  | nil => rfl
  | cons byte rest ih =>
    have hwrite : m.write a byte = m.write b byte := by simp only [write, h]
    have hnext : (a + 1) % 4096 = (b + 1) % 4096 := by omega
    rw [store, store, hwrite, ih _ hnext]

end Memory

variable {m m' : Machine}

namespace Machine

/-- The machine with only the twelve bits of its index register that address memory. -/
def narrow (m : Machine) : Machine :=
  { m with index := m.index % 4096 }

/-- That machines differ in the index register at most, and there not modulo the size of memory. -/
structure AgreesUpToIndex (m m' : Machine) : Prop where
  rest_eq : m' = { m with index := m'.index }
  index_eq : m'.index.toNat % 4096 = m.index.toNat % 4096

theorem mod_eq_mod_iff {a b : UInt16} : a % 4096 = b % 4096 ↔ a.toNat % 4096 = b.toNat % 4096 := by
  rw [← UInt16.toNat_inj, UInt16.toNat_mod, UInt16.toNat_mod]
  rfl

theorem mod_index_narrow (m : Machine) : m.narrow.index.toNat % 4096 = m.index.toNat % 4096 := by
  show (m.index % 4096).toNat % 4096 = _
  rw [UInt16.toNat_mod]
  exact Nat.mod_mod _ _

theorem narrow_eq_narrow_iff : m.narrow = m'.narrow ↔ m.AgreesUpToIndex m' := by
  constructor
  · intro h
    have hindex : m'.index % 4096 = m.index % 4096 := (congrArg index h).symm
    refine ⟨?_, mod_eq_mod_iff.mp hindex⟩
    calc
      m' = { m'.narrow with index := m'.index } := rfl
      _ = { m.narrow with index := m'.index } := by rw [h]
      _ = { m with index := m'.index } := rfl
  · intro ⟨hrest, hindex⟩
    have hindex : m'.index % 4096 = m.index % 4096 := mod_eq_mod_iff.mpr hindex
    rw [hrest]
    simp only [narrow, hindex]

end Machine

namespace Veil

/-- The veil over what the index register holds above the twelve bits that address memory. -/
def highIndex : Veil :=
  { index := (· % 4096) }

theorem lawful_highIndex : highIndex.Lawful where
  settings _ := rfl
  index a := by
    show a % 4096 % 4096 = a % 4096
    rw [Machine.mod_eq_mod_iff, UInt16.toNat_mod]
    exact Nat.mod_mod _ _
  delay _ := rfl
  sound _ := rfl
  generator _ := rfl
  delay_tick _ := rfl
  sound_tick _ := rfl

theorem fetch_highIndex (m : Machine) (n : Nat) :
    (highIndex.apply m).memory.fetch (highIndex.apply m).index.toNat n =
      m.memory.fetch m.index.toNat n :=
  m.memory.fetch_congr m.mod_index_narrow n

theorem store_highIndex (m : Machine) (bytes : List UInt8) :
    (highIndex.apply m).memory.store (highIndex.apply m).index.toNat bytes =
      m.memory.store m.index.toNat bytes :=
  m.memory.store_congr m.mod_index_narrow bytes

/-- An instruction finds in memory what it would find through all sixteen bits. -/
theorem covers_highIndex (m : Machine) (a : Nat) (i : Instruction) : highIndex.Covers m a i := by
  cases i with
  | loadIndex b | pointAtGlyph x => exact ⟨rfl, rfl⟩
  | addToIndex x =>
    refine ⟨Machine.narrow_eq_narrow_iff.mpr ⟨rfl, ?_⟩, rfl⟩
    show (m.index + (m.registers.get x).toUInt16).toNat % 4096 =
      (m.narrow.index + (m.registers.get x).toUInt16).toNat % 4096
    have hindex := m.mod_index_narrow
    rw [UInt16.toNat_add, UInt16.toNat_add]
    omega
  | draw | loadRegisters =>
    apply lawful_highIndex.covers_of_eq
    simp only [Machine.execute, fetch_highIndex]
    rfl
  | storeDecimal | storeRegisters =>
    apply lawful_highIndex.covers_of_eq
    simp only [Machine.execute, store_highIndex]
    rfl
  | random | readDelay | setDelay | setSound => exact lawful_highIndex.covers_of_eq rfl
  | _ =>
    apply lawful_highIndex.covers_of_isPlain
    trivial

end Veil

namespace Machine

theorem narrow_noninterference : Noninterference narrow fun _ => True :=
  Veil.lawful_highIndex.noninterference (fun _ _ => trivial) fun _ _ => Veil.covers_highIndex _ _ _

theorem stepsFrom_true (m : Machine) (ops : List Operation) : m.StepsFrom (fun _ => True) ops := by
  induction ops generalizing m with
  | nil => trivial
  | cons op rest ih => exact ⟨fun _ => trivial, ih _⟩

/-- That two outcomes agree in all but the index register, and there modulo the size of memory. -/
def OutcomesAgree (o o' : Outcome (Option Signal)) : Prop :=
  o.machine.AgreesUpToIndex o'.machine ∧ o'.result = o.result ∧ o'.log = o.log

theorem view_narrow_eq_iff {o o' : Outcome (Option Signal)} :
    o.view narrow = o'.view narrow ↔ OutcomesAgree o o' := by
  rw [Outcome.view_eq_iff, narrow_eq_narrow_iff, OutcomesAgree, eq_comm (a := o.result),
    eq_comm (a := o.log)]

/-- The outcomes on a machine of which only twelve bits of the index register are kept, before the
first operation and after each. -/
def narrowOutcomes (m : Machine) : List Operation → List (Outcome (Option Signal))
  | [] => []
  | op :: rest =>
    (m.narrow.perform op).view narrow :: (m.narrow.perform op).machine.narrowOutcomes rest

theorem narrowOutcomes_eq (history : List Operation) (h : m.narrow = m'.narrow) :
    m.narrowOutcomes history = (m'.outcomes history).map (Outcome.view narrow) := by
  induction history generalizing m m' with
  | nil => rfl
  | cons op rest ih =>
    have hnarrow : m.narrow.narrow = m'.narrow := (Veil.lawful_highIndex.apply_apply m).trans h
    have hop := narrow_noninterference.perform_parts op (stepsFrom_true _ _) hnarrow
    rw [narrowOutcomes, outcomes, List.map_cons, hop, ih (Outcome.view_eq_iff.mp hop).1]

/-- Machines that differ in the index register alone, and there not modulo the size of memory, give
the same results over every history and go on differing in nothing else. Both give what a machine
gives that keeps no more than twelve bits in the register. -/
theorem index_counts_modulo_memory (h : m.AgreesUpToIndex m') (history : List Operation) :
    List.Forall₂ OutcomesAgree (m.outcomes history) (m'.outcomes history) ∧
      m.narrowOutcomes history = (m'.outcomes history).map (Outcome.view narrow) := by
  have hnarrow : m.narrow = m'.narrow := narrow_eq_narrow_iff.mpr h
  have hviews := narrow_noninterference.outcomes history (stepsFrom_true m _) hnarrow
  refine ⟨?_, narrowOutcomes_eq history hnarrow⟩
  rw [← List.forall₂_eq_eq_eq, List.forall₂_map_left_iff, List.forall₂_map_right_iff] at hviews
  exact hviews.imp fun _ _ => view_narrow_eq_iff.mp

/-- A program that stores decimal digits across the end of memory and then adds to the register,
which wraps in one of the machines. -/
theorem index_counts_modulo_memory_across_wrap : ∃ m, Reachable m ∧
    m.executed [.run 3, .tick, .step] =
      [.storeDecimal 0, .addToIndex 0, .storeRegisters 1, .draw 0 1 3] ∧
    (m.after [.run 3, .tick, .step]).index = 0x1004 ∧
    ({ m with index := 0xFFFF }.after [.run 3, .tick, .step]).index = 0x0004 ∧
    List.Forall₂ OutcomesAgree (m.outcomes [.run 3, .tick, .step])
      ({ m with index := 0xFFFF }.outcomes [.run 3, .tick, .step]) := by
  have hb := @Reachable.create {} (.ofSeed 0) _ rfl
  obtain ⟨m, hm, hx, hi, hw, hj⟩ : ∃ m, Reachable m ∧
      m.executed [.run 3, .tick, .step] =
        [.storeDecimal 0, .addToIndex 0, .storeRegisters 1, .draw 0 1 3] ∧
      (m.after [.run 3, .tick, .step]).index = 0x1004 ∧
      ({ m with index := 0xFFFF }.after [.run 3, .tick, .step]).index = 0x0004 ∧
      m.index.toNat % 4096 = 0x0FFF :=
    ⟨_, hb.after [.load [0xAF, 0xFF, 0x60, 0x05, 0xF0, 0x33, 0xF0, 0x1E, 0xF1, 0x55, 0xD0, 0x13],
      .run 2], by decide +kernel⟩
  have hwide : (0xFFFF : UInt16).toNat % 4096 = 0x0FFF := by decide
  have hagrees : m.AgreesUpToIndex { m with index := 0xFFFF } := ⟨rfl, hwide.trans hj.symm⟩
  exact ⟨m, hm, hx, hi, hw, (index_counts_modulo_memory hagrees _).1⟩

end Machine

end Chip8
