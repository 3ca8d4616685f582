import Chip8.Proofs.Machine.Idle
import Chip8.Proofs.Machine.Noninterference

/-!
Stores. Programs write to memory from the index on, by two instructions only. A program whose cells
they spare stays as it was loaded, whatever is done to the machine short of loading another.
-/

namespace Chip8

variable {m : Machine} {i : Instruction} {p : List UInt8} {c n : Nat}

/-- How many cells an instruction writes, from the index on. -/
def Instruction.stored : Instruction → Nat
  | .storeDecimal _ => 3
  | .storeRegisters x => x.toNat % 16 + 1
  | _ => 0

namespace Machine

/-- That an instruction writes to the cell at an address. -/
def Stores (m : Machine) (i : Instruction) (c : Nat) : Prop :=
  ∃ k < i.stored, (m.index.toNat + k) % 4096 = c % 4096

instance (m : Machine) (i : Instruction) (c : Nat) : Decidable (m.Stores i c) :=
  inferInstanceAs (Decidable (∃ k < i.stored, _))

theorem read_execute {a : Nat} (h : ¬ m.Stores i c) :
    (m.execute a i).1.memory.read c = m.memory.read c := by
  have hmiss (bs : List UInt8) (hbs : bs.length = i.stored) :
      (m.memory.store m.index.toNat bs).read c = m.memory.read c := by
    refine m.memory.read_store_of_ne _ _ _ fun k hk hc => ?_
    exact h ⟨k, by rwa [← hbs], hc⟩
  cases i with
  | storeDecimal x => exact hmiss _ rfl
  | storeRegisters x => exact hmiss _ (m.registers.length_upTo x)
  | ret | call | skipIf => simp only [execute]; split <;> rfl
  | loadRegisters x => simp only [execute]
  | combine f x y => cases f <;> rfl
  | _ => rfl

theorem read_step (h : ∀ i, m.next? = some i → ¬ m.Stores i c) :
    m.step.machine.memory.read c = m.memory.read c := by
  cases m.stepped with
  | idle _ hm _ => rw [hm]
  | fault e _ _ hm _ =>
    rw [hm]
    rfl
  | complete i s hs hd hx _ =>
    have hi : m.next? = some i := by rw [next?_of_running hs, hd]
    have hmiss : ¬ m.advance.Stores i c := h i hi
    have hread := read_execute (a := m.pc) hmiss
    rw [hx] at hread
    exact hread

/-- That a program is in its place. -/
def Carries (m : Machine) (p : List UInt8) : Prop :=
  ∀ k < p.length, m.memory.read (Memory.programStart + k) = p.getD k 0

/-- That the next step writes to none of the cells of a program of `n` bytes. -/
def SparesProgram (n : Nat) (m : Machine) : Prop :=
  ∀ i, m.next? = some i → ∀ k < n, ¬ m.Stores i (Memory.programStart + k)

instance (n : Nat) (m : Machine) : Decidable (m.SparesProgram n) :=
  inferInstanceAs (Decidable (∀ i ∈ m.next?, ∀ k < n, ¬ m.Stores i (Memory.programStart + k)))

namespace Carries

theorem load (m : Machine) (hp : p.length ≤ Memory.programCapacity) :
    (m.load p).machine.Carries p := by
  have hlength : p.length ≤ 3584 := hp
  intro k hk
  rw [Machine.load, if_pos hp]
  let blank := m.clear.loadBuiltinFont.memory
  have hread : (blank.store Memory.programStart p).read (Memory.programStart + k) =
      p.getD (Memory.programStart + k - Memory.programStart) 0 :=
    blank.read_store_of_mem (by omega) (by omega) (by omega)
  rwa [Nat.add_sub_cancel_left] at hread

theorem step (h : m.Carries p) (hs : m.SparesProgram p.length) : m.step.machine.Carries p := by
  intro k hk
  rw [read_step fun i hi => hs i hi k hk, h k hk]

theorem perform (h : m.Carries p) (hp : p.length ≤ Memory.programCapacity) {op : Operation}
    (hl : ¬ op.Reloads) (hn : ∀ n, op ≠ .run n) (hs : op = .step → m.SparesProgram p.length) :
    (m.perform op).machine.Carries p := by
  have hp : p.length ≤ 3584 := hp
  by_cases ho : op = .step
  · rw [ho]
    exact h.step (hs ho)
  · intro k hk
    cases touches hl (.inr ⟨ho, hn⟩) with
    | nothing hm => rw [hm, h k hk]
    | glyphs glyphs hg hm =>
      have hplace : 80 ≤ (Memory.programStart + k) % 4096 := by
        simp only [Memory.programStart]
        omega
      rw [hm]
      exact (m.memory.read_store_glyphs hg hplace).trans (h k hk)
    | key j down _ hm =>
      rw [hm, ← h k hk]
      simp only [setKey]
      split <;> rfl
    | keys hm =>
      rw [hm]
      exact h k hk
    | timers _ hm =>
      rw [hm]
      exact h k hk

/-- A program that every step spares is in its place at every step. -/
theorem stepsFrom (h : m.Carries p) (hp : p.length ≤ Memory.programCapacity)
    {ops : List Operation} (hl : ∀ op ∈ ops, ¬ op.Reloads) (hn : ∀ op ∈ ops, ∀ n, op ≠ .run n)
    (hs : m.StepsFrom (SparesProgram p.length) ops) : m.StepsFrom (fun w => w.Carries p) ops := by
  induction ops generalizing m with
  | nil => trivial
  | cons op rest ih =>
    obtain ⟨hop, hrest⟩ := hs
    have hnext := h.perform hp (hl op (.head _)) (hn op (.head _)) hop
    refine ⟨fun _ => h, ?_⟩
    exact ih hnext (fun o ho => hl o (.tail _ ho)) (fun o ho => hn o (.tail _ ho)) hrest

end Carries

end Machine

end Chip8
