import Chip8.Machine.Execute
import Chip8.Proofs.Instruction.Encoding

/-!
What one step can do. A machine that waits or is halted stays as it is. A running machine halts on
an unknown word, on a return without a call and on a call without room; any other instruction
completes.
-/

namespace Chip8

/-- What an instruction reports when it completes. -/
def Instruction.signal : Instruction → Signal
  | .ret | .jump _ | .call _ => .jump
  | .clearScreen | .draw .. => .draw
  | .setSound _ => .sound
  | .awaitKey _ => .keyWait
  | _ => .proceed

namespace Machine

variable {m : Machine} {i : Instruction} {e : Failure}

theorem toNat_word (m : Machine) : m.word.toNat =
    (m.memory.read m.pc).toNat * 256 + (m.memory.read ((m.pc + 1) % 4096)).toNat := by
  rw [word, Word.toNat_ofBytes, Memory.read_mod]

theorem step_of_waiting {x : UInt8} (hs : m.status = .waiting x) :
    m.step = ⟨m, .ok .keyWait, #[]⟩ := by
  simp only [step, hs]

theorem step_of_halted (hs : m.status = .halted) : m.step = ⟨m, .ok .halted, #[]⟩ := by
  simp only [step, hs]

theorem step_of_unknown (hs : m.status = .running) (hd : Instruction.decode? m.word = none) :
    m.step = ⟨(m.advance.halt (.unknownInstruction m.word)).1,
      .error (.unknownInstruction m.word),
      #[.faulted m.pc (.unknownInstruction m.word)]⟩ := by
  simp only [step, hs, hd]
  rfl

theorem step_of_decode? (hs : m.status = .running) (hd : Instruction.decode? m.word = some i) :
    m.step = ⟨(m.advance.execute m.pc i).1, (m.advance.execute m.pc i).2,
      executionLog m.pc m.word i (m.advance.execute m.pc i).2⟩ := by
  simp only [step, hs, hd]

/-- An instruction is refused exactly where a return finds no address or a call no room. -/
theorem execute_eq_error_iff {a : Nat} : (m.execute a i).2 = .error e ↔
    (i = .ret ∧ m.stack.depth = 0 ∧ e = .stackUnderflow (UInt16.ofNat a)) ∨
    ((∃ t, i = .call t) ∧ CallStack.capacity ≤ m.stack.depth ∧
      e = .stackOverflow (UInt16.ofNat a)) := by
  cases i with
  | ret =>
    cases hp : m.stack.pop? with
    | none =>
      have hd := CallStack.pop?_eq_none_iff.mp hp
      simp [execute, hp, halt, hd, eq_comm]
    | some r =>
      have hd : m.stack.depth ≠ 0 := fun hd => by
        rw [CallStack.pop?_eq_none_iff.mpr hd] at hp
        exact absurd hp (Option.some_ne_none r).symm
      simp [execute, hp, hd]
  | call t =>
    cases hp : m.stack.push? (UInt16.ofNat m.pc) with
    | none =>
      have hd := CallStack.push?_eq_none_iff.mp hp
      simp [execute, hp, halt, hd, eq_comm]
    | some s =>
      have hd := Nat.not_le.mpr (CallStack.depth_of_push? hp).1
      simp [execute, hp, hd]
  | combine f x y => cases f <;> simp [execute, Arithmetic.apply]
  | _ => simp [execute]

/-- A refused instruction has no effect but the halt. -/
theorem execute_of_error {a : Nat} (h : (m.execute a i).2 = .error e) :
    m.execute a i = m.halt e := by
  rcases execute_eq_error_iff.mp h with ⟨rfl, hd, rfl⟩ | ⟨⟨t, rfl⟩, hd, rfl⟩
  · simp only [execute, CallStack.pop?_eq_none_iff.mpr hd]
  · simp only [execute, CallStack.push?_eq_none_iff.mpr hd]

theorem isFatal_of_execute {a : Nat} (h : (m.execute a i).2 = .error e) : e.isFatal = true := by
  rcases execute_eq_error_iff.mp h with ⟨-, -, rfl⟩ | ⟨-, -, rfl⟩ <;> rfl

theorem execute_ret_of_ok {a : Nat} {s : Signal} (h : (m.execute a .ret).2 = .ok s) :
    ∃ b rest, m.stack.pop? = some (b, rest) ∧
      m.execute a .ret = ({ m with stack := rest, pc := b.toNat }, .ok .jump) := by
  cases hp : m.stack.pop? with
  | none =>
    simp only [execute, hp, halt] at h
    cases h
  | some r =>
    obtain ⟨b, rest⟩ := r
    refine ⟨b, rest, rfl, ?_⟩
    simp only [execute, hp]

theorem execute_call_of_ok {a : Nat} {t : UInt16} {s : Signal}
    (h : (m.execute a (.call t)).2 = .ok s) :
    ∃ stack, m.stack.push? (UInt16.ofNat m.pc) = some stack ∧
      m.execute a (.call t) = ({ m with stack, pc := t.toNat }, .ok .jump) := by
  cases hp : m.stack.push? (UInt16.ofNat m.pc) with
  | none =>
    simp only [execute, hp, halt] at h
    cases h
  | some stack =>
    refine ⟨stack, rfl, ?_⟩
    simp only [execute, hp]

theorem signal_of_execute {a : Nat} {s : Signal} (h : (m.execute a i).2 = .ok s) :
    s = i.signal := by
  cases i with
  | ret =>
    obtain ⟨b, rest, -, hx⟩ := execute_ret_of_ok h
    rw [hx] at h
    exact (Except.ok.inj h).symm
  | call t =>
    obtain ⟨stack, -, hx⟩ := execute_call_of_ok h
    rw [hx] at h
    exact (Except.ok.inj h).symm
  | combine f x y => cases f <;> exact (Except.ok.inj h).symm
  | _ => exact (Except.ok.inj h).symm

/-- Of the instructions that complete, only the wait for a key stops the machine. -/
theorem status_of_execute {a : Nat} {s : Signal} (h : (m.execute a i).2 = .ok s) :
    ((m.execute a i).1.status = m.status ∧ s ≠ .keyWait ∧ s ≠ .halted) ∨
    (∃ x, i = .awaitKey x ∧ s = .keyWait ∧ (m.execute a i).1.status = .waiting x) := by
  obtain rfl := signal_of_execute h
  cases i with
  | ret =>
    obtain ⟨b, rest, -, hx⟩ := execute_ret_of_ok h
    rw [hx]
    exact .inl ⟨rfl, nofun, nofun⟩
  | call t =>
    obtain ⟨stack, -, hx⟩ := execute_call_of_ok h
    rw [hx]
    exact .inl ⟨rfl, nofun, nofun⟩
  | awaitKey x => exact .inr ⟨x, rfl, rfl, rfl⟩
  | skipIf c =>
    left
    refine ⟨?_, nofun, nofun⟩
    simp only [execute]
    split <;> rfl
  | loadRegisters x =>
    left
    refine ⟨?_, nofun, nofun⟩
    simp only [execute]
  | combine f x y => cases f <;> exact .inl ⟨rfl, nofun, nofun⟩
  | _ => exact .inl ⟨rfl, nofun, nofun⟩

/-- Only calls and returns touch the stack. -/
theorem stack_execute {a : Nat} (hr : i ≠ .ret) (hc : ∀ t, i ≠ .call t) :
    (m.execute a i).1.stack = m.stack := by
  cases i with
  | ret => exact absurd rfl hr
  | call t => exact absurd rfl (hc t)
  | skipIf c => simp only [execute]; split <;> rfl
  | loadRegisters x => simp only [execute]
  | combine f x y => cases f <;> rfl
  | _ => rfl

/-- That a machine has the settings and the keys of another. -/
structure SharesControls (m w : Machine) : Prop where
  settings_eq : w.settings = m.settings
  keypad_eq : w.keypad = m.keypad

/-- Programs look at the keys and do not move them, and neither do they change the settings. -/
theorem sharesControls_execute (m : Machine) (a : Nat) (i : Instruction) :
    m.SharesControls (m.execute a i).1 := by
  cases i with
  | ret => simp only [execute]; split <;> exact ⟨rfl, rfl⟩
  | call t => simp only [execute]; split <;> exact ⟨rfl, rfl⟩
  | skipIf c => simp only [execute]; split <;> exact ⟨rfl, rfl⟩
  | loadRegisters x => simp only [execute]; exact ⟨rfl, rfl⟩
  | combine f x y => cases f <;> exact ⟨rfl, rfl⟩
  | _ => exact ⟨rfl, rfl⟩

/-- What a step comes to: nothing where the machine does not run, a fault, or an instruction that
completes. -/
inductive Stepped (m : Machine) : Prop
  | idle (hs : m.status ≠ .running) (hm : m.step.machine = m)
    (hr : m.step.result = .ok .keyWait ∨ m.step.result = .ok .halted) : Stepped m
  | fault (e : Failure) (hs : m.status = .running) (he : e.isFatal = true)
    (hm : m.step.machine = (m.advance.halt e).1) (hr : m.step.result = .error e) : Stepped m
  | complete (i : Instruction) (s : Signal) (hs : m.status = .running)
    (hd : Instruction.decode? m.word = some i)
    (hx : m.advance.execute m.pc i = (m.step.machine, .ok s)) (hr : m.step.result = .ok s) :
    Stepped m

theorem stepped (m : Machine) : m.Stepped := by
  cases hs : m.status with
  | waiting x =>
    have h := step_of_waiting hs
    exact .idle (by simp [hs]) (by rw [h]) (.inl (by rw [h]))
  | halted =>
    have h := step_of_halted hs
    exact .idle (by simp [hs]) (by rw [h]) (.inr (by rw [h]))
  | running =>
    cases hd : Instruction.decode? m.word with
    | none =>
      have h := step_of_unknown hs hd
      exact .fault _ hs rfl (by rw [h]) (by rw [h])
    | some i =>
      have h := step_of_decode? hs hd
      cases hr : (m.advance.execute m.pc i).2 with
      | error e =>
        refine .fault e hs (isFatal_of_execute hr) ?_ ?_
        · rw [h, execute_of_error hr]
        · rw [h, hr]
      | ok s =>
        refine .complete i s hs hd ?_ ?_
        · rw [h, ← hr]
        · rw [h, hr]

theorem step_of_not_running (hs : m.status ≠ .running) : m.step.machine = m := by
  cases m.stepped with
  | idle _ hm _ => exact hm
  | fault _ hr | complete _ _ hr => exact absurd hr hs

theorem sharesControls_step (m : Machine) : m.SharesControls m.step.machine := by
  cases m.stepped with
  | idle _ hm _ => rw [hm]; exact ⟨rfl, rfl⟩
  | fault e _ _ hm _ => rw [hm]; exact ⟨rfl, rfl⟩
  | complete i s _ _ hx _ =>
    have h := m.advance.sharesControls_execute m.pc i
    rw [hx] at h
    exact ⟨h.settings_eq, h.keypad_eq⟩

/-- A step that a running machine completes leaves it running, or waiting for a key. -/
theorem status_of_step {s : Signal} (hs : m.status = .running) (hr : m.step.result = .ok s) :
    (m.step.machine.status = .running ∧ s ≠ .keyWait ∧ s ≠ .halted) ∨
    (∃ x, s = .keyWait ∧ m.step.machine.status = .waiting x) := by
  cases m.stepped with
  | idle hn _ _ => exact absurd hs hn
  | fault e _ _ _ he =>
    rw [hr] at he
    cases he
  | complete i t _ hd hx ht =>
    obtain rfl := Except.ok.inj (hr.symm.trans ht)
    have h := status_of_execute (show (m.advance.execute m.pc i).2 = .ok s by rw [hx])
    rw [hx] at h
    rcases h with ⟨hk, hne⟩ | ⟨x, -, hk, hw⟩
    · exact .inl ⟨hk.trans hs, hne⟩
    · exact .inr ⟨x, hk, hw⟩

/-- The instruction that the next step completes; none where the machine does not run or the step
faults. -/
def completed? (m : Machine) : Option Instruction :=
  match m.status, m.step.result with
  | .running, .ok _ => Instruction.decode? m.word
  | _, _ => none

theorem completed?_eq_some_iff : m.completed? = some i ↔
    m.status = .running ∧ Instruction.decode? m.word = some i ∧
      ∃ s, m.step.result = .ok s := by
  unfold completed?
  cases hs : m.status <;> cases hr : m.step.result <;> simp

theorem completed?_of_decode? (hs : m.status = .running)
    (hd : Instruction.decode? m.word = some i) (he : ∀ e, m.step.result ≠ .error e) :
    m.completed? = some i := by
  refine completed?_eq_some_iff.mpr ⟨hs, hd, ?_⟩
  cases hr : m.step.result with
  | error e => exact absurd hr (he e)
  | ok s => exact ⟨s, rfl⟩

theorem step_of_completed? (h : m.completed? = some i) :
    m.step.machine = (m.advance.execute m.pc i).1 ∧
      ∃ s, (m.advance.execute m.pc i).2 = .ok s := by
  obtain ⟨hs, hd, hr⟩ := completed?_eq_some_iff.mp h
  rw [step_of_decode? hs hd] at hr ⊢
  exact ⟨rfl, hr⟩

end Machine

end Chip8
