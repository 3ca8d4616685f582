import Chip8.Machine.Operation
import Chip8.Proofs.Machine.Step

/-!
Histories of operations. A run is a number of steps, so every history unrolls into single
operations, and what they preserve holds at every point of every history. The instructions that a
history executes are those that its steps find.
-/

namespace Chip8

namespace Operation

/-- The single operations that an operation consists of: a run is its steps. -/
def parts : Operation → List Operation
  | .run n => List.replicate n .step
  | op => [op]

/-- A history with every run replaced by its steps. -/
def unroll (history : List Operation) : List Operation :=
  history.flatMap parts

/-- Whether the operation makes the machine ready for another program. -/
def Reloads (op : Operation) : Prop :=
  ∃ p, op = .load p ∧ p.length ≤ Memory.programCapacity

theorem not_run_of_mem_unroll {history : List Operation} {op : Operation}
    (h : op ∈ unroll history) (n : Nat) : op ≠ .run n := by
  obtain ⟨o, -, ho⟩ := List.mem_flatMap.mp h
  cases o with
  | run k =>
    rw [List.eq_of_mem_replicate ho]
    exact nofun
  | _ =>
    rw [List.mem_singleton.mp ho]
    exact nofun

theorem not_reloads_of_mem_unroll {history : List Operation} {op : Operation}
    (hr : ∀ o ∈ history, ¬ o.Reloads) (h : op ∈ unroll history) : ¬ op.Reloads := by
  obtain ⟨o, hm, ho⟩ := List.mem_flatMap.mp h
  cases o with
  | run k =>
    rw [List.eq_of_mem_replicate ho]
    exact fun ⟨_, hp, _⟩ => Operation.noConfusion hp
  | _ =>
    rw [List.mem_singleton.mp ho]
    exact hr _ hm

end Operation

/-- Of the steps that do not fail, those end a run that find the machine waiting or halted or make
it wait. -/
theorem Outcome.isFinal_iff_of_ok {o : Outcome Signal} {s : Signal} (h : o.result = .ok s) :
    o.isFinal = true ↔ s = .keyWait ∨ s = .halted := by
  rw [isFinal, h]
  cases s <;> simp

namespace Machine

variable {m : Machine}

theorem after_append (m : Machine) (h k : List Operation) :
    m.after (h ++ k) = (m.after h).after k :=
  List.foldl_append

theorem after_step_cons (m : Machine) (h : List Operation) :
    m.after (.step :: h) = m.step.machine.after h := rfl

theorem after_steps_of_not_running (hs : m.status ≠ .running) (n : Nat) :
    m.after (List.replicate n .step) = m := by
  induction n with
  | zero => rfl
  | succ n ih => rw [List.replicate_succ, after_step_cons, step_of_not_running hs, ih]

/-- Where a run ends early, further steps change nothing. -/
theorem status_of_isFinal (h : m.step.isFinal = true) : m.step.machine.status ≠ .running := by
  cases m.stepped with
  | idle hs hm _ => rwa [hm]
  | fault e _ _ hm _ =>
    rw [hm]
    exact Status.noConfusion
  | complete i s hs _ _ hr =>
    rcases status_of_step hs hr with ⟨-, hk, hh⟩ | ⟨x, -, hw⟩
    · exact ((Outcome.isFinal_iff_of_ok hr).mp h).elim (absurd · hk) (absurd · hh)
    · rw [hw]
      exact Status.noConfusion

private theorem machine_resume (n : Nat) (o : Outcome Signal) :
    (Outcome.resume n o).machine = o.machine.after (List.replicate n .step) := by
  induction n generalizing o with
  | zero => rfl
  | succ n ih =>
    rw [List.replicate_succ, after_step_cons, Outcome.resume]
    split
    case isTrue hf => exact (after_steps_of_not_running (status_of_isFinal hf) n).symm
    case isFalse => rw [ih]

/-- A run has the effect of all its steps, also of those that it spares itself. -/
theorem machine_run (m : Machine) (n : Nat) :
    (m.run n).machine = m.after (List.replicate n .step) :=
  machine_resume n _

theorem sharesControls_run (m : Machine) (n : Nat) : m.SharesControls (m.run n).machine := by
  rw [machine_run]
  induction n generalizing m with
  | zero => exact ⟨rfl, rfl⟩
  | succ n ih =>
    have hstep := m.sharesControls_step
    have hrest := ih m.step.machine
    exact ⟨hrest.settings_eq.trans hstep.settings_eq, hrest.keypad_eq.trans hstep.keypad_eq⟩

theorem after_parts (m : Machine) (op : Operation) :
    m.after op.parts = (m.perform op).machine := by
  cases op with
  | run n => exact (machine_run m n).symm
  | _ => rfl

theorem after_unroll (m : Machine) (history : List Operation) :
    m.after (Operation.unroll history) = m.after history := by
  induction history generalizing m with
  | nil => rfl
  | cons op rest ih =>
    rw [Operation.unroll, List.flatMap_cons, after_append, after_parts]
    exact ih _

/-- What every operation preserves holds after every history. -/
theorem after_induction {P : Machine → Prop} (hop : ∀ m op, P m → P (m.perform op).machine)
    (h : P m) (history : List Operation) : P (m.after history) := by
  induction history generalizing m with
  | nil => exact h
  | cons op rest ih => exact ih (hop m op h)

/-- The instruction that the next step executes; none where the machine does not run or does not
recognise the word. -/
def next? (m : Machine) : Option Instruction :=
  match m.status with
  | .running => Instruction.decode? m.word
  | .waiting _ | .halted => none

theorem next?_of_running (hs : m.status = .running) : m.next? = Instruction.decode? m.word := by
  simp only [next?, hs]

theorem next?_of_not_running (hs : m.status ≠ .running) : m.next? = none := by
  cases h : m.status with
  | running => exact absurd h hs
  | waiting x => simp only [next?, h]
  | halted => simp only [next?, h]

/-- The instructions that single operations execute, in order. -/
def instructions (m : Machine) : List Operation → List Instruction
  | [] => []
  | op :: ops =>
    (if op = .step then m.next?.toList else []) ++ (m.perform op).machine.instructions ops

/-- The instructions that a history executes, also within its runs. -/
def executed (m : Machine) (history : List Operation) : List Instruction :=
  m.instructions (Operation.unroll history)

theorem instructions_append (m : Machine) (ops later : List Operation) :
    m.instructions (ops ++ later) = m.instructions ops ++ (m.after ops).instructions later := by
  induction ops generalizing m with
  | nil => rfl
  | cons op rest ih =>
    rw [List.cons_append, instructions, ih, ← List.append_assoc]
    rfl

theorem executed_append (m : Machine) (history later : List Operation) :
    m.executed (history ++ later) = m.executed history ++ (m.after history).executed later := by
  rw [executed, Operation.unroll, List.flatMap_append, instructions_append, ← Operation.unroll,
    after_unroll]
  rfl

theorem executed_cons (m : Machine) (op : Operation) (rest : List Operation) :
    m.executed (op :: rest) = m.executed [op] ++ (m.perform op).machine.executed rest :=
  m.executed_append [op] rest

theorem executed_step (m : Machine) : m.executed [.step] = m.next?.toList :=
  List.append_nil _

/-- What does not run executes nothing. -/
theorem instructions_parts_of_not_running (hs : m.status ≠ .running) (op : Operation) :
    m.instructions op.parts = [] := by
  have hnext : m.next? = none := next?_of_not_running hs
  cases op with
  | run n =>
    induction n with
    | zero => rfl
    | succ n ih =>
      change m.next?.toList ++ m.step.machine.instructions (Operation.run n).parts = []
      rw [step_of_not_running hs, hnext, ih]
      rfl
  | step =>
    change m.next?.toList ++ [] = []
    rw [hnext]
    rfl
  | _ => rfl

/-- What a new machine is, and that there is none with a screen of another size. -/
theorem create_eq_ok_iff {s : Settings} {entropy : Generator} : create s entropy = .ok m ↔
    Screen.isAllowedSize s.width s.height = true ∧ m = loadBuiltinFont {
      settings := s
      memory := .blank
      registers := .zero
      index := 0
      pc := Memory.programStart
      stack := {}
      delay := 0
      sound := 0
      keypad := {}
      screen := .dark s.width s.height
      status := .running
      fault := none
      generator := (s.seed.map Generator.ofSeed).getD entropy } := by
  unfold create
  split
  case isTrue hs => rw [Except.ok.injEq, eq_comm, and_iff_right hs]
  case isFalse hs => exact iff_of_false nofun fun h => hs h.1

/-- Machines that operations lead to from a new one. -/
inductive Reachable : Machine → Prop
  | create {settings : Settings} {entropy : Generator} {m : Machine}
      (h : create settings entropy = .ok m) : Reachable m
  | perform {m : Machine} (op : Operation) (h : Reachable m) : Reachable (m.perform op).machine

theorem Reachable.after (h : Reachable m) (history : List Operation) :
    Reachable (m.after history) :=
  after_induction (fun _ op h => .perform op h) h history

end Machine

end Chip8
