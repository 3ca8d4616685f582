import Chip8.Proofs.Machine.Idle

/-!
The timers over whole histories. Each stands where the instruction that set it last put it, less the
ticks since then, whatever the machine was doing when they came.
-/

namespace Chip8

inductive Timer
  | delay
  | sound
  deriving DecidableEq

/-- The register that an instruction sets a timer from. -/
def Timer.source? : Timer → Instruction → Option UInt8
  | .delay, .setDelay x => some x
  | .sound, .setSound x => some x
  | _, _ => none

/-- A value that a timer was set to, and the ticks since then. -/
structure Timing where
  value : UInt8
  ticks : Nat

/-- What is left of a value after the ticks, zero at least. -/
def Timing.left (t : Timing) : Nat :=
  t.value.toNat - t.ticks

namespace Machine

variable {s : Settings} {entropy : Generator} {m w : Machine} {t : Timer} {op : Operation} {n : Nat}

def timer (m : Machine) : Timer → UInt8
  | .delay => m.delay
  | .sound => m.sound

/-- The value that a single operation sets a timer to: a step that of a register, where it executes
the instruction for it, and a load that succeeds zero. -/
def setting? (m : Machine) (t : Timer) : Operation → Option UInt8
  | .load p => if p.length ≤ Memory.programCapacity then some 0 else none
  | .step => (m.next?.bind t.source?).map m.registers.get
  | _ => none

/-- The values that single operations set a timer to, in order. -/
def timings (m : Machine) (t : Timer) : List Operation → List Timing
  | [] => []
  | op :: rest =>
    ((m.setting? t op).map fun v => ⟨v, rest.count .tick⟩).toList ++
      (m.perform op).machine.timings t rest

/-- The last value that a history of a new machine sets a timer to; the timer starts from zero. -/
def timing (m : Machine) (t : Timer) (history : List Operation) : Timing :=
  (m.timings t (Operation.unroll history)).getLast?.getD
    ⟨0, (Operation.unroll history).count .tick⟩

theorem CountsDown.timer_eq (h : m.CountsDown w n) (t : Timer) :
    (w.timer t).toNat = (m.timer t).toNat - n := by
  cases t with
  | delay => exact h.delay_eq
  | sound => exact h.sound_eq

theorem timer_execute (m : Machine) (a : Nat) (i : Instruction) (t : Timer) :
    (m.execute a i).1.timer t = ((t.source? i).map m.registers.get).getD (m.timer t) := by
  cases i with
  | setDelay x => cases t <;> rfl
  | setSound x => cases t <;> rfl
  | ret => simp only [execute]; split <;> cases t <;> rfl
  | call a => simp only [execute]; split <;> cases t <;> rfl
  | skipIf c => simp only [execute]; split <;> cases t <;> rfl
  | loadRegisters x => simp only [execute]; cases t <;> rfl
  | combine f x y => cases f <;> cases t <;> rfl
  | _ => cases t <;> rfl

theorem timer_step (m : Machine) (t : Timer) :
    m.step.machine.timer t = (m.setting? t .step).getD (m.timer t) := by
  rw [setting?]
  by_cases hs : m.status = .running
  · rw [next?_of_running hs]
    cases hd : Instruction.decode? m.word with
    | none =>
      rw [step_of_unknown hs hd]
      cases t <;> rfl
    | some i =>
      rw [step_of_decode? hs hd, timer_execute]
      cases t <;> rfl
  · rw [step_of_not_running hs, next?_of_not_running hs]
    rfl

theorem timer_load {p : List UInt8} (hp : p.length ≤ Memory.programCapacity) (m : Machine)
    (t : Timer) : (m.load p).machine.timer t = 0 := by
  rw [load, if_pos hp]
  cases t <;> rfl

/-- A single operation other than a tick leaves a timer as it is, unless it sets it. -/
theorem timer_perform (hn : ∀ n, op ≠ .run n) (m : Machine) (t : Timer) :
    ((m.perform op).machine.timer t).toNat =
      ((m.setting? t op).getD (m.timer t)).toNat - [op].count .tick := by
  by_cases hl : op.Reloads
  · obtain ⟨p, rfl, hp⟩ := hl
    have hset : m.setting? t (.load p) = some 0 := if_pos hp
    have hload : (m.perform (.load p)).machine.timer t = 0 := timer_load hp m t
    rw [hload, hset]
    rfl
  · by_cases hs : op = .step
    · subst hs
      exact congrArg UInt8.toNat (timer_step m t)
    · have hset : m.setting? t op = none := by
        cases op with
        | load p => exact if_neg fun hp => hl ⟨p, rfl, hp⟩
        | step => exact absurd rfl hs
        | _ => rfl
      rw [hset, Option.getD_none]
      by_cases ht : op = .tick
      · subst ht
        exact (CountsDown.tick m).timer_eq t
      · rw [List.count_singleton, if_neg (by simpa using ht)]
        exact (CountsDown.perform ht hl (.inr ⟨hs, hn⟩)).timer_eq t

theorem count_tick_of_setting? {v : UInt8} (h : m.setting? t op = some v) :
    [op].count .tick = 0 := by
  have htick : op ≠ .tick := by
    rintro rfl
    cases h
  rw [List.count_singleton, if_neg (by simpa using htick)]

theorem timer_after {ops : List Operation} (hn : ∀ op ∈ ops, ∀ n, op ≠ .run n) (m : Machine)
    (t : Timer) : ((m.after ops).timer t).toNat =
      ((m.timings t ops).getLast?.getD ⟨m.timer t, ops.count .tick⟩).left := by
  induction ops generalizing m with
  | nil => rfl
  | cons op rest ih =>
    have hop := timer_perform (hn op (.head _)) m t
    have hrest := ih (fun o ho => hn o (.tail _ ho)) (m.perform op).machine
    have hcount : (op :: rest).count .tick = [op].count .tick + rest.count .tick := by
      rw [← List.count_append, List.singleton_append]
    change (((m.perform op).machine.after rest).timer t).toNat = _
    rw [hrest, timings, List.getLast?_append]
    -- A setting in the rest hides what the first operation does; without one the ticks add up.
    cases hlast : ((m.perform op).machine.timings t rest).getLast? with
    | some last => rfl
    | none =>
      cases hset : m.setting? t op with
      | none =>
        rw [hset] at hop
        show ((m.perform op).machine.timer t).toNat - rest.count .tick =
          (m.timer t).toNat - (op :: rest).count .tick
        rw [hop, hcount, ← Nat.sub_sub]
        rfl
      | some v =>
        rw [hset, count_tick_of_setting? hset] at hop
        show ((m.perform op).machine.timer t).toNat - rest.count .tick =
          v.toNat - rest.count .tick
        rw [hop]
        rfl

/-- A timer is what is left of its last setting, at every point of a history. -/
theorem timer_eq_left (hc : create s entropy = .ok m) (history : List Operation) (t : Timer) :
    ((m.after history).timer t).toNat = (m.timing t history).left := by
  have hzero : m.timer t = 0 := by
    rw [(create_eq_ok_iff.mp hc).2]
    cases t <;> rfl
  have hunrolled : ∀ op ∈ Operation.unroll history, ∀ n, op ≠ .run n := fun _ =>
    Operation.not_run_of_mem_unroll
  rw [← after_unroll, timer_after hunrolled, hzero]
  rfl

theorem buzzer_iff : m.buzzer = true ↔ 0 < (m.timer .sound).toNat := by
  rw [buzzer, decide_eq_true_eq]
  exact UInt8.lt_iff_toNat_lt

theorem get_step_of_readDelay {x : UInt8} (h : m.next? = some (.readDelay x)) :
    m.step.machine.registers.get x = m.timer .delay := by
  have hs : m.status = .running := Decidable.byContradiction fun hs => by
    rw [next?_of_not_running hs] at h
    cases h
  rw [next?_of_running hs] at h
  rw [step_of_decode? hs h]
  exact Registers.get_set_self ..

/-- Over a whole history, in runs and in single steps, each timer of a new machine stands at the
value that it was last set to, less the ticks since then and at zero at least: the value is that of
a register if an instruction for it was executed after the last load that succeeded, and zero if
none was. The ticks count whether the machine runs, waits or is halted when they come. The
instruction that reads the delay timer gets just that, and the buzzer sounds while it is not zero
for the sound timer. -/
theorem timers_count_down (hc : create s entropy = .ok m) (history : List Operation) :
    (∀ t, ((m.after history).timer t).toNat = (m.timing t history).left) ∧
    (∀ points later, Operation.unroll history = points ++ .step :: later →
      ∀ x, (m.after points).next? = some (.readDelay x) →
        ((m.after points).step.machine.registers.get x).toNat = (m.timing .delay points).left) ∧
    ((m.after history).buzzer = true ↔ 0 < (m.timing .sound history).left) := by
  refine ⟨timer_eq_left hc history, fun points later _ x hx => ?_, ?_⟩
  · rw [get_step_of_readDelay hx, timer_eq_left hc]
  · rw [buzzer_iff, timer_eq_left hc]

/-- Ticks that come before the load, between steps, during the wait for a key and after the fault;
both timers are set, and the delay timer is read after three ticks and stands lower after five. -/
theorem timers_count_down_through_wait : ∃ blank history,
    create {} (.ofSeed 0) = .ok blank ∧
    history = [.tick, .load [0x60, 0x09, 0xF0, 0x15, 0x62, 0x02, 0xF2, 0x18, 0xF3, 0x0A, 0xF1, 0x07],
      .run 4, .tick, .step, .tick, .run 3, .setKey 5 true, .tick, .run 2, .tick, .tick] ∧
    (blank.after history).status = .halted ∧
    (blank.after history).registers.get 1 = 6 ∧
    ((blank.after history).timer .delay).toNat = 4 ∧
    ((blank.after history).timer .sound).toNat = 0 ∧ (blank.after history).buzzer = false ∧
    ∃ points later, Operation.unroll history = points ++ .step :: later ∧
      ((blank.after points).step.machine.registers.get 1).toNat = 6 := by
  obtain ⟨blank, hc⟩ : ∃ blank, create {} (.ofSeed 0) = .ok blank := ⟨_, rfl⟩
  obtain ⟨history, hh⟩ : ∃ h : List Operation, h =
      [.tick, .load [0x60, 0x09, 0xF0, 0x15, 0x62, 0x02, 0xF2, 0x18, 0xF3, 0x0A, 0xF1, 0x07],
        .run 4, .tick, .step, .tick, .run 3, .setKey 5 true, .tick, .run 2, .tick, .tick] :=
    ⟨_, rfl⟩
  obtain ⟨points, hp⟩ : ∃ ops, ops = (Operation.unroll history).take 14 := ⟨_, rfl⟩
  obtain ⟨hs, hv, hdelay, hsound, hread, hnext⟩ : (blank.after history).status = .halted ∧
      (blank.after history).registers.get 1 = 6 ∧
      (blank.timing .delay history).left = 4 ∧ (blank.timing .sound history).left = 0 ∧
      (blank.timing .delay points).left = 6 ∧
      (blank.after points).next? = some (.readDelay 1) := by
    obtain rfl := Except.ok.inj hc
    rw [hp, hh]
    decide +kernel
  have hpoints : Operation.unroll history =
      points ++ .step :: (Operation.unroll history).drop 15 := by
    rw [hp, hh]
    rfl
  obtain ⟨htimers, hreads, hbuzzer⟩ := timers_count_down hc history
  refine ⟨blank, history, hc, hh, hs, hv, ?_, ?_, ?_, points, _, hpoints, ?_⟩
  · rw [htimers, hdelay]
  · rw [htimers, hsound]
  · rw [← Bool.not_eq_true, hbuzzer, hsound]
    exact Nat.lt_irrefl 0
  · rw [hreads points _ hpoints 1 hnext, hread]

end Machine

end Chip8
