import Chip8.Proofs.Machine.Idle
import Chip8.Proofs.Machine.Switches

/-!
Halting. A halted machine stays as it is until a program is loaded, apart from keys, timers and
glyphs. So between two programs at most one step fails: the one that halts the machine.
-/

namespace Chip8

def Outcome.failure? {α : Type} (o : Outcome α) : Option Failure :=
  match o.result with
  | .error e => some e
  | .ok _ => none

theorem Outcome.failure?_eq_some_iff {α : Type} {o : Outcome α} {e : Failure} :
    o.failure? = some e ↔ o.result = .error e := by
  unfold failure?
  cases o.result <;> simp

namespace Machine

variable {m w : Machine} {op : Operation} {history : List Operation}

/-- The failure that an operation reports in its steps. -/
def failure? (m : Machine) : Operation → Option Failure
  | .step => m.step.failure?
  | .run n => (m.run n).failure?
  | _ => none

/-- The failures that steps and runs report in a history, in order. -/
def failures (m : Machine) : List Operation → List Failure
  | [] => []
  | op :: rest => (m.failure? op).toList ++ (m.perform op).machine.failures rest

theorem failures_append (m : Machine) (history later : List Operation) :
    m.failures (history ++ later) = m.failures history ++ (m.after history).failures later := by
  induction history generalizing m with
  | nil => rfl
  | cons op rest ih =>
    rw [List.cons_append, failures, ih, ← List.append_assoc]
    rfl

theorem failure?_step_of_not_running (hs : m.status ≠ .running) : m.step.failure? = none := by
  cases h : m.status with
  | running => exact absurd h hs
  | waiting x =>
    rw [step_of_waiting h]
    rfl
  | halted =>
    rw [step_of_halted h]
    rfl

/-- A step fails only as it halts the machine. -/
theorem status_of_failure? {e : Failure} (h : m.step.failure? = some e) :
    m.step.machine.status = .halted := by
  cases m.stepped with
  | idle hs _ _ =>
    rw [failure?_step_of_not_running hs] at h
    cases h
  | fault c _ _ hm _ =>
    rw [hm]
    rfl
  | complete i s _ _ _ hr =>
    simp only [Outcome.failure?, hr] at h
    cases h

theorem failure?_of_spares (h : m.Spares op) : m.failure? op = none := by
  cases op with
  | step =>
    have hs : m.status ≠ .running := h.not_runs.resolve_right fun hr => hr.1 rfl
    exact failure?_step_of_not_running hs
  | run n =>
    have hs : m.status ≠ .running := h.not_runs.resolve_right fun hr => hr.2 n rfl
    cases n with
    | zero => rfl
    | succ n =>
      rw [failure?, run_succ_of_not_running hs]
      exact failure?_step_of_not_running hs
  | _ => rfl

theorem failures_of_spares (h : ∀ op ∈ history, m.Spares op) : m.failures history = [] := by
  induction history generalizing m with
  | nil => rfl
  | cons op rest ih =>
    have hop : m.Spares op := h op (.head _)
    have hidle : m.Idles (m.perform op).machine := .perform hop
    rw [failures, failure?_of_spares hop, ih fun o ho => hidle.spares (h o (.tail _ ho))]
    rfl

theorem failures_steps_of_not_running (hs : m.status ≠ .running) (n : Nat) :
    m.failures (List.replicate n .step) = [] := by
  refine failures_of_spares fun op hop => ?_
  rw [List.eq_of_mem_replicate hop]
  exact {
    not_reloads := fun ⟨_, hp, _⟩ => Operation.noConfusion hp
    not_ends := .inl rfl
    not_runs := .inl hs }

private theorem failures_resume (n : Nat) (o : Outcome Signal) (ho : o.failure? = none) :
    o.machine.failures (List.replicate n .step) = (Outcome.resume n o).failure?.toList := by
  induction n generalizing o with
  | zero =>
    rw [Outcome.resume, ho]
    rfl
  | succ n ih =>
    rw [List.replicate_succ, failures, Outcome.resume]
    split
    case isTrue hf =>
      -- The steps that the run spares itself would not fail.
      have hrest := failures_steps_of_not_running (status_of_isFinal hf) n
      change _ ++ o.machine.step.machine.failures _ = _
      rw [hrest, List.append_nil]
      rfl
    case isFalse hf =>
      have hnext : o.machine.step.failure? = none := by
        cases hr : o.machine.step.result with
        | error e => simp [Outcome.isFinal, hr] at hf
        | ok s => simp only [Outcome.failure?, hr]
      change o.machine.step.failure?.toList ++ o.machine.step.machine.failures _ = _
      rw [hnext, Option.toList_none, List.nil_append]
      exact ih { o.machine.step with log := o.log ++ o.machine.step.log } hnext

/-- A run fails as the one of its steps that fails, if any does. -/
theorem failures_parts (m : Machine) (op : Operation) :
    m.failures op.parts = (m.failure? op).toList := by
  cases op with
  | run n => exact failures_resume n ⟨m, .ok .proceed, #[]⟩ rfl
  | _ => exact List.append_nil _

theorem failures_unroll (m : Machine) (history : List Operation) :
    m.failures (Operation.unroll history) = m.failures history := by
  induction history generalizing m with
  | nil => rfl
  | cons op rest ih =>
    rw [Operation.unroll, List.flatMap_cons, failures_append, failures_parts, after_parts, failures,
      ← ih]
    rfl

theorem spares_of_halted (hs : m.status = .halted) (hl : ¬ op.Reloads) : m.Spares op where
  not_reloads := hl
  not_ends := .inr (by simp [hs])
  not_runs := .inl (by simp [hs])

theorem length_failures_of_steps (hl : ∀ op ∈ history, ¬ op.Reloads)
    (hr : ∀ op ∈ history, ∀ n, op ≠ .run n) : (m.failures history).length ≤ 1 := by
  induction history generalizing m with
  | nil => exact Nat.zero_le 1
  | cons op rest ih =>
    have hl' : ∀ o ∈ rest, ¬ o.Reloads := fun o ho => hl o (.tail _ ho)
    rw [failures]
    cases hf : m.failure? op with
    | none => exact ih hl' fun o ho => hr o (.tail _ ho)
    | some e =>
      -- Nothing fails after a failure, for it leaves the machine halted.
      have hs : (m.perform op).machine.status = .halted := by
        cases op with
        | step => exact status_of_failure? hf
        | run n => exact absurd rfl (hr (.run n) (.head _) n)
        | _ => cases hf
      rw [failures_of_spares fun o ho => spares_of_halted hs (hl' o ho)]
      exact Nat.le_refl 1

theorem length_failures_le (hl : ∀ op ∈ history, ¬ op.Reloads) :
    (m.failures history).length ≤ 1 := by
  rw [← failures_unroll]
  exact length_failures_of_steps (fun _ hop => Operation.not_reloads_of_mem_unroll hl hop)
    fun _ hop => Operation.not_run_of_mem_unroll hop

/-- That a history has left a halted machine as it was, with other glyphs at most, timers further
down and keys as they were last turned: its steps and runs report the halt and do nothing. -/
structure StaysHalted (m : Machine) (history : List Operation) (w : Machine) : Prop where
  idles : m.Idles w
  status_eq : w.status = .halted
  fault_eq : w.fault = m.fault
  step : w.step = ⟨w, .ok .halted, #[]⟩
  run : ∀ n, 1 ≤ n → w.run n = ⟨w, .ok .halted, #[]⟩
  countsDown : m.CountsDown w (history.count .tick)
  isDown_eq : ∀ k : Key, w.keypad.isDown k.toByte =
    (Operation.lastEvent? k history).getD (m.keypad.isDown k.toByte)

theorem staysHalted_after (hs : m.status = .halted) (hl : ∀ op ∈ history, ¬ op.Reloads) :
    m.StaysHalted history (m.after history) := by
  have hspares : ∀ op ∈ history, m.Spares op := fun op hop => spares_of_halted hs (hl op hop)
  obtain ⟨hidle, -⟩ := idles_after hspares
  have hw : (m.after history).status = .halted := hidle.status_eq.trans hs
  exact {
    idles := hidle
    status_eq := hw
    fault_eq := by rw [hidle.eq]
    step := step_of_halted hw
    run := fun n hn => by
      obtain ⟨n, rfl⟩ := Nat.exists_eq_add_of_le' hn
      rw [run_succ_of_not_running (by simp [hw]), step_of_halted hw]
    countsDown := .after hspares
    isDown_eq := m.isDown_after history }

/-- Until a program is loaded at most one step fails, within runs or by itself, and a machine that
has halted stays so at every point. -/
theorem halted_until_load (m : Machine) {history : List Operation}
    (hl : ∀ op ∈ history, ¬ op.Reloads) :
    (m.failures history).length ≤ 1 ∧
      m.failures (Operation.unroll history) = m.failures history ∧
      (m.status = .halted → ∀ past, past <+: history → m.StaysHalted past (m.after past)) := by
  refine ⟨length_failures_le hl, m.failures_unroll history, fun hs past hp => ?_⟩
  exact staysHalted_after hs fun op hop => hl op (hp.subset hop)

/-- A machine that has halted with its timers running, and a history with a program that does not
fit, other glyphs, a number that names no key, and keys going down and up. -/
theorem halted_until_load_with_timers : ∃ m p history, Reachable m ∧
    m.status = .halted ∧ m.fault = some (.unknownInstruction 0) ∧ m.delay.toNat = 5 ∧
    p.length = 3585 ∧
    history = [.load p, .loadFont (List.replicate 80 1), .step, .setKey 5 true, .tick, .clearKeys,
      .run 3, .setKeyNumber 7 true, .setKeyNumber 200 true, .tick] ∧
    (m.failures history).length ≤ 1 ∧
    m.StaysHalted history (m.after history) ∧
    (m.after history).delay.toNat = 3 ∧
    (m.after history).keypad.isDown 5 = false ∧ (m.after history).keypad.isDown 7 = true := by
  have hb := @Reachable.create {} (.ofSeed 0) _ rfl
  obtain ⟨m, hm, hs, hf, hd⟩ : ∃ m, Reachable m ∧
      m.status = .halted ∧ m.fault = some (.unknownInstruction 0) ∧ m.delay.toNat = 5 :=
    ⟨_, hb.after [.load [0x60, 0x05, 0xF0, 0x15, 0xF0, 0x18], .run 4], by decide +kernel⟩
  obtain ⟨p, hp⟩ : ∃ p : List UInt8, p.length = 3585 := ⟨_, List.length_replicate (a := 0)⟩
  obtain ⟨history, hh⟩ : ∃ h : List Operation, h =
      [.load p, .loadFont (List.replicate 80 1), .step, .setKey 5 true, .tick, .clearKeys,
        .run 3, .setKeyNumber 7 true, .setKeyNumber 200 true, .tick] := ⟨_, rfl⟩
  have hlarge : Memory.programCapacity < p.length := by
    rw [hp]
    decide
  have hl : ∀ op ∈ history, ¬ op.Reloads := by
    simp [hh, Operation.Reloads, hlarge]
  have hticks : history.count .tick = 2 := by simp [hh]
  have hkeys : Operation.lastEvent? 5 history = some false ∧
      Operation.lastEvent? 7 history = some true := by
    simp only [hh, Operation.lastEvent?, Operation.event?, List.filterMap_cons,
      Nat.not_le.mpr hlarge, if_false]
    exact ⟨rfl, rfl⟩
  obtain ⟨hone, -, hstays⟩ := m.halted_until_load hl
  have hw := hstays hs history (List.prefix_refl _)
  refine ⟨m, p, history, hm, hs, hf, hd, hp, hh, hone, hw, ?_, ?_, ?_⟩
  · rw [hw.countsDown.delay_eq, hd, hticks]
  · have hkey := hw.isDown_eq 5
    rwa [hkeys.1] at hkey
  · have hkey := hw.isDown_eq 7
    rwa [hkeys.2] at hkey

end Machine

end Chip8
