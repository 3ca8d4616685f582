import Chip8.Proofs.Machine.Fault
import Chip8.Proofs.Machine.Idle

/-!
Signals. What a step reports tells what it can have changed, so a driver that looks at nothing else
keeps up with the screen.
-/

namespace Chip8.Machine

variable {m w : Machine} {i : Instruction} {op : Operation}

/-- What an instruction that completes with a signal leaves as it was. -/
structure Keeps (m w : Machine) (s : Signal) : Prop where
  screen_eq : s ≠ .draw → w.screen = m.screen
  sound_eq : s ≠ .sound → w.sound = m.sound
  stack_eq : s ≠ .jump → w.stack = m.stack
  pc_eq : s ≠ .jump → w.pc = m.pc ∨ s = .proceed ∧ w.pc = Memory.nextWord m.pc

theorem keeps_execute {a : Nat} {s : Signal} (h : (m.execute a i).2 = .ok s) :
    m.Keeps (m.execute a i).1 s := by
  obtain rfl := signal_of_execute h
  cases i with
  | ret =>
    obtain ⟨b, rest, -, hx⟩ := execute_ret_of_ok h
    rw [hx]
    exact ⟨fun _ => rfl, fun _ => rfl, (absurd rfl ·), (absurd rfl ·)⟩
  | call t =>
    obtain ⟨stack, -, hx⟩ := execute_call_of_ok h
    rw [hx]
    exact ⟨fun _ => rfl, fun _ => rfl, (absurd rfl ·), (absurd rfl ·)⟩
  | jump t => exact ⟨fun _ => rfl, fun _ => rfl, (absurd rfl ·), (absurd rfl ·)⟩
  | clearScreen | draw => exact ⟨(absurd rfl ·), fun _ => rfl, fun _ => rfl, fun _ => .inl rfl⟩
  | setSound x => exact ⟨fun _ => rfl, (absurd rfl ·), fun _ => rfl, fun _ => .inl rfl⟩
  | skipIf c =>
    simp only [execute]
    split
    case isTrue => exact ⟨fun _ => rfl, fun _ => rfl, fun _ => rfl, fun _ => .inr ⟨rfl, rfl⟩⟩
    case isFalse => exact ⟨fun _ => rfl, fun _ => rfl, fun _ => rfl, fun _ => .inl rfl⟩
  | combine f x y => cases f <;> exact ⟨fun _ => rfl, fun _ => rfl, fun _ => rfl, fun _ => .inl rfl⟩
  | _ =>
    simp only [execute]
    exact ⟨fun _ => rfl, fun _ => rfl, fun _ => rfl, fun _ => .inl rfl⟩

/-- That the next step leaves screen, sound timer and stack alone unless its result says otherwise,
and that the result tells where a running machine goes: on to the next word or past it, into a wait
or to a halt. -/
structure Reports (m : Machine) : Prop where
  screen_eq : m.step.result ≠ .ok .draw → m.step.machine.screen = m.screen
  sound_eq : m.step.result ≠ .ok .sound → m.step.machine.sound = m.sound
  stack_eq : m.step.result ≠ .ok .jump → m.step.machine.stack = m.stack
  waits_iff : m.status = .running →
    ((∃ x, m.step.machine.status = .waiting x) ↔ m.step.result = .ok .keyWait)
  halts_iff : m.status = .running ∧ m.step.machine.status = .halted ↔
    ∃ e, m.step.result = .error e
  pc_eq : m.status = .running → ∀ s, m.step.result = .ok s → s ≠ .jump →
    m.step.machine.pc = (m.pc + 2) % 4096 ∨
      s = .proceed ∧ m.step.machine.pc = (m.pc + 4) % 4096

theorem reports_of_idle (hs : m.status ≠ .running) : m.Reports := by
  have hm : m.step.machine = m := step_of_not_running hs
  have hr : ∀ e, m.step.result ≠ .error e := fun e he => by
    cases m.stepped with
    | idle _ _ hr => rcases hr with hr | hr <;> cases hr.symm.trans he
    | fault _ h | complete _ _ h => exact hs h
  exact {
    screen_eq := fun _ => by rw [hm]
    sound_eq := fun _ => by rw [hm]
    stack_eq := fun _ => by rw [hm]
    waits_iff := fun h => absurd h hs
    halts_iff := ⟨fun h => absurd h.1 hs, fun ⟨e, he⟩ => absurd he (hr e)⟩
    pc_eq := fun h => absurd h hs }

theorem reports_of_error {e : Failure} (hs : m.status = .running) (h : m.step.result = .error e) :
    m.Reports := by
  have hm := step_of_error h
  exact {
    screen_eq := fun _ => by rw [hm]
    sound_eq := fun _ => by rw [hm]
    stack_eq := fun _ => by rw [hm]
    waits_iff := fun _ => by simp [hm, h]
    halts_iff := by simp [hs, hm, h]
    pc_eq := fun _ s hr => nomatch h.symm.trans hr }

theorem reports_of_ok {s : Signal} (hs : m.status = .running) (h : m.step.result = .ok s)
    (hk : m.advance.Keeps m.step.machine s) : m.Reports where
  screen_eq hne := hk.screen_eq fun hd => hne (hd ▸ h)
  sound_eq hne := hk.sound_eq fun hd => hne (hd ▸ h)
  stack_eq hne := hk.stack_eq fun hd => hne (hd ▸ h)
  waits_iff _ := by
    rcases status_of_step hs h with ⟨hr, hw, -⟩ | ⟨x, rfl, hw⟩
    · simp [hr, h, hw]
    · simp [hw, h]
  halts_iff := by
    rcases status_of_step hs h with ⟨hr, -⟩ | ⟨x, -, hw⟩
    · simp [hr, h]
    · simp [hw, h]
  pc_eq _ t ht hj := by
    obtain rfl := Except.ok.inj (h.symm.trans ht)
    rcases hk.pc_eq hj with hpc | ⟨hp, hpc⟩
    · exact .inl hpc
    · refine .inr ⟨hp, hpc.trans ?_⟩
      show ((m.pc + 2) % 4096 + 2) % 4096 = (m.pc + 4) % 4096
      omega

theorem reports (m : Machine) : m.Reports := by
  cases m.stepped with
  | idle hs _ _ => exact reports_of_idle hs
  | fault e hs _ _ hr => exact reports_of_error hs hr
  | complete i s hs _ hx hr =>
    have hk := keeps_execute (m := m.advance) (i := i) (a := m.pc) (s := s) (by rw [hx])
    rw [hx] at hk
    exact reports_of_ok hs hr hk

/-- What a driver shows after a step that copies the screen only where the step reports a draw. -/
def shownAfterStep (m : Machine) (shown : Screen) : Screen :=
  match m.step.result with
  | .ok .draw => m.step.machine.screen
  | _ => shown

/-- What such a driver shows after a history; operations other than steps tell it nothing. -/
def shownAfter (m : Machine) (shown : Screen) : List Operation → Screen
  | [] => shown
  | .step :: rest => m.step.machine.shownAfter (m.shownAfterStep shown) rest
  | op :: rest => (m.perform op).machine.shownAfter shown rest

theorem shownAfterStep_screen (m : Machine) :
    m.shownAfterStep m.screen = m.step.machine.screen := by
  unfold shownAfterStep
  split
  case h_1 => rfl
  case h_2 hd => exact (m.reports.screen_eq hd).symm

/-- Of the single operations only steps and loads that succeed touch the screen. -/
theorem screen_of_perform (hs : op ≠ .step) (hn : ∀ n, op ≠ .run n) (hl : ¬ op.Reloads) :
    (m.perform op).machine.screen = m.screen := by
  rw [perform_eq hl (.inr ⟨hs, hn⟩)]

/-- A driver that begins with the screen of the machine goes on showing it. -/
theorem shownAfter_screen {history : List Operation}
    (h : ∀ op ∈ history, ¬ op.Reloads ∧ ∀ n, op ≠ .run n) :
    m.shownAfter m.screen history = (m.after history).screen := by
  induction history generalizing m with
  | nil => rfl
  | cons op rest ih =>
    obtain ⟨hl, hn⟩ := h op (.head _)
    have hrest := @ih (m.perform op).machine fun o ho => h o (.tail _ ho)
    by_cases hs : op = .step
    · subst hs
      rw [shownAfter, shownAfterStep_screen]
      exact hrest
    · rw [shownAfter, ← screen_of_perform hs hn hl]
      · exact hrest
      · exact hs

theorem length_le_of_load {p : List UInt8} (h : (m.load p).result = .ok ()) :
    p.length ≤ Memory.programCapacity := by
  refine Nat.le_of_not_lt fun hp => ?_
  rw [m.load_of_lt hp] at h
  cases h

/-- After a program has been loaded, a driver that begins with a dark screen, and copies the screen
only after a step that reports a draw, always shows the screen of the machine. Every step reports
what it does to sound timer, stack, status and program counter. -/
theorem signals_suffice (hm : Reachable m) :
    (∀ p, (m.load p).result = .ok () → ∀ history : List Operation,
      (∀ op ∈ history, ¬ op.Reloads ∧ ∀ n, op ≠ .run n) →
        (m.load p).machine.shownAfter (.dark m.settings.width m.settings.height) history =
          ((m.load p).machine.after history).screen) ∧
      m.Reports := by
  refine ⟨fun p hp history h => ?_, m.reports⟩
  rw [load_of_le hm.invariant (length_le_of_load hp)]
  exact shownAfter_screen h

/-- A program that draws, sets the sound timer, waits for a key and clears the screen after it. -/
theorem signals_suffice_over_wait : ∃ m p history, Reachable m ∧
    p = [0xD0, 0x05, 0xF0, 0x18, 0xF0, 0x0A, 0x00, 0xE0] ∧
    history = [.step, .tick, .step, .step, .step, .setKey 3 true, .clearKeys] ∧
    ((m.load p).machine.after history).screen.isLit 0 = true ∧
    (m.load p).machine.shownAfter (.dark 64 32) history =
      ((m.load p).machine.after history).screen ∧
    (m.load p).machine.shownAfter (.dark 64 32) (history ++ [.step]) =
      ((m.load p).machine.after (history ++ [.step])).screen := by
  have hm := @Reachable.create {} (.ofSeed 0) _ rfl
  refine ⟨_, _, _, hm, rfl, rfl, by decide +kernel, ?_, ?_⟩
  · exact (signals_suffice hm).1 _ rfl _ (by simp [Operation.Reloads])
  · exact (signals_suffice hm).1 _ rfl _ (by simp [Operation.Reloads])

end Chip8.Machine
