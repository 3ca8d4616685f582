import Chip8.Proofs.Clock.Polling
import Chip8.Proofs.Machine.Mask
import Chip8.Session
import Mathlib.Logic.Function.Iterate

/-!
Schedules. Whatever ticks its clocks give out and whenever, a session that does not read the delay
timer executes what a plain loop without clocks executes, and leaves the same report.
-/

namespace Chip8

/-- The plain loop: a turn ends the run where `steps` has reached the limit, and otherwise takes a
step, prints a frame where the step draws, and ends the run where it waits for a key or faults.
Given up after a number of turns. -/
def Machine.play (limit : Option Nat) (turns steps frames : Nat) (out : String) (m : Machine) :
    Option Report :=
  match turns with
  | 0 => none
  | turns + 1 =>
    if limit.any (· ≤ steps) then some ⟨0, out ++ m.screen.text, ""⟩
    else
      let o := m.step
      match o.result with
      | .ok .draw =>
        let frame := "frame " ++ Numeral.decimal (frames + 1) ++ "\n" ++ o.machine.screen.text
        o.machine.play limit turns (steps + 1) (frames + 1) (out ++ frame)
      | .ok .keyWait => some ⟨0, out ++ o.machine.screen.text, ""⟩
      | .ok _ => o.machine.play limit turns (steps + 1) frames out
      | .error cause => some ⟨1, out, "application error: " ++ cause.message ++ "\n"⟩

/-- The mask over all that has to do with time: the timers and the rate. -/
def Mask.pace : Mask :=
  { delay := some 0, sound := some 0, frequency := some none }

theorem Mask.reveals_pace_iff {i : Instruction} : pace.Reveals i ↔ ∃ x, i = .readDelay x :=
  pace.reveals_iff nofun rfl

/-- A report does not change where the loop is given more turns. -/
theorem Machine.play_of_le {limit : Option Nat} {n n' steps frames : Nat} {out : String}
    {m : Machine} {r : Report} (h : m.play limit n steps frames out = some r) (hn : n ≤ n') :
    m.play limit n' steps frames out = some r := by
  induction n generalizing n' steps frames out m with
  | zero => cases h
  | succ n ih =>
    obtain ⟨k, rfl⟩ : ∃ k, n' = k + 1 := ⟨n' - 1, by omega⟩
    have hk : n ≤ k := Nat.le_of_succ_le_succ hn
    rw [play] at h ⊢
    split at h
    case isTrue hl => rwa [if_pos hl]
    case isFalse hl =>
      rw [if_neg hl]
      cases hr : m.step.result with
      | error cause => simpa only [hr] using h
      | ok signal =>
        cases signal with
        | keyWait => simpa only [hr] using h
        | _ =>
          simp only [hr] at h ⊢
          exact ih h hk

/-- With a seed in the settings, neither the entropy nor the rate makes another machine. -/
theorem Machine.create_of_seed {settings : Settings} {seed : UInt64}
    (hseed : settings.seed = some seed)
    (hsize : Screen.isAllowedSize settings.width settings.height = true) :
    ∃ blank, create settings (.ofSeed seed) = .ok blank ∧
      ∀ rate entropy, ∃ blank', create { settings with frequency := rate } entropy = .ok blank' ∧
        Mask.pace.apply blank' = Mask.pace.apply blank := by
  obtain ⟨rate, width, height, placement, _⟩ := settings
  subst hseed
  exact ⟨_, if_pos hsize, fun rate entropy => ⟨_, if_pos hsize, rfl⟩⟩

/-- The rate that the options ask for goes into the settings and nowhere else. -/
theorem RunOptions.settings_of_frequency {o : RunOptions} {files : Files} {settings : Settings}
    (h : o.settings files = .ok settings) (hz : Option Nat) :
    ∃ rate, { o with frequency := hz }.settings files =
      .ok { settings with frequency := rate } := by
  unfold RunOptions.settings at h ⊢
  cases hc : o.config with
  | none =>
    simp only [hc] at h ⊢
    obtain rfl := Except.ok.inj h
    exact ⟨_, rfl⟩
  | some name =>
    cases hf : files name with
    | error problem => cases problem <;> simp [hc, hf] at h
    | ok bytes =>
      cases hb : Settings.ofBytes bytes with
      | error problem => simp [hc, hf, hb] at h
      | ok read =>
        simp only [hc, hf, hb] at h ⊢
        obtain rfl := Except.ok.inj h
        exact ⟨_, rfl⟩

namespace Session

variable {s s' : Session}

/-- The instruction that the next turn executes; none where it executes none. -/
def next? (s : Session) : Option Instruction :=
  if s.ending.isSome ∨ s.limit.any (· ≤ s.steps) then none else s.machine.next?

/-- The instructions that a number of turns executes. -/
def executedIn (s : Session) : Nat → List Instruction
  | 0 => []
  | n + 1 => s.next?.toList ++ s.advance.executedIn n

/-- The session after polls that find the given ticks of timers and instructions. -/
def fed (s : Session) (schedule : List (Nat × Nat)) : Session :=
  schedule.foldl (fun s ticks => s.poll ticks.1 ticks.2) s

/-- The instructions that a session executes on a schedule. -/
def executed (s : Session) : List (Nat × Nat) → List Instruction
  | [] => []
  | (timerTicks, stepTicks) :: rest =>
    (s.poll timerTicks 0).executedIn stepTicks ++ (s.poll timerTicks stepTicks).executed rest

/-- The turns that a schedule has room for. -/
def turns : List (Nat × Nat) → Nat
  | [] => 0
  | (_, stepTicks) :: rest => stepTicks + turns rest

theorem advance_of_over (h : s.ending.isSome = true) : s.advance = s := by
  rw [advance, if_pos h]

theorem iterate_advance_of_over (h : s.ending.isSome = true) (n : Nat) : advance^[n] s = s :=
  Function.iterate_fixed (advance_of_over h) n

theorem repeat_eq_iterate {α : Type} (f : α → α) (n : Nat) (a : α) :
    Nat.repeat f n a = f^[n] a := by
  induction n with
  | zero => rfl
  | succ n ih => rw [Function.iterate_succ_apply', ← ih, Nat.repeat]

theorem poll_eq (s : Session) (timerTicks stepTicks : Nat) :
    s.poll timerTicks stepTicks = advance^[stepTicks] (s.poll timerTicks 0) := by
  by_cases h : s.ending.isSome = true
  · rw [poll, poll, if_pos h, if_pos h, iterate_advance_of_over h]
  · rw [poll, poll, if_neg h, if_neg h, repeat_eq_iterate, repeat_eq_iterate]
    rfl

theorem executedIn_add (s : Session) (n k : Nat) :
    s.executedIn (n + k) = s.executedIn n ++ (advance^[n] s).executedIn k := by
  induction n generalizing s with
  | zero => rw [Nat.zero_add]; rfl
  | succ n ih =>
    rw [Nat.succ_add, executedIn, executedIn, ih, List.append_assoc, Function.iterate_succ_apply]

/-- A session with its machine behind a mask. -/
def masked (s : Session) (k : Mask) : Session :=
  { s with machine := k.apply s.machine }

theorem next?_masked (s : Session) (k : Mask) : (s.masked k).next? = s.next? := rfl

theorem masked_advance (k : Mask) (hi : ∀ i, s.next? = some i → ¬ k.Reveals i) :
    (s.masked k).advance.masked k = s.advance.masked k := by
  have hover : (s.masked k).ending = s.ending := rfl
  have hlimit : (s.masked k).limit.any (· ≤ (s.masked k).steps) = s.limit.any (· ≤ s.steps) := rfl
  unfold advance
  rw [hover, hlimit]
  by_cases ho : s.ending.isSome = true
  · rw [if_pos ho, if_pos ho]
    simp [masked]
  by_cases hl : s.limit.any (· ≤ s.steps) = true
  · rw [if_neg ho, if_pos hl, if_neg ho, if_pos hl]
    simp [masked]
  have hnext : s.next? = s.machine.next? := if_neg (by simp [ho, hl])
  rw [hnext] at hi
  obtain ⟨hm, hr, -⟩ := Outcome.view_eq_iff.mp (k.step_apply hi)
  have hscreen := congrArg Machine.screen hm
  rw [k.screen_apply, k.screen_apply] at hscreen
  rw [if_neg ho, if_neg hl, if_neg ho, if_neg hl]
  have hmachine : (s.masked k).machine = k.apply s.machine := rfl
  simp only [hmachine, hr]
  split
  all_goals simp only [masked, hm, hscreen]

/-- Sessions that look alike execute the same in as many turns, unless a masked part is revealed
to one of them. -/
theorem iterate_advance_masked (k : Mask) {n : Nat} (h : s.masked k = s'.masked k)
    (hi : (∀ i ∈ s.executedIn n, ¬ k.Reveals i) ∨ ∀ i ∈ s'.executedIn n, ¬ k.Reveals i) :
    s.executedIn n = s'.executedIn n ∧
      (advance^[n] s).masked k = (advance^[n] s').masked k := by
  induction n generalizing s s' with
  | zero => exact ⟨rfl, h⟩
  | succ n ih =>
    have hnext : (s.masked k).next? = (s'.masked k).next? := congrArg next? h
    rw [next?_masked, next?_masked] at hnext
    have hhead : ∀ i, s.next? = some i → ¬ k.Reveals i := fun i hn => by
      rcases hi with hi | hi
      · exact hi i (List.mem_append_left _ (Option.mem_toList.mpr hn))
      · exact hi i (List.mem_append_left _ (Option.mem_toList.mpr (hnext ▸ hn)))
    have hadv : s.advance.masked k = s'.advance.masked k := by
      rw [← masked_advance k hhead, h, masked_advance k (hnext ▸ hhead)]
    obtain ⟨he, hm⟩ := ih hadv (hi.imp (fun hi i hm => hi i (List.mem_append_right _ hm))
      fun hi i hm => hi i (List.mem_append_right _ hm))
    refine ⟨?_, hm⟩
    rw [executedIn, executedIn, hnext, he]

theorem masked_poll_zero (s : Session) (timerTicks : Nat) :
    (s.poll timerTicks 0).masked Mask.pace = s.masked Mask.pace := by
  have htick : Mask.pace.apply (Nat.repeat Machine.tick timerTicks s.machine) =
      Mask.pace.apply s.machine := by
    induction timerTicks with
    | zero => rfl
    | succ n ih => exact ih
  unfold poll
  split
  case isTrue => rfl
  case isFalse =>
    exact congrArg (fun m => ({ s with machine := m } : Session)) htick

/-- On a schedule a session executes what it executes in as many turns without timers. -/
theorem fed_masked (schedule : List (Nat × Nat)) (h : s.masked Mask.pace = s'.masked Mask.pace)
    (hi : (∀ i ∈ s.executed schedule, ¬ Mask.pace.Reveals i) ∨
      ∀ i ∈ s'.executedIn (turns schedule), ¬ Mask.pace.Reveals i) :
    s.executed schedule = s'.executedIn (turns schedule) ∧
      (s.fed schedule).masked Mask.pace =
        (advance^[turns schedule] s').masked Mask.pace := by
  induction schedule generalizing s s' with
  | nil => exact ⟨rfl, h⟩
  | cons ticks rest ih =>
    obtain ⟨timerTicks, stepTicks⟩ := ticks
    have hturns : turns ((timerTicks, stepTicks) :: rest) = stepTicks + turns rest := rfl
    rw [hturns, executedIn_add, executed] at hi ⊢
    simp only [List.forall_mem_append] at hi
    have hstart := (masked_poll_zero s timerTicks).trans h
    obtain ⟨he, hm⟩ := iterate_advance_masked Mask.pace hstart
      (hi.imp (fun hi => hi.1) fun hi => hi.1)
    rw [← poll_eq] at hm
    obtain ⟨he', hm'⟩ := ih hm (hi.imp (fun hi => hi.2) fun hi => hi.2)
    refine ⟨by rw [he, he'], ?_⟩
    rw [Nat.add_comm, Function.iterate_add_apply]
    exact hm'

theorem report?_masked (s : Session) (k : Mask) : (s.masked k).report? = s.report? := rfl

/-- A session that has begun leaves in `n` turns the report of the plain loop. -/
theorem report?_iterate_advance (h : s.ending = none) (n : Nat) :
    (advance^[n] s).report? =
      s.machine.play s.limit n s.steps s.printer.frames s.printer.written := by
  induction n generalizing s with
  | zero =>
    simp only [Function.iterate_zero, id, report?, h]
    rfl
  | succ n ih =>
    have hover : ¬ s.ending.isSome = true := by simp [h]
    rw [Function.iterate_succ_apply, Machine.play, advance, if_neg hover]
    by_cases hl : s.limit.any (· ≤ s.steps) = true
    · rw [if_pos hl, if_pos hl, iterate_advance_of_over rfl]
      rfl
    rw [if_neg hl, if_neg hl]
    cases hr : s.machine.step.result with
    | error cause =>
      simp only [hr]
      rw [iterate_advance_of_over rfl]
      rfl
    | ok signal =>
      cases signal with
      | keyWait =>
        simp only [hr]
        rw [iterate_advance_of_over rfl]
        rfl
      | _ =>
        simp only [hr]
        exact ih h

theorem executedIn_of_over (h : s.ending.isSome = true) (n : Nat) : s.executedIn n = [] := by
  induction n with
  | zero => rfl
  | succ n ih =>
    have hnext : s.next? = none := if_pos (.inl h)
    rw [executedIn, hnext, advance_of_over h, ih]
    rfl

/-- Once a session is over, more turns execute nothing. -/
theorem mem_executedIn_of_over {n k : Nat} {i : Instruction}
    (h : (advance^[n] s).ending.isSome = true) (hi : i ∈ s.executedIn k) : i ∈ s.executedIn n := by
  rcases Nat.le_total k n with hk | hk
  · rw [← Nat.add_sub_of_le hk, executedIn_add]
    exact List.mem_append_left _ hi
  · rwa [← Nat.add_sub_of_le hk, executedIn_add, executedIn_of_over h, List.append_nil] at hi

theorem isSome_ending_of_report? {r : Report} (h : s.report? = some r) :
    s.ending.isSome = true := by
  cases he : s.ending with
  | none =>
    rw [report?, he] at h
    cases h
  | some ending => rfl

/-- A session ready to run a program from its first instruction. -/
def ofMachine (limit : Option Nat) (m : Machine) : Session :=
  { machine := m, limit }

/-- On a schedule a session leaves the report of the plain loop, given as many turns. -/
theorem report?_fed {limit : Option Nat} {m : Machine} {schedule : List (Nat × Nat)}
    (h : s.masked Mask.pace = (ofMachine limit m).masked Mask.pace)
    (hi : (∀ i ∈ s.executed schedule, ¬ Mask.pace.Reveals i) ∨
      ∀ i ∈ (ofMachine limit m).executedIn (turns schedule), ¬ Mask.pace.Reveals i) :
    (s.fed schedule).report? = m.play limit (turns schedule) 0 0 "" := by
  obtain ⟨-, hm⟩ := fed_masked schedule h hi
  calc
    (s.fed schedule).report? = ((s.fed schedule).masked Mask.pace).report? :=
      (report?_masked _ _).symm
    _ = ((advance^[turns schedule] (ofMachine limit m)).masked Mask.pace).report? := by rw [hm]
    _ = (advance^[turns schedule] (ofMachine limit m)).report? := report?_masked _ _
    _ = m.play limit (turns schedule) 0 0 "" := report?_iterate_advance rfl _

/-- Two sessions that look alike leave the same report if both come to an end, and one of them
without letting the time show. -/
theorem report?_fed_congr {limit : Option Nat} {m : Machine} {schedule other : List (Nat × Nat)}
    {r r' : Report} (h : s.masked Mask.pace = (ofMachine limit m).masked Mask.pace)
    (h' : s'.masked Mask.pace = (ofMachine limit m).masked Mask.pace)
    (hi : ∀ i ∈ s.executed schedule, ¬ Mask.pace.Reveals i)
    (hr : (s.fed schedule).report? = some r) (hr' : (s'.fed other).report? = some r') : r = r' := by
  obtain ⟨he, -⟩ := fed_masked schedule h (.inl hi)
  have hplay := report?_fed h (.inl hi)
  have hover : (advance^[turns schedule] (ofMachine limit m)).ending.isSome = true := by
    refine isSome_ending_of_report? (r := r) ?_
    rw [report?_iterate_advance rfl, ← hr, hplay]
    rfl
  -- What the first session executed before its end is all that the plain loop ever executes.
  have hi' : ∀ i ∈ (ofMachine limit m).executedIn (turns other), ¬ Mask.pace.Reveals i :=
    fun i hm => hi i (he ▸ mem_executedIn_of_over hover hm)
  have hplay' := report?_fed h' (.inr hi')
  rw [hplay] at hr
  rw [hplay'] at hr'
  rcases Nat.le_total (turns schedule) (turns other) with hn | hn
  · exact Option.some.inj ((Machine.play_of_le hr hn).symm.trans hr')
  · exact Option.some.inj (hr.symm.trans (Machine.play_of_le hr' hn))

/-- With a seed in the settings, every start gives a session that looks as the plain loop begins,
whatever rate the options ask for and whatever the entropy is. -/
theorem start_masked {o : RunOptions} {files : Files} {settings : Settings} {seed : UInt64}
    {program : List UInt8} (hs : o.settings files = .ok settings)
    (hseed : settings.seed = some seed)
    (hsize : Screen.isAllowedSize settings.width settings.height = true)
    (hp : files o.program = .ok program) (hl : program.length ≤ Memory.programCapacity) :
    ∃ blank, Machine.create settings (.ofSeed seed) = .ok blank ∧
      ∀ hz entropy, ∃ s, start { o with frequency := hz } files entropy = .ok s ∧
        s.masked Mask.pace =
          (ofMachine o.steps (blank.load program).machine).masked Mask.pace := by
  obtain ⟨blank, hblank, hsame⟩ := Machine.create_of_seed hseed hsize
  refine ⟨blank, hblank, fun hz entropy => ?_⟩
  obtain ⟨rate, hrate⟩ := RunOptions.settings_of_frequency hs hz
  obtain ⟨blank', hblank', hmask⟩ := hsame rate entropy
  have hload : (blank'.load program).result = .ok () := by
    rw [Machine.load, if_pos hl]
  refine ⟨ofMachine o.steps (blank'.load program).machine, ?_, ?_⟩
  · simp only [start, hrate, hp, hblank', hload, ofMachine]
  · exact congrArg (ofMachine o.steps) (Mask.pace.load_congr program hmask)

/-- With a seed in the settings, a session that does not read the delay timer leaves the report of
the plain loop, whatever the rate, the entropy and the ticks of its clocks are. Sessions that come
to an end leave the same report. -/
theorem report_of_schedule {o : RunOptions} {files : Files} {settings : Settings} {seed : UInt64}
    {program : List UInt8} (hs : o.settings files = .ok settings)
    (hseed : settings.seed = some seed)
    (hsize : Screen.isAllowedSize settings.width settings.height = true)
    (hp : files o.program = .ok program) (hl : program.length ≤ 3584) :
    ∃ blank, Machine.create settings (.ofSeed seed) = .ok blank ∧
      ∀ hz entropy, ∃ s, start { o with frequency := hz } files entropy = .ok s ∧
        ∀ schedule, (∀ x, .readDelay x ∉ s.executed schedule) →
          (s.fed schedule).report? =
            (blank.load program).machine.play o.steps (turns schedule) 0 0 "" ∧
          ∀ hz' entropy' s' other r r',
            start { o with frequency := hz' } files entropy' = .ok s' →
            (s.fed schedule).report? = some r → (s'.fed other).report? = some r' → r = r' := by
  obtain ⟨blank, hblank, hstart⟩ := start_masked hs hseed hsize hp hl
  refine ⟨blank, hblank, fun hz entropy => ?_⟩
  obtain ⟨s, hok, hmask⟩ := hstart hz entropy
  refine ⟨s, hok, fun schedule hx => ?_⟩
  have hi : ∀ i ∈ s.executed schedule, ¬ Mask.pace.Reveals i := fun i hi hr => by
    obtain ⟨x, rfl⟩ := Mask.reveals_pace_iff.mp hr
    exact hx x hi
  refine ⟨report?_fed hmask (.inl hi), fun hz' entropy' s' other r r' hok' hr hr' => ?_⟩
  obtain ⟨t, ht, hmask'⟩ := hstart hz' entropy'
  obtain rfl := Except.ok.inj (ht.symm.trans hok')
  exact report?_fed_congr hmask hmask' hi hr hr'

/-- A program that sets the delay timer, draws and faults, on a schedule with idle polls. -/
theorem report_of_schedule_at_fault : ∃ blank s,
    Machine.create { seed := some 7 } (.ofSeed 7) = .ok blank ∧
    start { program := "rom", frequency := some 60, seed := some 7 }
      (fun _ => .ok [0x60, 0x05, 0xF0, 0x15, 0x00, 0xE0, 0xFF, 0xFF]) (.ofSeed 0) = .ok s ∧
    (s.fed [(2, 0), (1, 3), (0, 5)]).report? =
      (blank.load [0x60, 0x05, 0xF0, 0x15, 0x00, 0xE0, 0xFF, 0xFF]).machine.play none 8 0 0 "" ∧
    (s.fed [(2, 0), (1, 3), (0, 5)]).report?.map (·.exit) = some 1 := by
  obtain ⟨s, hs, hx, hexit⟩ : ∃ s, start { program := "rom", frequency := some 60, seed := some 7 }
      (fun _ => .ok [0x60, 0x05, 0xF0, 0x15, 0x00, 0xE0, 0xFF, 0xFF]) (.ofSeed 0) = .ok s ∧
      s.executed [(2, 0), (1, 3), (0, 5)] = [.loadByte 0 5, .setDelay 0, .clearScreen] ∧
      (s.fed [(2, 0), (1, 3), (0, 5)]).report?.map (·.exit) = some 1 :=
    ⟨_, rfl, by decide +kernel, by decide +kernel⟩
  obtain ⟨blank, hblank, hstart⟩ := @report_of_schedule { program := "rom", seed := some 7 }
    (fun _ => .ok [0x60, 0x05, 0xF0, 0x15, 0x00, 0xE0, 0xFF, 0xFF]) { seed := some 7 } 7
    [0x60, 0x05, 0xF0, 0x15, 0x00, 0xE0, 0xFF, 0xFF] rfl rfl rfl rfl (by decide)
  obtain ⟨t, ht, hreport⟩ := hstart (some 60) (.ofSeed 0)
  obtain rfl := Except.ok.inj (hs.symm.trans ht)
  exact ⟨blank, s, hblank, hs, (hreport _ (by rw [hx]; simp)).1, hexit⟩

end Session

namespace PacedSession

/-- The session after polls at the given times, first of the clock of the timers. -/
def turns (p : PacedSession) (times : List (Int × Int)) : PacedSession :=
  times.foldl (fun p now => p.turn now.1 now.2) p

/-- Whenever it is polled, a session is fed on the schedule that its clocks give. -/
theorem session_turns (p : PacedSession) (times : List (Int × Int)) :
    (p.turns times).session = p.session.fed
      ((p.timers.ticks (times.map fun now => .poll now.1)).zip
        (p.steps.ticks (times.map fun now => .poll now.2))) := by
  induction times generalizing p with
  | nil => rfl
  | cons now rest ih => exact ih (p.turn now.1 now.2)

end PacedSession

end Chip8
