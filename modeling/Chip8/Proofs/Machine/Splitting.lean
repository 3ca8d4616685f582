import Chip8.Proofs.Machine.Halting

/-!
Runs in parts. A run that stops early spares itself steps that would change nothing, so two runs in
a row do what one run of their lengths together does. Their results differ only after a fault, which
is reported once.
-/

namespace Chip8

namespace Outcome

variable {o : Outcome Signal}

/-- What a run starts from. -/
def start (m : Machine) : Outcome Signal :=
  ⟨m, .ok .proceed, #[]⟩

/-- The outcome, told after what has been logged before. -/
def following (earlier : Array Event) (o : Outcome Signal) : Outcome Signal :=
  { o with log := earlier ++ o.log }

/-- The outcome of one further step, told after the log so far. -/
def next (o : Outcome Signal) : Outcome Signal :=
  o.machine.step.following o.log

theorem not_isFinal_start (m : Machine) : ¬ (start m).isFinal = true :=
  Bool.false_ne_true

theorem next_start (m : Machine) : (start m).next = m.step := by
  simp only [start, next, following, Array.empty_append]

theorem isFinal_following (earlier : Array Event) (o : Outcome Signal) :
    (o.following earlier).isFinal = o.isFinal :=
  rfl

theorem next_following (earlier : Array Event) (o : Outcome Signal) :
    (o.following earlier).next = o.next.following earlier := by
  simp only [next, following, Array.append_assoc]

theorem resume_succ (n : Nat) (o : Outcome Signal) :
    resume (n + 1) o = if o.next.isFinal then o.next else resume n o.next :=
  rfl

/-- What has been logged before does not change what follows. -/
theorem resume_following (earlier : Array Event) (n : Nat) (o : Outcome Signal) :
    resume n (o.following earlier) = (resume n o).following earlier := by
  induction n generalizing o with
  | zero => rfl
  | succ n ih =>
    rw [resume_succ, resume_succ, next_following, isFinal_following]
    split
    case isTrue => rfl
    case isFalse => exact ih o.next

/-- Steps after an outcome are a run of its machine. -/
theorem resume_succ_eq_run (n : Nat) (o : Outcome Signal) :
    resume (n + 1) o = (o.machine.run (n + 1)).following o.log := by
  have hrun : o.machine.run (n + 1) = resume (n + 1) (start o.machine) := rfl
  rw [hrun, resume_succ, resume_succ, next_start, next, isFinal_following]
  split
  case isTrue => rfl
  case isFalse => exact resume_following o.log n o.machine.step

/-- Resuming goes on where it left off, unless that was the end. -/
theorem resume_add (ho : ¬ o.isFinal = true) (j k : Nat) : resume (j + k) o =
    if (resume j o).isFinal then resume j o else resume k (resume j o) := by
  induction j generalizing o with
  | zero => rw [Nat.zero_add, resume, if_neg ho]
  | succ j ih =>
    rw [Nat.succ_add, resume_succ, resume_succ]
    split
    case isTrue => rfl
    case isFalse hf => exact ih hf

/-- Where a run ends early, it ends in its last step. -/
theorem exists_step_of_isFinal (ho : ¬ o.isFinal = true) {n : Nat}
    (h : (resume n o).isFinal = true) : ∃ w : Machine, w.step.isFinal = true ∧
      (resume n o).machine = w.step.machine ∧ (resume n o).result = w.step.result := by
  induction n generalizing o with
  | zero => exact absurd h ho
  | succ n ih =>
    rw [resume_succ] at h ⊢
    split at h
    case isTrue hf =>
      rw [if_pos hf]
      exact ⟨o.machine, hf, rfl, rfl⟩
    case isFalse hf =>
      rw [if_neg hf]
      exact ih hf h

/-- What a step reports after an outcome that ends a run: a fault is reported only once. -/
def afterwards (o : Outcome Signal) : Except Failure Signal :=
  match o.result with
  | .error _ => .ok .halted
  | .ok s => .ok s

end Outcome

namespace Machine

variable {m : Machine} {j k : Nat}

theorem step_of_isFinal (h : m.step.isFinal = true) :
    m.step.machine.step = ⟨m.step.machine, m.step.afterwards, #[]⟩ := by
  cases hs : m.status with
  | waiting x =>
    rw [step_of_waiting hs]
    exact step_of_waiting hs
  | halted =>
    rw [step_of_halted hs]
    exact step_of_halted hs
  | running =>
    cases m.stepped with
    | idle hn _ _ => exact absurd hs hn
    | fault e _ _ hm hr =>
      have hhalted : m.step.machine.status = .halted := by
        rw [hm]
        rfl
      rw [step_of_halted hhalted, Outcome.afterwards, hr]
    | complete i s _ _ _ hr =>
      rcases status_of_step hs hr with ⟨-, hk, hh⟩ | ⟨x, rfl, hw⟩
      · exact ((Outcome.isFinal_iff_of_ok hr).mp h).elim (absurd · hk) (absurd · hh)
      · rw [step_of_waiting hw, Outcome.afterwards, hr]

theorem run_of_isFinal (h : (m.run j).isFinal = true) (k : Nat) :
    (m.run j).machine.run (k + 1) = ⟨(m.run j).machine, (m.run j).afterwards, #[]⟩ := by
  obtain ⟨w, hw, hm, hr⟩ := Outcome.exists_step_of_isFinal (Outcome.not_isFinal_start m) h
  have hmachine : (m.run j).machine = w.step.machine := hm
  have hresult : (m.run j).result = w.step.result := hr
  have hafterwards : (m.run j).afterwards = w.step.afterwards := by
    rw [Outcome.afterwards, Outcome.afterwards, hresult]
  rw [hmachine, hafterwards, run_succ_of_not_running (status_of_isFinal hw), step_of_isFinal hw]

theorem run_add (m : Machine) (j k : Nat) : m.run (j + k) =
    if (m.run j).isFinal then m.run j else Outcome.resume k (m.run j) :=
  Outcome.resume_add (Outcome.not_isFinal_start m) j k

/-- That a run of `j + k` steps does what runs of `j` and of `k` steps do, and what the runs report:
a fault is reported by the first of two runs only, the end of a run by both. -/
structure Splits (m : Machine) (j k : Nat) : Prop where
  machine_eq : (m.run (j + k)).machine = ((m.run j).machine.run k).machine
  log_eq : (m.run (j + k)).log = (m.run j).log ++ ((m.run j).machine.run k).log
  of_error : ∀ e, (m.run j).result = .error e → (m.run (j + k)).result = .error e ∧
    (1 ≤ k → (m.run j).machine.run k = ⟨(m.run j).machine, .ok .halted, #[]⟩)
  of_stop : ∀ s, s = .keyWait ∨ s = .halted → (m.run j).result = .ok s →
    (m.run (j + k)).result = .ok s ∧ (1 ≤ k → ((m.run j).machine.run k).result = .ok s)
  of_proceed : ∀ s, s ≠ .keyWait → s ≠ .halted → (m.run j).result = .ok s → 1 ≤ k →
    (m.run (j + k)).result = ((m.run j).machine.run k).result

theorem splits_zero (m : Machine) (j : Nat) : m.Splits j 0 where
  machine_eq := rfl
  log_eq := Array.append_empty.symm
  of_error _ h := ⟨h, nofun⟩
  of_stop _ _ h := ⟨h, nofun⟩
  of_proceed _ _ _ _ hk := absurd hk (by decide)

theorem splits_of_isFinal (h : (m.run j).isFinal = true) (k : Nat) : m.Splits j (k + 1) := by
  have hwhole : m.run (j + (k + 1)) = m.run j := by rw [run_add, if_pos h]
  have hrest := run_of_isFinal h k
  constructor
  case machine_eq => rw [hwhole, hrest]
  case log_eq => rw [hwhole, hrest, Array.append_empty]
  case of_error =>
    intro e he
    rw [hwhole, hrest, Outcome.afterwards, he]
    exact ⟨rfl, fun _ => rfl⟩
  case of_stop =>
    intro s _ hs
    rw [hwhole, hrest, Outcome.afterwards, hs]
    exact ⟨rfl, fun _ => rfl⟩
  case of_proceed =>
    intro s hk hh hs
    exact ((Outcome.isFinal_iff_of_ok hs).mp h).elim (absurd · hk) (absurd · hh)

theorem splits_of_not_isFinal (h : ¬ (m.run j).isFinal = true) (k : Nat) :
    m.Splits j (k + 1) := by
  have hwhole : m.run (j + (k + 1)) =
      ((m.run j).machine.run (k + 1)).following (m.run j).log := by
    rw [run_add, if_neg h, Outcome.resume_succ_eq_run]
  constructor
  case machine_eq => rw [hwhole, Outcome.following]
  case log_eq => rw [hwhole, Outcome.following]
  case of_error =>
    intro e he
    exact absurd (by rw [Outcome.isFinal, he]) h
  case of_stop =>
    intro s hfinal hs
    exact absurd ((Outcome.isFinal_iff_of_ok hs).mpr hfinal) h
  case of_proceed =>
    intro s _ _ _ _
    rw [hwhole, Outcome.following]

/-- Every run splits at every number of steps. -/
theorem runs_split (m : Machine) (j k : Nat) : m.Splits j k := by
  cases k with
  | zero => exact splits_zero m j
  | succ k =>
    by_cases h : (m.run j).isFinal = true
    · exact splits_of_isFinal h k
    · exact splits_of_not_isFinal h k

/-- A run that faults at its second step, on the word after a program of one instruction. -/
theorem runs_split_at_fault : ∃ m e, Reachable m ∧ m.Splits 2 3 ∧
    (m.run 2).result = .error e ∧ (m.run 5).result = .error e ∧
    ((m.run 2).machine.run 3).result = .ok .halted := by
  have hb := @Reachable.create {} (.ofSeed 0) _ rfl
  obtain ⟨m, e, hm, hf⟩ : ∃ m e, Reachable m ∧ (m.run 2).failure? = some e :=
    ⟨_, .unknownInstruction 0, hb.after [.load [0x60, 0x05]], by decide +kernel⟩
  have he : (m.run 2).result = .error e := Outcome.failure?_eq_some_iff.mp hf
  have hsplits : m.Splits 2 3 := runs_split m 2 3
  obtain ⟨hwhole, hrest⟩ := hsplits.of_error e he
  refine ⟨m, e, hm, hsplits, he, hwhole, ?_⟩
  rw [hrest (by decide)]

end Machine

end Chip8
