import Chip8.Proofs.Machine.Mask

/-!
Timing. However the ticks of the timers fall between the other operations, a program that does not
read the delay timer answers alike and goes through the same states; the sound timer shows nowhere.
-/

namespace Chip8

namespace Operation

/-- A history without its ticks. -/
def untimed (history : List Operation) : List Operation :=
  history.filter (· ≠ .tick)

theorem untimed_cons {op : Operation} (h : op ≠ .tick) (rest : List Operation) :
    untimed (op :: rest) = op :: untimed rest :=
  List.filter_cons_of_pos (by simp [h])

private theorem untimed_parts {op : Operation} (h : op ≠ .tick) : untimed op.parts = op.parts := by
  refine List.filter_eq_self.mpr fun o ho => decide_eq_true ?_
  cases op with
  | run n =>
    rw [List.eq_of_mem_replicate ho]
    exact nofun
  | _ => rwa [List.mem_singleton.mp ho]

theorem unroll_untimed (history : List Operation) :
    unroll (untimed history) = untimed (unroll history) := by
  induction history with
  | nil => rfl
  | cons op rest ih =>
    by_cases h : op = .tick
    · subst h
      exact ih
    · calc
        unroll (untimed (op :: rest)) = op.parts ++ unroll (untimed rest) := by
          rw [untimed_cons h]
          exact List.flatMap_cons
        _ = untimed op.parts ++ untimed (unroll rest) := by rw [untimed_parts h, ih]
        _ = untimed (op.parts ++ unroll rest) := (List.filter_append _ _).symm
        _ = untimed (unroll (op :: rest)) := rfl

end Operation

namespace Mask

/-- The mask over both timers. -/
def timers : Mask :=
  { delay := some 0, sound := some 0 }

theorem reveals_timers_iff {i : Instruction} : timers.Reveals i ↔ ∃ x, i = .readDelay x :=
  timers.reveals_iff nofun rfl

/-- The mask over the sound timer. -/
def buzzer : Mask :=
  { sound := some 0 }

theorem not_reveals_buzzer (i : Instruction) : ¬ buzzer.Reveals i := by
  cases i <;> simp [Reveals, buzzer]

end Mask

namespace Machine

/-- The outcomes of the operations of a history other than ticks. -/
def answers (m : Machine) : List Operation → List (Outcome (Option Signal))
  | [] => []
  | op :: rest =>
    if op = .tick then m.tick.answers rest
    else m.perform op :: (m.perform op).machine.answers rest

namespace Noninterference

variable {f : Machine → Machine} {Safe : Machine → Prop} {m m' : Machine}

theorem stepsFrom_untimed (hf : Noninterference f Safe) (ht : ∀ m, f m.tick = f m)
    {ops : List Operation} (hn : ∀ op ∈ ops, ∀ n, op ≠ .run n) (hm : f m = f m') :
    m.StepsFrom Safe ops ↔ m'.StepsFrom Safe (Operation.untimed ops) := by
  induction ops generalizing m m' with
  | nil => exact Iff.rfl
  | cons op rest ih =>
    have hrest : ∀ o ∈ rest, ∀ n, o ≠ .run n := fun o ho => hn o (.tail _ ho)
    by_cases hop : op = .tick
    · subst hop
      have htick : f m.tick = f m' := (ht m).trans hm
      simp only [StepsFrom, reduceCtorEq, false_imp_iff, true_and]
      exact ih hrest htick
    · have hsafe : (op = .step → Safe m) ↔ (op = .step → Safe m') :=
        ⟨fun h hs => hf.safe hm (h hs), fun h hs => hf.safe hm.symm (h hs)⟩
      rw [Operation.untimed_cons hop, StepsFrom, StepsFrom, ← hsafe]
      exact and_congr_right fun hs => ih hrest (hf.machine op (hn op (.head _)) hs hm)

/-- Where ticks do not show, a history is answered as without them. -/
theorem answers (hf : Noninterference f Safe) (ht : ∀ m, f m.tick = f m)
    (history : List Operation) (hs : m.StepsFrom Safe (Operation.unroll history))
    (hm : f m = f m') : (m.answers history).map (Outcome.view f) =
      (m'.outcomes (Operation.untimed history)).map (Outcome.view f) := by
  induction history generalizing m m' with
  | nil => rfl
  | cons op rest ih =>
    rw [Operation.unroll, List.flatMap_cons, stepsFrom_append, after_parts] at hs
    by_cases hop : op = .tick
    · subst hop
      exact ih hs.2 ((ht m).trans hm)
    · have hview := hf.perform_parts op hs.1 hm
      rw [Operation.untimed_cons hop, Machine.answers, if_neg hop, Machine.outcomes, List.map_cons,
        List.map_cons, hview, ih hs.2 (Outcome.view_eq_iff.mp hview).1]

/-- Where ticks do not show, their places among the other operations make no difference. -/
theorem answers_congr (hf : Noninterference f Safe) (ht : ∀ m, f m.tick = f m)
    {history other : List Operation}
    (ho : Operation.untimed history = Operation.untimed other)
    (hs : m.StepsFrom Safe (Operation.unroll history)) :
    m.StepsFrom Safe (Operation.unroll other) ∧
      (m.answers history).map (Outcome.view f) = (m.answers other).map (Outcome.view f) := by
  have hsteps (h : List Operation) : m.StepsFrom Safe (Operation.unroll h) ↔
      m.StepsFrom Safe (Operation.unroll (Operation.untimed h)) := by
    rw [Operation.unroll_untimed]
    exact hf.stepsFrom_untimed ht (fun _ => Operation.not_run_of_mem_unroll) rfl
  have hother : m.StepsFrom Safe (Operation.unroll other) := by
    rw [hsteps other, ← ho, ← hsteps history]
    exact hs
  refine ⟨hother, ?_⟩
  calc
    (m.answers history).map (Outcome.view f) =
        (m.outcomes (Operation.untimed history)).map (Outcome.view f) := hf.answers ht _ hs rfl
    _ = (m.outcomes (Operation.untimed other)).map (Outcome.view f) := by rw [ho]
    _ = (m.answers other).map (Outcome.view f) := (hf.answers ht _ hother rfl).symm

end Noninterference

/-- Two histories of a machine that differ in ticks only: unless one reads the delay timer, neither
does, operations other than ticks have the same results, and the machines after them agree apart
from the timers. Whatever they execute, machines that differ in the sound timer alone go on
differing in nothing else. -/
theorem ticks_do_not_interfere (m : Machine) {history other : List Operation}
    (ho : Operation.untimed history = Operation.untimed other)
    (hx : ∀ x, .readDelay x ∉ m.executed history) :
    (∀ x, .readDelay x ∉ m.executed other) ∧
      (m.answers history).map (Outcome.view fun m => { m with delay := 0, sound := 0 }) =
        (m.answers other).map (Outcome.view fun m => { m with delay := 0, sound := 0 }) ∧
      ∀ (s : UInt8) (later : List Operation),
        ({ m with sound := s }.outcomes later).map (Outcome.view fun m => { m with sound := 0 }) =
          (m.outcomes later).map (Outcome.view fun m => { m with sound := 0 }) := by
  have hsafe : m.StepsFrom (fun m => ∀ i, m.next? = some i → ¬ Mask.timers.Reveals i)
      (Operation.unroll history) := by
    refine stepsFrom_iff.mpr fun i hi hr => ?_
    obtain ⟨x, rfl⟩ := Mask.reveals_timers_iff.mp hr
    exact hx x hi
  obtain ⟨hother, hview⟩ := Mask.timers.noninterference.answers_congr (fun _ => rfl) ho hsafe
  refine ⟨fun x hi => ?_, hview, fun s later => ?_⟩
  · exact stepsFrom_iff.mp hother _ hi (Mask.reveals_timers_iff.mpr ⟨x, rfl⟩)
  · exact Mask.buzzer.outcomes_congr later (fun i _ => Mask.not_reveals_buzzer i) rfl

/-- A program that sets both timers. -/
theorem ticks_do_not_interfere_with_countdown : ∃ m, Reachable m ∧
    (m.after [.run 3, .tick]).delay ≠ (m.after [.tick, .run 3]).delay ∧
    (m.answers [.run 3, .tick, .setKey 5 true, .step]).map
        (Outcome.view fun m => { m with delay := 0, sound := 0 }) =
      (m.answers [.tick, .run 3, .setKey 5 true, .tick, .tick, .step]).map
        (Outcome.view fun m => { m with delay := 0, sound := 0 }) := by
  have hb := @Reachable.create {} (.ofSeed 0) _ rfl
  obtain ⟨m, hm, hx, hd⟩ : ∃ m, Reachable m ∧ m.executed [.run 3, .tick, .setKey 5 true, .step] =
      [.loadByte 0 9, .setDelay 0, .setSound 0, .jump 512] ∧
      (m.after [.run 3, .tick]).delay ≠ (m.after [.tick, .run 3]).delay :=
    ⟨_, hb.after [.load [0x60, 0x09, 0xF0, 0x15, 0xF0, 0x18, 0x12, 0x00]],
      by decide +kernel, by decide +kernel⟩
  refine ⟨m, hm, hd, (ticks_do_not_interfere m (by decide) fun x => ?_).2.1⟩
  rw [hx]
  simp

end Machine

end Chip8
