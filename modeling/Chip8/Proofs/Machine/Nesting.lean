import Chip8.Proofs.Machine.Fault

/-!
Nesting of calls and returns: only they touch the stack, its depth is the number of calls less the
number of returns, and a return that ends a call finds the stack as the call found it.
-/

namespace Chip8

/-- Calls and returns completed since a program was last made ready to run. -/
structure Tally where
  calls : Nat := 0
  returns : Nat := 0

/-- The tally after a step, from the instruction that the step completed. -/
def Tally.count (t : Tally) : Option Instruction → Tally
  | some (.call _) => { t with calls := t.calls + 1 }
  | some .ret => { t with returns := t.returns + 1 }
  | _ => t

theorem Tally.count_of_ne {t : Tally} {o : Option Instruction} (hc : ∀ a, o ≠ some (.call a))
    (hr : o ≠ some .ret) : t.count o = t := by
  cases o with
  | none => rfl
  | some i =>
    cases i with
    | call a => exact absurd rfl (hc a)
    | ret => exact absurd rfl hr
    | _ => rfl

namespace Machine

variable {m : Machine} {s : Settings} {op : Operation}

/-- A call puts the address of the next word in front of the frames. -/
theorem frames_of_call {a : UInt16} (h : m.completed? = some (.call a)) :
    m.step.machine.stack.frames = UInt16.ofNat (Memory.nextWord m.pc) :: m.stack.frames ∧
      m.step.machine.stack.depth = m.stack.depth + 1 := by
  obtain ⟨hm, signal, hr⟩ := step_of_completed? h
  obtain ⟨stack, hp, hx⟩ := execute_call_of_ok hr
  rw [hm, hx]
  exact ⟨CallStack.frames_of_push? hp, (CallStack.depth_of_push? hp).2⟩

/-- A return takes the first frame and goes there. -/
theorem frames_of_ret (hi : m.Invariant s) (h : m.completed? = some .ret) : ∃ b,
    m.stack.frames = b :: m.step.machine.stack.frames ∧ m.step.machine.pc = b.toNat ∧
      m.stack.depth = m.step.machine.stack.depth + 1 := by
  obtain ⟨hm, signal, hr⟩ := step_of_completed? h
  obtain ⟨b, rest, hp, hx⟩ := execute_ret_of_ok hr
  rw [hm, hx]
  exact ⟨b, CallStack.frames_of_pop? hi.depth_le hp, rfl, CallStack.depth_of_pop? hp⟩

/-- Any other step leaves the stack alone. -/
theorem stack_of_step (hc : ∀ a, m.completed? ≠ some (.call a)) (hr : m.completed? ≠ some .ret) :
    m.step.machine.stack = m.stack := by
  cases m.stepped with
  | idle _ hm _ => rw [hm]
  | fault e _ _ hm _ => rw [hm]; rfl
  | complete i signal hs hd hx hok =>
    have hi : m.completed? = some i := completed?_eq_some_iff.mpr ⟨hs, hd, signal, hok⟩
    have hret : i ≠ .ret := fun h => hr (h ▸ hi)
    have hcall : ∀ a, i ≠ .call a := fun a h => hc a (h ▸ hi)
    have hstack : (m.advance.execute m.pc i).1.stack = m.stack := stack_execute hret hcall
    rwa [hx] at hstack

/-- Of the single operations only steps and loads that succeed touch the stack. -/
theorem stack_of_perform (hs : op ≠ .step) (hn : ∀ n, op ≠ .run n) (hl : ¬ op.Reloads) :
    (m.perform op).machine.stack = m.stack := by
  cases op with
  | load p =>
    have hp : ¬ p.length ≤ Memory.programCapacity := fun hp => hl ⟨p, rfl, hp⟩
    simp only [perform, load, if_neg hp, Outcome.map]
  | loadFont glyphs =>
    simp only [perform, loadFont]
    split <;> rfl
  | loadBuiltinFont => simp only [perform, loadBuiltinFont, setFont]
  | step => exact absurd rfl hs
  | run n => exact absurd rfl (hn n)
  | setKey k down =>
    simp only [perform, setKey]
    split <;> rfl
  | setKeyNumber id down =>
    simp only [perform, setKeyNumber, setKey]
    repeat' split
    all_goals rfl
  | clearKeys => rfl
  | tick => rfl

/-- While the stack stays as deep as a list of frames that it ends with, it goes on ending with
them. -/
theorem suffix_of_perform {frames : List UInt16} (hi : m.Invariant s) (hn : ∀ n, op ≠ .run n)
    (hl : ¬ op.Reloads) (hf : frames <:+ m.stack.frames)
    (hd : frames.length ≤ (m.perform op).machine.stack.depth) :
    frames <:+ (m.perform op).machine.stack.frames := by
  by_cases hs : op = .step
  · subst hs
    change frames <:+ m.step.machine.stack.frames
    by_cases hc : ∃ a, m.completed? = some (.call a)
    · obtain ⟨a, ha⟩ := hc
      rw [(frames_of_call ha).1]
      exact hf.trans (List.suffix_cons _ _)
    by_cases hr : m.completed? = some .ret
    · obtain ⟨b, hb, -, -⟩ := frames_of_ret hi hr
      have hlen := CallStack.length_frames hi.step.depth_le
      rw [hb, List.suffix_cons_iff] at hf
      rcases hf with rfl | hf
      · change (b :: m.step.machine.stack.frames).length ≤ m.step.machine.stack.depth at hd
        rw [List.length_cons, hlen] at hd
        omega
      · exact hf
    rw [stack_of_step (not_exists.mp hc) hr]
    exact hf
  · rwa [stack_of_perform hs hn hl]

theorem suffix_of_after {frames : List UInt16} {ops : List Operation} (hi : m.Invariant s)
    (hn : ∀ op ∈ ops, ∀ n, op ≠ .run n) (hl : ∀ op ∈ ops, ¬ op.Reloads)
    (hf : frames <:+ m.stack.frames)
    (hd : ∀ k ≤ ops.length, frames.length ≤ (m.after (ops.take k)).stack.depth) :
    frames <:+ (m.after ops).stack.frames := by
  induction ops generalizing m with
  | nil => exact hf
  | cons op rest ih =>
    have h1 : frames.length ≤ (m.perform op).machine.stack.depth :=
      hd 1 (Nat.succ_le_succ (Nat.zero_le _))
    refine ih (hi.perform op) (fun o ho => hn o (.tail _ ho)) (fun o ho => hl o (.tail _ ho)) ?_ ?_
    · exact suffix_of_perform hi (hn op (.head _)) (hl op (.head _)) hf h1
    · intro k hk
      exact hd (k + 1) (Nat.succ_le_succ hk)

/-- Single operations of which the first that brings the stack down to depth `d` is the step that
follows them. -/
def Unwinds (m : Machine) (d : Nat) (ops : List Operation) : Prop :=
  (∀ k ≤ ops.length, d < (m.after (ops.take k)).stack.depth) ∧
    (m.after ops).step.machine.stack.depth = d

/-- Where the stack first falls below the frames that it ended with, the newest of them is
returned to. -/
theorem frames_of_unwinds {b : UInt16} {frames : List UInt16} {ops : List Operation}
    (hi : m.Invariant s) (hn : ∀ op ∈ ops, ∀ n, op ≠ .run n) (hl : ∀ op ∈ ops, ¬ op.Reloads)
    (hf : m.stack.frames = b :: frames) (hu : m.Unwinds frames.length ops) :
    (m.after ops).completed? = some .ret ∧ (m.after ops).step.machine.pc = b.toNat ∧
      (m.after ops).step.machine.stack.frames = frames := by
  obtain ⟨hd, hlast⟩ := hu
  have ha : (m.after ops).Invariant s := hi.after ops
  have hdeep : frames.length < (m.after ops).stack.depth := by
    simpa only [List.take_length] using hd ops.length (Nat.le_refl _)
  have hsuf : b :: frames <:+ (m.after ops).stack.frames :=
    suffix_of_after hi hn hl (hf ▸ List.suffix_refl _) hd
  have hc : ∀ a, (m.after ops).completed? ≠ some (.call a) := fun a hc => by
    have := (frames_of_call hc).2
    omega
  have hr : (m.after ops).completed? = some .ret := Decidable.byContradiction fun hr => by
    rw [stack_of_step hc hr] at hlast
    omega
  obtain ⟨c, hcf, hpc, hdepth⟩ := frames_of_ret ha hr
  have hlen := CallStack.length_frames ha.depth_le
  have heq : b :: frames = c :: (m.after ops).step.machine.stack.frames := by
    rw [← hcf]
    refine hsuf.eq_of_length ?_
    rw [hlen, hdepth, hlast, List.length_cons]
  obtain ⟨rfl, hframes⟩ := List.cons.inj heq
  exact ⟨hr, hpc, hframes.symm⟩

/-- The tally after one more single operation. -/
def noteOn (m : Machine) (t : Tally) : Operation → Tally
  | .load p => if p.length ≤ Memory.programCapacity then {} else t
  | .step => t.count m.completed?
  | _ => t

/-- The tally after single operations, from the tally before them. -/
def tally (m : Machine) (t : Tally) : List Operation → Tally
  | [] => t
  | op :: ops => (m.perform op).machine.tally (m.noteOn t op) ops

private theorem noteOn_of_not_step {t : Tally} (hs : op ≠ .step) (hl : ¬ op.Reloads) :
    m.noteOn t op = t := by
  cases op with
  | load p => exact if_neg fun hp => hl ⟨p, rfl, hp⟩
  | step => exact absurd rfl hs
  | _ => rfl

private theorem depth_of_step {t : Tally} (hi : m.Invariant s)
    (ht : m.stack.depth + t.returns = t.calls) : m.step.machine.stack.depth +
      (t.count m.completed?).returns = (t.count m.completed?).calls := by
  by_cases hc : ∃ a, m.completed? = some (.call a)
  · obtain ⟨a, ha⟩ := hc
    have hd := (frames_of_call ha).2
    rw [ha]
    show _ + t.returns = t.calls + 1
    omega
  by_cases hr : m.completed? = some .ret
  · obtain ⟨b, -, -, hd⟩ := frames_of_ret hi hr
    rw [hr]
    show _ + (t.returns + 1) = t.calls
    omega
  · rwa [stack_of_step (not_exists.mp hc) hr, Tally.count_of_ne (not_exists.mp hc) hr]

private theorem depth_of_perform {t : Tally} (hi : m.Invariant s) (hn : ∀ n, op ≠ .run n)
    (ht : m.stack.depth + t.returns = t.calls) :
    (m.perform op).machine.stack.depth + (m.noteOn t op).returns = (m.noteOn t op).calls := by
  by_cases hl : op.Reloads
  · obtain ⟨p, rfl, hp⟩ := hl
    have hnote : m.noteOn t (.load p) = {} := if_pos hp
    simp only [perform, load, if_pos hp, hnote]
    rfl
  by_cases hs : op = .step
  · subst hs
    exact depth_of_step hi ht
  · rwa [stack_of_perform hs hn hl, noteOn_of_not_step hs hl]

/-- The outstanding calls are those that have not returned. -/
theorem depth_add_returns {t : Tally} {ops : List Operation} (hi : m.Invariant s)
    (hn : ∀ op ∈ ops, ∀ n, op ≠ .run n) (ht : m.stack.depth + t.returns = t.calls) :
    (m.after ops).stack.depth + (m.tally t ops).returns = (m.tally t ops).calls := by
  induction ops generalizing m t with
  | nil => exact ht
  | cons op rest ih =>
    exact ih (hi.perform op) (fun o ho => hn o (.tail _ ho))
      (depth_of_perform hi (hn op (.head _)) ht)

/-- That the call which a machine is about to make nests: whatever operations follow, the step that
first brings the stack back to its depth is a return, which leads to the word after the call and
leaves the frames that were there before it. -/
def CallNests (m : Machine) : Prop :=
  ∀ later inner rest, (∀ op ∈ later, ¬ op.Reloads) →
    Operation.unroll later = inner ++ .step :: rest →
    m.step.machine.Unwinds m.stack.depth inner →
    (m.step.machine.after inner).completed? = some .ret ∧
      (m.step.machine.after inner).step.machine.pc = (m.pc + 2) % 4096 ∧
      (m.step.machine.after inner).step.machine.stack.frames = m.stack.frames

theorem callNests (hi : m.Invariant s) {a : UInt16} (hc : m.completed? = some (.call a)) :
    m.CallNests := by
  intro later inner rest hl hu hw
  have hsub : ∀ op ∈ inner, op ∈ Operation.unroll later := fun op ho => by
    rw [hu]
    exact List.mem_append_left _ ho
  have hlen := CallStack.length_frames hi.depth_le
  have hpc : (UInt16.ofNat (Memory.nextWord m.pc)).toNat = (m.pc + 2) % 4096 :=
    hi.advance.toNat_ofNat_pc
  rw [← hlen] at hw
  obtain ⟨hr, hp, hf⟩ := frames_of_unwinds hi.step
    (fun op ho => Operation.not_run_of_mem_unroll (hsub op ho))
    (fun op ho => Operation.not_reloads_of_mem_unroll hl (hsub op ho)) (frames_of_call hc).1 hw
  exact ⟨hr, hp.trans hpc, hf⟩

theorem stack_of_create {entropy : Generator} (h : create s entropy = .ok m) : m.stack = {} := by
  rw [(create_eq_ok_iff.mp h).2]
  rfl

/-- A call fails exactly where the stack is full. -/
theorem call_fails_iff (hi : m.Invariant s) (hs : m.status = .running)
    (hw : m.word.toNat / 4096 = 2) :
    (∃ e, m.step.result = .error e) ↔ m.stack.depth = 16 := by
  constructor
  · rintro ⟨e, he⟩
    cases (step_eq_error_iff hs hi.depth_le).mp he with
    | unknown hd =>
      rw [Instruction.decode?_eq_call_iff.mpr ⟨hw, rfl⟩] at hd
      cases hd
    | underflow hz _ =>
      rw [hz] at hw
      cases hw
    | overflow _ hf => exact hf
  · intro hf
    exact ⟨_, (step_eq_error_iff hs hi.depth_le).mpr (.overflow hw hf)⟩

/-- At every point of every history, also within its runs, the depth of the stack is the number of
calls less the number of returns; a call faults exactly where sixteen are outstanding, and
otherwise it nests. -/
theorem calls_nest {entropy : Generator} {blank : Machine} (hc : create s entropy = .ok blank)
    {history points : List Operation} (hp : points <+: Operation.unroll history) :
    (blank.after points).stack.depth + (blank.tally {} points).returns =
        (blank.tally {} points).calls ∧
      ((blank.after points).status = .running → (blank.after points).word.toNat / 4096 = 2 →
        ((∃ e, (blank.after points).step.result = .error e) ↔
          (blank.tally {} points).calls = (blank.tally {} points).returns + 16) ∧
        ((blank.after points).stack.depth < 16 → (blank.after points).CallNests)) := by
  have hn : ∀ op ∈ points, ∀ n, op ≠ .run n := fun op ho =>
    Operation.not_run_of_mem_unroll (hp.subset ho)
  have ht : (blank.after points).stack.depth + (blank.tally {} points).returns =
      (blank.tally {} points).calls := by
    refine depth_add_returns (Invariant.create hc) hn ?_
    rw [stack_of_create hc]
    rfl
  have hi : (blank.after points).Invariant s := (Invariant.create hc).after points
  refine ⟨ht, fun hs hw => ⟨?_, fun hd => ?_⟩⟩
  · rw [call_fails_iff hi hs hw]
    omega
  · have hx := Instruction.decode?_eq_call_iff.mpr ⟨hw, rfl⟩
    refine callNests hi (completed?_of_decode? hs hx fun e he => ?_)
    have := (call_fails_iff hi hs hw).mp ⟨e, he⟩
    omega

/-- The second call of a subroutine, which finds the return address of the first left behind. -/
theorem calls_nest_over_stale_frame : ∃ m, Reachable m ∧ m.stack.frames = [] ∧
    m.stack.cells[0] = 514 ∧ (m.step.machine.after [.tick]).step.machine.pc = 516 ∧
    (m.step.machine.after [.tick]).step.machine.stack.frames = m.stack.frames := by
  have hb := @Reachable.create {} (.ofSeed 0) _ rfl
  have hm := hb.after [.load [0x22, 0x06, 0x22, 0x06, 0x12, 0x04, 0x00, 0xEE], .step, .step]
  obtain ⟨-, h⟩ := @calls_nest {} (.ofSeed 0) _ rfl
    [.load [0x22, 0x06, 0x22, 0x06, 0x12, 0x04, 0x00, 0xEE], .run 2]
    [.load [0x22, 0x06, 0x22, 0x06, 0x12, 0x04, 0x00, 0xEE], .step, .step] (List.prefix_refl _)
  have hn := (h (by decide +kernel) (by decide +kernel)).2 (by decide +kernel)
  obtain ⟨-, hp, hf⟩ := hn [.tick, .run 1] [.tick] []
    (by simp [Operation.Reloads]) rfl ⟨by decide +kernel, by decide +kernel⟩
  have hpc : _ = 516 := hp.trans (by decide +kernel)
  exact ⟨_, hm, by decide +kernel, by decide +kernel, hpc, hf⟩

end Machine

end Chip8
