import Chip8.Proofs.Machine.Idle

/-!
The random stream. An executed instruction for random bytes uses up one word of the keystream, and
nothing else does, so the position in the stream is a count over the whole history.
-/

namespace Chip8

/-- Whether an instruction asks for a random byte. -/
def Instruction.isRandom : Instruction → Bool
  | .random .. => true
  | _ => false

namespace Keystream

/-- Sixteen words of the stream are a block: the initial state after six double rounds, with the
initial state added. -/
theorem word_eq (key : Key) (c : Nat) (j : Fin 16) : word key (16 * c + j.val) =
    (Nat.repeat doubleRound 6 (initial key (UInt64.ofNat c))).get j +
      (initial key (UInt64.ofNat c)).get j := by
  have hblock : (16 * c + j.val) / 16 = c := by omega
  have hplace : (16 * c + j.val) % 16 = j.val := by omega
  simp only [word, hblock, hplace, block, scramble, Vector.getElem_zipWith]
  rfl

end Keystream

namespace Generator

/-- The generator with a number of words used up. -/
def skip (g : Generator) (n : Nat) : Generator :=
  { g with position := g.position + n }

@[simp]
theorem skip_zero (g : Generator) : g.skip 0 = g := rfl

theorem skip_skip (g : Generator) (n k : Nat) : (g.skip n).skip k = g.skip (n + k) := by
  simp only [skip, Nat.add_assoc]

end Generator

namespace Machine

variable {m : Machine} {i : Instruction} {op : Operation}

/-- The random bytes that single operations use up. -/
def draws (m : Machine) (ops : List Operation) : Nat :=
  (m.instructions ops).countP Instruction.isRandom

theorem generator_execute (m : Machine) (a : Nat) (i : Instruction) :
    (m.execute a i).1.generator = m.generator.skip (if i.isRandom then 1 else 0) := by
  cases i with
  | ret => simp only [execute]; split <;> rfl
  | call t => simp only [execute]; split <;> rfl
  | skipIf c => simp only [execute]; split <;> rfl
  | loadRegisters x => simp only [execute]; rfl
  | combine f x y => cases f <;> rfl
  | _ => rfl

theorem generator_step (m : Machine) :
    m.step.machine.generator = m.generator.skip (m.next?.toList.countP Instruction.isRandom) := by
  by_cases hs : m.status = .running
  · rw [next?_of_running hs]
    cases hd : Instruction.decode? m.word with
    | none =>
      rw [step_of_unknown hs hd]
      rfl
    | some i =>
      rw [step_of_decode? hs hd, generator_execute, Option.toList_some, List.countP_singleton]
      rfl
  · rw [step_of_not_running hs, next?_of_not_running hs]
    rfl

/-- Of the single operations only steps use up random bytes. -/
theorem generator_perform (hs : op ≠ .step) (hn : ∀ n, op ≠ .run n) :
    (m.perform op).machine.generator = m.generator := by
  by_cases hl : op.Reloads
  · obtain ⟨p, rfl, hp⟩ := hl
    simp only [perform, load, if_pos hp, Outcome.map, loadBuiltinFont, setFont, clear]
  · rw [perform_eq hl (.inr ⟨hs, hn⟩)]

theorem generator_after {ops : List Operation} (hn : ∀ op ∈ ops, ∀ n, op ≠ .run n) :
    (m.after ops).generator = m.generator.skip (m.draws ops) := by
  induction ops generalizing m with
  | nil => rfl
  | cons op rest ih =>
    have hrest := @ih (m.perform op).machine fun o ho => hn o (.tail _ ho)
    change ((m.perform op).machine.after rest).generator = _
    rw [hrest, draws, draws, instructions, List.countP_append, ← Generator.skip_skip]
    congr 1
    by_cases hs : op = .step
    · subst hs
      exact m.generator_step
    · rw [generator_perform hs (hn op (.head _)), if_neg hs]
      rfl

theorem generator_of_create {s : Settings} {seed : UInt64} {entropy : Generator}
    (hseed : s.seed = some seed) (h : create s entropy = .ok m) :
    m.generator = .ofSeed seed := by
  rw [(create_eq_ok_iff.mp h).2, hseed]
  rfl

/-- That the next step puts a random byte, masked by `n`, into register `x` and nowhere else, and
moves the generator on by one word. -/
structure Randomizes (m : Machine) (x n byte : UInt8) : Prop where
  result_eq : m.step.result = .ok .proceed
  machine_eq : m.step.machine =
    { m with
      pc := (m.pc + 2) % 4096
      registers := m.registers.set x (n &&& byte)
      generator := m.generator.skip 1 }
  get_eq : m.step.machine.registers.get x = n &&& byte
  get_other : ∀ y, y.toNat % 16 ≠ x.toNat % 16 →
    m.step.machine.registers.get y = m.registers.get y

theorem randomizes {x n : UInt8} (h : m.next? = some (.random x n)) :
    m.Randomizes x n (Keystream.word m.generator.key m.generator.position).toUInt8 := by
  have hs : m.status = .running := Decidable.byContradiction fun hs => by
    rw [next?_of_not_running hs] at h
    cases h
  rw [next?_of_running hs] at h
  have hstep := step_of_decode? hs h
  exact {
    result_eq := by rw [hstep]; rfl
    machine_eq := by rw [hstep]; rfl
    get_eq := by
      rw [hstep]
      exact Registers.get_set_self ..
    get_other := fun y hy => by
      rw [hstep]
      exact Registers.get_set_of_ne hy }

/-- From a seed on, and over all programs loaded, the position in the stream is the number of
instructions for random bytes that have been executed. The one that `k` others came before gets the
low byte of word `k`, and changes only its register; word `16 * c + j` is word `j` of block `c`. -/
theorem random_bytes_follow_stream {s : Settings} {seed : UInt64} {entropy : Generator}
    {blank : Machine} (hseed : s.seed = some seed) (hc : create s entropy = .ok blank)
    (history : List Operation) :
    (blank.after history).generator =
        ⟨(Generator.ofSeed seed).key, (blank.executed history).countP Instruction.isRandom⟩ ∧
      (∀ points later, Operation.unroll history = points ++ .step :: later →
        ∀ x n, (blank.after points).next? = some (.random x n) →
          (blank.after points).Randomizes x n
            (Keystream.word (Generator.ofSeed seed).key (blank.draws points)).toUInt8) ∧
      ∀ key c (j : Fin 16), Keystream.word key (16 * c + j.val) =
        (Nat.repeat Keystream.doubleRound 6 (Keystream.initial key (UInt64.ofNat c))).get j +
          (Keystream.initial key (UInt64.ofNat c)).get j := by
  have hpoint : ∀ points : List Operation, (∀ op ∈ points, ∀ n, op ≠ .run n) →
      (blank.after points).generator = ⟨(Generator.ofSeed seed).key, blank.draws points⟩ := by
    intro points hn
    rw [generator_after hn, generator_of_create hseed hc, Generator.skip]
    exact congrArg (Generator.mk _) (Nat.zero_add _)
  refine ⟨?_, fun points later hp x n hx => ?_, Keystream.word_eq⟩
  · rw [← after_unroll]
    exact hpoint _ fun op => Operation.not_run_of_mem_unroll
  · have hg := hpoint points fun op ho =>
      Operation.not_run_of_mem_unroll (hp ▸ List.mem_append_left _ ho)
    have hr := randomizes hx
    rwa [hg] at hr

example : (List.range 8).map (fun k => (Keystream.word (Generator.ofSeed 42).key k).toUInt8) =
    [0xA2, 0x63, 0x7D, 0x13, 0xD1, 0x71, 0xB2, 0x78] := by
  decide +kernel

/-- The second of two programs goes on with the stream after the first has faulted, which had used
up a word for a byte that it masked out. -/
theorem random_bytes_follow_stream_across_loads : ∃ blank points,
    create { seed := some 42 } (.ofSeed 0) = .ok blank ∧
    points = [.load [0xC0, 0xFF, 0xC1, 0x00, 0x00, 0x00], .step, .step, .step,
      .load [0xC2, 0xFF, 0xF0, 0x0A]] ∧
    (blank.after points).generator.position = 2 ∧
    (blank.after points).step.machine.registers.get 2 = 0x7D ∧
    (blank.after [.load [0xC0, 0xFF, 0xC1, 0x00, 0x00, 0x00], .run 3,
      .load [0xC2, 0xFF, 0xF0, 0x0A], .run 5, .setKey 3 true]).generator.position = 3 := by
  obtain ⟨hg, hk, -⟩ := @random_bytes_follow_stream { seed := some 42 } 42 (.ofSeed 0) _ rfl rfl
    [.load [0xC0, 0xFF, 0xC1, 0x00, 0x00, 0x00], .run 3, .load [0xC2, 0xFF, 0xF0, 0x0A], .run 5,
      .setKey 3 true]
  have hr := hk [.load [0xC0, 0xFF, 0xC1, 0x00, 0x00, 0x00], .step, .step, .step,
    .load [0xC2, 0xFF, 0xF0, 0x0A]] _ rfl 2 0xFF (by decide +kernel)
  refine ⟨_, _, rfl, rfl, by decide +kernel, ?_, ?_⟩
  · rw [hr.get_eq]
    decide +kernel
  · rw [hg]
    decide +kernel

end Machine

end Chip8
