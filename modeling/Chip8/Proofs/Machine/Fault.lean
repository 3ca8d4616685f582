import Chip8.Proofs.Machine.Invariant

/-!
Faults: which steps fail, what a failed step leaves behind, and that operations halt a machine
exactly when they report a fault of the running program.
-/

namespace Chip8.Machine

/-- What makes the next step of a running machine fail. -/
inductive Faults (m : Machine) : Failure → Prop
  | unknown (h : Instruction.decode? m.word = none) : Faults m (.unknownInstruction m.word)
  | underflow (hw : m.word = 0x00EE) (hd : m.stack.depth = 0) :
    Faults m (.stackUnderflow (UInt16.ofNat m.pc))
  | overflow (hw : m.word.toNat / 4096 = 2) (hd : m.stack.depth = 16) :
    Faults m (.stackOverflow (UInt16.ofNat m.pc))

variable {m : Machine} {e : Failure}

theorem step_eq_error_iff (hs : m.status = .running) (hc : m.stack.depth ≤ 16) :
    m.step.result = .error e ↔ m.Faults e := by
  cases hd : Instruction.decode? m.word with
  | none =>
    rw [step_of_unknown hs hd]
    constructor
    · intro h
      obtain rfl := Except.error.inj h
      exact .unknown hd
    · intro h
      cases h with
      | unknown _ => rfl
      | underflow hw _ =>
        rw [Instruction.decode?_eq_ret_iff.mpr hw] at hd
        cases hd
      | overflow hw _ =>
        rw [Instruction.decode?_eq_call_iff.mpr ⟨hw, rfl⟩] at hd
        cases hd
  | some i =>
    rw [step_of_decode? hs hd, execute_eq_error_iff]
    constructor
    · rintro (⟨rfl, hz, rfl⟩ | ⟨⟨t, rfl⟩, hf, rfl⟩)
      · exact .underflow (Instruction.decode?_eq_ret_iff.mp hd) hz
      · exact .overflow (Instruction.decode?_eq_call_iff.mp hd).1 (Nat.le_antisymm hc hf)
    · intro h
      cases h with
      | unknown hn =>
        rw [hn] at hd
        cases hd
      | underflow hw hz =>
        rw [Instruction.decode?_eq_ret_iff.mpr hw] at hd
        exact .inl ⟨(Option.some.inj hd).symm, hz, rfl⟩
      | overflow hw hf =>
        rw [Instruction.decode?_eq_call_iff.mpr ⟨hw, rfl⟩] at hd
        exact .inr ⟨⟨_, (Option.some.inj hd).symm⟩, Nat.le_of_eq hf.symm, rfl⟩

/-- A failed step moves the program counter on and halts; nothing else changes. -/
theorem step_of_error (h : m.step.result = .error e) : m.step.machine =
    { m with pc := Memory.nextWord m.pc, status := .halted, fault := some e } := by
  cases m.stepped with
  | idle _ _ hr =>
    rw [h] at hr
    rcases hr with hr | hr <;> cases hr
  | fault e' _ _ hm hr =>
    rw [h] at hr
    obtain rfl := Except.error.inj hr
    exact hm
  | complete _ s _ _ _ hr =>
    rw [h] at hr
    cases hr

/-- A step reports a fault exactly where it halts the machine. -/
theorem step_faults_iff_halts (m : Machine) :
    (∃ e, m.step.result = .error e ∧ e.isFatal = true) ↔
      m.status ≠ .halted ∧ m.step.machine.status = .halted := by
  cases m.stepped with
  | idle hs hm hr =>
    constructor
    · rintro ⟨e, he, -⟩
      rw [he] at hr
      rcases hr with hr | hr <;> cases hr
    · rintro ⟨hn, hh⟩
      rw [hm] at hh
      exact absurd hh hn
  | fault e hs he hm hr =>
    have hn : m.status ≠ .halted := by simp [hs]
    have hh : m.step.machine.status = .halted := by rw [hm]; rfl
    exact ⟨fun _ => ⟨hn, hh⟩, fun _ => ⟨e, hr, he⟩⟩
  | complete i s hs _ _ hr =>
    constructor
    · rintro ⟨e, he, -⟩
      rw [hr] at he
      cases he
    · rintro ⟨-, hh⟩
      rcases status_of_step hs hr with ⟨hk, -⟩ | ⟨x, -, hw⟩
      · cases hk.symm.trans hh
      · cases hw.symm.trans hh

/-- A run goes on only from a running machine and past a step that did not fail. -/
theorem of_not_isFinal (h : ¬ m.step.isFinal = true) :
    m.status = .running ∧ ∀ e, m.step.result ≠ .error e := by
  cases m.stepped with
  | idle _ _ hr => rcases hr with hr | hr <;> simp [Outcome.isFinal, hr] at h
  | fault e _ _ _ hr => simp [Outcome.isFinal, hr] at h
  | complete i s hs _ _ hr => exact ⟨hs, by simp [hr]⟩

private theorem resume_faults_iff_halts (n : Nat) (o : Outcome Signal)
    (ho : ∀ e, o.result ≠ .error e) :
    (∃ e, (Outcome.resume n o).result = .error e ∧ e.isFatal = true) ↔
      o.machine.status ≠ .halted ∧ (Outcome.resume n o).machine.status = .halted := by
  induction n generalizing o with
  | zero =>
    constructor
    · rintro ⟨e, he, -⟩
      exact absurd he (ho e)
    · rintro ⟨hn, hh⟩
      exact absurd hh hn
  | succ n ih =>
    rw [Outcome.resume]
    split
    case isTrue => exact step_faults_iff_halts o.machine
    case isFalse hf =>
      obtain ⟨hr, he⟩ := of_not_isFinal hf
      have hn : o.machine.status ≠ .halted := by simp [hr]
      have hn' : o.machine.step.machine.status ≠ .halted := fun hh => by
        obtain ⟨e, h, -⟩ := (step_faults_iff_halts o.machine).mpr ⟨hn, hh⟩
        exact he e h
      refine (ih _ ?_).trans ?_
      · exact he
      · simp only [hn, hn', ne_eq, not_false_eq_true, true_and]

private theorem map_faults_iff (o : Outcome Signal) :
    (∃ e, (o.map some).result = .error e ∧ e.isFatal = true) ↔
      ∃ e, o.result = .error e ∧ e.isFatal = true := by
  cases h : o.result <;> simp [Outcome.map, Except.map, h]

/-- A request that gives no fault must halt no machine. -/
private theorem no_fault {m' : Machine} {r : Except Failure (Option Signal)}
    (hr : ∀ e, r = .error e → e.isFatal = false) (h : m'.status = .halted → m.status = .halted) :
    (∃ e, r = .error e ∧ e.isFatal = true) ↔ m.status ≠ .halted ∧ m'.status = .halted := by
  constructor
  · rintro ⟨e, he, hf⟩
    rw [hr e he] at hf
    cases hf
  · rintro ⟨hn, hh⟩
    exact absurd (h hh) hn

theorem status_setKey (m : Machine) (k : Key) (down : Bool) :
    (m.setKey k down).status = m.status ∨ (m.setKey k down).status = .running := by
  unfold setKey
  dsimp only
  split
  case h_1 => exact .inr rfl
  case h_2 => exact .inl rfl

private theorem halted_of_setKey {k : Key} {down : Bool}
    (h : (m.setKey k down).status = .halted) : m.status = .halted := by
  rcases m.status_setKey k down with hs | hs
  · exact hs.symm.trans h
  · cases hs.symm.trans h

/-- Over all operations, a fault is reported exactly where the machine is brought to a halt. -/
theorem perform_faults_iff_halts (m : Machine) (op : Operation) :
    (∃ e, (m.perform op).result = .error e ∧ e.isFatal = true) ↔
      m.status ≠ .halted ∧ (m.perform op).machine.status = .halted := by
  cases op with
  | load p =>
    simp only [perform, load]
    split
    case isTrue => exact no_fault nofun nofun
    case isFalse => exact no_fault (fun _ he => by cases he; rfl) id
  | loadFont glyphs =>
    simp only [perform, loadFont]
    split
    case isTrue => exact no_fault nofun id
    case isFalse => exact no_fault (fun _ he => by cases he; rfl) id
  | loadBuiltinFont =>
    simp only [perform, loadBuiltinFont, setFont]
    exact no_fault nofun id
  | step => exact (map_faults_iff m.step).trans (step_faults_iff_halts m)
  | run n => exact (map_faults_iff (m.run n)).trans (resume_faults_iff_halts n _ nofun)
  | setKey k down => exact no_fault nofun halted_of_setKey
  | setKeyNumber id down =>
    simp only [perform, setKeyNumber]
    split
    case h_1 => exact no_fault nofun halted_of_setKey
    case h_2 => exact no_fault nofun fun h => h
  | clearKeys => exact no_fault nofun id
  | tick => exact no_fault nofun id

theorem load_of_error {p : List UInt8} (h : (m.load p).result = .error e) :
    (m.load p).machine = m := by
  unfold load at h ⊢
  split
  case isTrue hp =>
    rw [if_pos hp] at h
    cases h
  case isFalse => rfl

theorem loadFont_of_error {glyphs : List UInt8} (h : (m.loadFont glyphs).result = .error e) :
    (m.loadFont glyphs).machine = m := by
  unfold loadFont at h ⊢
  split
  case isTrue hg =>
    rw [if_pos hg] at h
    cases h
  case isFalse => rfl

/-- A running machine fails a step exactly on an unknown word, on a return without a call and on a
call without room, and then halts past that word with nothing else changed. Refused requests change
nothing at all, so a fault is reported exactly where an operation halts the machine. -/
theorem faults_are_exact (hm : Reachable m) :
    (m.status = .running →
      m.word.toNat =
        (m.memory.read m.pc).toNat * 256 + (m.memory.read ((m.pc + 1) % 4096)).toNat ∧
      (UInt16.ofNat m.pc).toNat = m.pc ∧
      (∀ e, m.step.result = .error e ↔ m.Faults e) ∧
      ∀ e, m.step.result = .error e → m.step.machine =
        { m with pc := (m.pc + 2) % 4096, status := .halted, fault := some e }) ∧
    (∀ p e, (m.load p).result = .error e → (m.load p).machine = m) ∧
    (∀ glyphs e, (m.loadFont glyphs).result = .error e → (m.loadFont glyphs).machine = m) ∧
    ∀ op, (∃ e, (m.perform op).result = .error e ∧ e.isFatal = true) ↔
      m.status ≠ .halted ∧ (m.perform op).machine.status = .halted := by
  have hi := hm.invariant
  refine ⟨fun hs => ⟨m.toNat_word, hi.toNat_ofNat_pc, ?_, ?_⟩, ?_, ?_, ?_⟩
  · intro e
    exact step_eq_error_iff hs hi.depth_le
  · intro e he
    exact step_of_error he
  · intro p e he
    exact load_of_error he
  · intro glyphs e he
    exact loadFont_of_error he
  · intro op
    exact m.perform_faults_iff_halts op

/-- A program that begins with a return. -/
theorem faults_are_exact_at_lone_return : ∃ m, Reachable m ∧
    m.step.result = .error (.stackUnderflow 512) ∧ m.step.machine =
      { m with pc := 514, status := .halted, fault := some (.stackUnderflow 512) } := by
  have hm := Reachable.perform (.load [0x00, 0xEE]) (@Reachable.create {} (.ofSeed 0) _ rfl)
  obtain ⟨-, -, hf, hh⟩ := (faults_are_exact hm).1 (by decide +kernel)
  have he := (hf (.stackUnderflow 512)).mpr (.underflow (by decide +kernel) (by decide +kernel))
  exact ⟨_, hm, he, hh _ he⟩

end Chip8.Machine
