import Chip8.Proofs.Machine.Idle

/-!
The wait for a key. It begins whatever keys are down, outlasts everything but a press and a new
program, and ends with the first press, after which the program goes on where it stopped.
-/

namespace Chip8.Machine

variable {m w v : Machine} {x : UInt8} {k : Key}

theorem step_of_awaitKey (hs : m.status = .running)
    (hd : Instruction.decode? m.word = some (.awaitKey x)) :
    m.step = ⟨{ m with pc := (m.pc + 2) % 4096, status := .waiting x }, .ok .keyWait,
      #[.executing m.pc m.word (.awaitKey x)]⟩ := by
  rw [step_of_decode? hs hd]
  rfl

/-- That a machine waits for a key whose number goes to register `x`: its steps and runs report the
wait, and neither releases nor numbers that name no key end it. -/
structure Awaits (w : Machine) (x : UInt8) : Prop where
  status_eq : w.status = .waiting x
  step : w.step.result = .ok .keyWait
  run : ∀ n, 1 ≤ n → (w.run n).result = .ok .keyWait
  release : ∀ k, (w.setKey k false).status = .waiting x
  releaseNumber : ∀ id, (w.setKeyNumber id false).status = .waiting x
  clearKeys : w.clearKeys.status = .waiting x
  ignore : ∀ id down, 16 ≤ id.toNat → w.setKeyNumber id down = w

theorem awaits_of_status (hs : w.status = .waiting x) : w.Awaits x where
  status_eq := hs
  step := by rw [step_of_waiting hs]
  run n hn := by
    obtain ⟨n, rfl⟩ := Nat.exists_eq_add_of_le' hn
    rw [run_succ_of_not_running (by simp [hs]), step_of_waiting hs]
  release k := by rw [setKey_release, hs]
  releaseNumber id := by
    unfold setKeyNumber
    split
    case h_1 k _ => rw [setKey_release, hs]
    case h_2 => exact hs
  clearKeys := hs
  ignore id down hid := by
    have hnone : Key.ofByte? id = none := dif_neg (Nat.not_lt.mpr hid)
    simp only [setKeyNumber, hnone]

/-- That the press of a key turns a machine that waits with register `x` into another, which runs
and differs in that register and the key at most. -/
structure Resumes (w : Machine) (x : UInt8) (k : Key) (v : Machine) : Prop where
  eq : v = { w with registers := v.registers, keypad := v.keypad, status := .running }
  get_eq : (v.registers.get x).toNat = k.val
  get_other : ∀ y, y.toNat % 16 ≠ x.toNat % 16 → v.registers.get y = w.registers.get y
  isDown_eq : ∀ id, v.keypad.isDown id = (w.keypad.isDown id || id.toNat = k.val)

theorem resumes_of_waiting (hs : w.status = .waiting x) (k : Key) :
    w.Resumes x k (w.setKey k true) := by
  rw [setKey_of_waiting hs]
  exact {
    eq := rfl
    get_eq := by
      have hk := k.isLt
      rw [Registers.get_set_self, Key.toByte, UInt8.toNat_ofNat']
      omega
    get_other := fun y hy => Registers.get_set_of_ne hy
    isDown_eq := w.keypad.isDown_press k }

/-- Until a key is pressed or a program loaded a machine that waits goes on waiting. -/
theorem idles_of_waiting (hs : m.status = .waiting x) {history : List Operation}
    (h : ∀ op ∈ history, op.press? = none ∧ ¬ op.Reloads) :
    m.Idles (m.after history) ∧ m.executed history = [] ∧ (m.after history).Awaits x := by
  have hspares : ∀ op ∈ history, m.Spares op := fun op hop =>
    { not_reloads := (h op hop).2
      not_ends := .inl (h op hop).1
      not_runs := .inl (by simp [hs]) }
  obtain ⟨hidle, hnone⟩ := idles_after hspares
  exact ⟨hidle, hnone, awaits_of_status (hidle.status_eq.trans hs)⟩

/-- Until its next step or a program loaded a running machine goes on where it is. -/
theorem idles_of_running (hs : m.status = .running) {history : List Operation}
    (h : ∀ op ∈ history, op ≠ .step ∧ (∀ n, op ≠ .run n) ∧ ¬ op.Reloads) :
    m.Idles (m.after history) ∧ m.executed history = [] := by
  refine idles_after fun op hop => ?_
  obtain ⟨hstep, hrun, hload⟩ := h op hop
  exact {
    not_reloads := hload
    not_ends := .inr (by simp [hs])
    not_runs := .inr ⟨hstep, hrun⟩ }

/-- A running machine that comes to a wait for a key waits, even with keys down, through every
history without a press and without a program to load, in which only keys, timers and glyphs can
change. The first press puts its key in the register and nowhere else. The machine then runs, and
its next step executes the instruction after the wait, which no step has executed before. -/
theorem waits_for_key (hs : m.status = .running) (hw : m.word.toNat = 0xF00A + 256 * x.toNat) :
    m.step.result = .ok .keyWait ∧
    m.step.machine = { m with pc := (m.pc + 2) % 4096, status := .waiting x } ∧
    ∀ history, (∀ op ∈ history, op.press? = none ∧ ¬ op.Reloads) →
      ∀ w, m.step.machine.after history = w →
        m.step.machine.Idles w ∧ w.Awaits x ∧
        ∀ op k, op.press? = some k → ∀ v, (w.perform op).machine = v →
          w.Resumes x k v ∧
          ∀ meanwhile,
            (∀ o ∈ meanwhile, o ≠ .step ∧ (∀ n, o ≠ .run n) ∧ ¬ o.Reloads) →
            ∀ u, v.after meanwhile = u →
              v.Idles u ∧ u.status = .running ∧ u.pc = (m.pc + 2) % 4096 ∧
              (∀ i, Instruction.decode? u.word = some i →
                u.step.machine = (u.advance.execute ((m.pc + 2) % 4096) i).1 ∧
                u.step.result = (u.advance.execute ((m.pc + 2) % 4096) i).2) ∧
              m.executed (.step :: history ++ op :: meanwhile ++ [.step]) =
                .awaitKey x :: (Instruction.decode? u.word).toList := by
  have hd : Instruction.decode? m.word = some (.awaitKey x) :=
    Instruction.decode?_eq_awaitKey_iff.mpr hw
  have hstep := step_of_awaitKey hs hd
  have hwait : m.step.machine.status = .waiting x := by rw [hstep]
  refine ⟨by rw [hstep], by rw [hstep], fun history hq w hafter => ?_⟩
  obtain ⟨hidle, hnone, hawaits⟩ := idles_of_waiting hwait hq
  rw [hafter] at hidle hawaits
  refine ⟨hidle, hawaits, fun op k hop v hpress => ?_⟩
  have hset : v = w.setKey k true := by rw [← hpress, perform_of_press? hop]
  have hresume : w.Resumes x k v := hset ▸ resumes_of_waiting hawaits.status_eq k
  have hrunning : v.status = .running := by rw [hresume.eq]
  refine ⟨hresume, fun meanwhile hm u hu => ?_⟩
  obtain ⟨hidle', hnone'⟩ := idles_of_running hrunning hm
  rw [hu] at hidle'
  have hus : u.status = .running := hidle'.status_eq.trans hrunning
  have hpc : u.pc = (m.pc + 2) % 4096 := by
    rw [hidle'.eq, hresume.eq, hidle.eq, hstep]
  refine ⟨hidle', hus, hpc, fun i hi => ?_, ?_⟩
  · rw [step_of_decode? hus hi, hpc]
    exact ⟨rfl, rfl⟩
  · have hw : m.after (.step :: history) = w := hafter
    have hv : w.after (op :: meanwhile) = u := by rw [← hu, ← hpress]; rfl
    calc m.executed (.step :: history ++ op :: meanwhile ++ [.step])
      _ = m.executed [.step] ++ m.step.machine.executed history ++
            (w.executed [op] ++ v.executed meanwhile) ++ u.executed [.step] := by
        rw [executed_append, executed_append, after_append, hw, hv, executed_cons m,
          executed_cons w, hpress]
        rfl
      _ = m.next?.toList ++ u.next?.toList := by
        rw [hnone, hnone', executed_of_press? hop, executed_step, executed_step]
        simp only [List.append_nil]
      _ = .awaitKey x :: (Instruction.decode? u.word).toList := by
        rw [next?_of_running hs, next?_of_running hus, hd]
        rfl

/-- A wait that begins with a key down and ends with a press of another. -/
theorem waits_for_key_with_key_down : ∃ m, Reachable m ∧ m.keypad.isDown 5 = true ∧
    m.step.result = .ok .keyWait ∧
    (m.after [.step, .setKey 5 false, .tick, .clearKeys, .run 3]).Awaits 3 ∧
    m.executed [.step, .setKey 5 false, .tick, .clearKeys, .run 3, .setKeyNumber 7 true, .tick,
      .step] = [.awaitKey 3, .addByte 3 1] := by
  have hb := @Reachable.create {} (.ofSeed 0) _ rfl
  obtain ⟨m, hm, hdown, hs, hw, hnext⟩ : ∃ m, Reachable m ∧ m.keypad.isDown 5 = true ∧
      m.status = .running ∧ m.word.toNat = 0xF00A + 256 * (3 : UInt8).toNat ∧
      (m.after [.step, .setKey 5 false, .tick, .clearKeys, .run 3, .setKeyNumber 7 true,
        .tick]).word = 0x7301 :=
    ⟨_, hb.after [.load [0xF3, 0x0A, 0x73, 0x01], .setKey 5 true], by decide +kernel,
      by decide +kernel, by decide +kernel, by decide +kernel⟩
  obtain ⟨hr, -, hwait⟩ := waits_for_key hs hw
  have hquiet : ∀ op ∈ [Operation.setKey 5 false, .tick, .clearKeys, .run 3],
      op.press? = none ∧ ¬ op.Reloads := by
    simp [Operation.press?, Operation.Reloads]
  obtain ⟨-, hawaits, hpress⟩ := hwait _ hquiet _ (m.after_step_cons _).symm
  obtain ⟨-, hresumed⟩ := hpress (.setKeyNumber 7 true) 7 rfl _ (m.after_append _ [_]).symm
  obtain ⟨-, -, -, -, hx⟩ := hresumed [.tick] (by simp [Operation.Reloads]) _
    (m.after_append _ [_]).symm
  refine ⟨m, hm, hdown, hr, hawaits, hx.trans ?_⟩
  simp only [List.cons_append, List.nil_append, hnext]
  rfl

end Chip8.Machine
