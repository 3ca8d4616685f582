import Chip8.Proofs.Machine.Loading

/-!
Operations that leave a program alone: while none runs an instruction, ends a wait for a key or
loads another program, they reach only the keys, the timers and the glyphs.
-/

namespace Chip8

namespace Operation

/-- The key that an operation presses; releases, and numbers that name no key, press none. -/
def press? : Operation → Option Key
  | .setKey k true => some k
  | .setKeyNumber id true => Key.ofByte? id
  | _ => none

end Operation

namespace Machine

variable {m m' w : Machine} {op : Operation} {k : Key}

theorem perform_of_press? (h : op.press? = some k) :
    m.perform op = ⟨m.setKey k true, .ok none, #[]⟩ := by
  cases op with
  | setKey j down =>
    cases down with
    | true =>
      obtain rfl := Option.some.inj h
      rfl
    | false => cases h
  | setKeyNumber id down =>
    cases down with
    | true =>
      have hid : Key.ofByte? id = some k := h
      simp only [perform, setKeyNumber, hid]
    | false => cases h
  | _ => cases h

theorem setKey_of_not_waiting (hs : ∀ x, m.status ≠ .waiting x) (k : Key) (down : Bool) :
    m.setKey k down = { m with keypad := m.keypad.set k down } := by
  unfold setKey
  dsimp only
  split
  case h_1 x h => exact absurd h (hs x)
  case h_2 => rfl

theorem setKey_release (m : Machine) (k : Key) :
    m.setKey k false = { m with keypad := m.keypad.set k false } := by
  unfold setKey
  dsimp only
  split
  case h_1 h => cases h
  case h_2 => rfl

theorem setKey_of_waiting {x : UInt8} (hs : m.status = .waiting x) (k : Key) :
    m.setKey k true =
      { m with
        registers := m.registers.set x k.toByte
        keypad := m.keypad.press k
        status := .running } := by
  simp only [setKey, hs, Keypad.set, if_true]

/-- What an operation comes to that loads no program and runs no instruction. -/
inductive Touches (m : Machine) (op : Operation) : Prop
  | nothing (hm : (m.perform op).machine = m) : Touches m op
  | glyphs (glyphs : List UInt8) (hg : glyphs.length = Font.length)
    (hm : (m.perform op).machine = m.setFont glyphs) : Touches m op
  | key (k : Key) (down : Bool) (hp : down = true → op.press? = some k)
    (hm : (m.perform op).machine = m.setKey k down) : Touches m op
  | keys (hm : (m.perform op).machine = m.clearKeys) : Touches m op
  | timers (ho : op = .tick) (hm : (m.perform op).machine = m.tick) : Touches m op

theorem touches (hl : ¬ op.Reloads)
    (hr : m.status ≠ .running ∨ (op ≠ .step ∧ ∀ n, op ≠ .run n)) : m.Touches op := by
  cases op with
  | load p =>
    have hp : Memory.programCapacity < p.length := Nat.not_le.mp fun hp => hl ⟨p, rfl, hp⟩
    refine .nothing ?_
    simp only [perform, load_of_lt m hp]
    rfl
  | loadFont glyphs =>
    by_cases hg : glyphs.length = Font.length
    · refine .glyphs glyphs hg ?_
      simp only [perform, loadFont, if_pos hg]
      rfl
    · refine .nothing ?_
      simp only [perform, loadFont, if_neg hg]
      rfl
  | loadBuiltinFont => exact .glyphs Font.builtin rfl rfl
  | step =>
    have hs : m.status ≠ .running := hr.resolve_right fun h => h.1 rfl
    exact .nothing (step_of_not_running hs)
  | run n =>
    have hs : m.status ≠ .running := hr.resolve_right fun h => h.2 n rfl
    refine .nothing ?_
    change (m.run n).machine = m
    rw [machine_run, after_steps_of_not_running hs]
  | setKey k down =>
    refine .key k down ?_ rfl
    rintro rfl
    rfl
  | setKeyNumber id down =>
    cases hk : Key.ofByte? id with
    | none =>
      refine .nothing ?_
      simp only [perform, setKeyNumber, hk]
    | some k =>
      refine .key k down ?_ ?_
      · rintro rfl
        exact hk
      · simp only [perform, setKeyNumber, hk]
  | clearKeys => exact .keys rfl
  | tick => exact .timers rfl rfl

/-- What neither loads nor runs a program reaches no more than memory, registers, timers, keys and
status. -/
theorem perform_eq (hl : ¬ op.Reloads)
    (hr : m.status ≠ .running ∨ (op ≠ .step ∧ ∀ n, op ≠ .run n)) :
    (m.perform op).machine =
      { m with
        memory := (m.perform op).machine.memory
        registers := (m.perform op).machine.registers
        delay := (m.perform op).machine.delay
        sound := (m.perform op).machine.sound
        keypad := (m.perform op).machine.keypad
        status := (m.perform op).machine.status } := by
  cases touches hl hr with
  | nothing hm => rw [hm]
  | glyphs glyphs _ hm =>
    rw [hm]
    rfl
  | key k down _ hm =>
    rw [hm]
    simp only [setKey]
    split <;> rfl
  | keys hm =>
    rw [hm]
    rfl
  | timers _ hm =>
    rw [hm]
    rfl

/-- That the second machine differs from the first in keys, timers and glyphs at most. -/
structure Idles (m w : Machine) : Prop where
  eq : w =
    { m with memory := w.memory, delay := w.delay, sound := w.sound, keypad := w.keypad }
  read_eq : ∀ a, 80 ≤ a % 4096 → w.memory.read a = m.memory.read a

/-- Whether an operation leaves the program of a machine alone: it loads no other program, ends no
wait and runs no instruction. -/
structure Spares (m : Machine) (op : Operation) : Prop where
  not_reloads : ¬ op.Reloads
  not_ends : op.press? = none ∨ ∀ x, m.status ≠ .waiting x
  not_runs : m.status ≠ .running ∨ (op ≠ .step ∧ ∀ n, op ≠ .run n)

namespace Idles

theorem refl (m : Machine) : m.Idles m :=
  ⟨rfl, fun _ _ => rfl⟩

theorem trans (h : m.Idles m') (h' : m'.Idles w) : m.Idles w := by
  constructor
  · rw [h'.eq, h.eq]
  · intro a ha
    rw [h'.read_eq a ha, h.read_eq a ha]

theorem status_eq (h : m.Idles w) : w.status = m.status := by
  rw [h.eq]

theorem setFont {glyphs : List UInt8} (hg : glyphs.length = Font.length) :
    m.Idles (m.setFont glyphs) :=
  ⟨rfl, fun _ ha => m.memory.read_store_glyphs hg ha⟩

theorem release (k : Key) : m.Idles (m.setKey k false) := by
  rw [setKey_release]
  exact ⟨rfl, fun _ _ => rfl⟩

theorem setKey (hs : ∀ x, m.status ≠ .waiting x) (k : Key) (down : Bool) :
    m.Idles (m.setKey k down) := by
  rw [setKey_of_not_waiting hs]
  exact ⟨rfl, fun _ _ => rfl⟩

theorem perform (h : m.Spares op) : m.Idles (m.perform op).machine := by
  cases touches h.not_reloads h.not_runs with
  | nothing hm =>
    rw [hm]
    exact refl m
  | glyphs glyphs hg hm =>
    rw [hm]
    exact setFont hg
  | key k down hp hm =>
    rw [hm]
    rcases h.not_ends with hnone | hs
    · cases down with
      | true => exact absurd ((hp rfl).symm.trans hnone) (Option.some_ne_none k)
      | false => exact release k
    · exact setKey hs k down
  | keys hm =>
    rw [hm]
    exact ⟨rfl, fun _ _ => rfl⟩
  | timers _ hm =>
    rw [hm]
    exact ⟨rfl, fun _ _ => rfl⟩

theorem spares (h : m.Idles w) (hop : m.Spares op) : w.Spares op := by
  obtain ⟨hl, he, hr⟩ := hop
  rw [← h.status_eq] at hr
  simp only [← h.status_eq] at he
  exact ⟨hl, he, hr⟩

end Idles

theorem executed_of_spares (h : m.Spares op) : m.executed [op] = [] := by
  rw [executed, Operation.unroll, List.flatMap_singleton]
  rcases h.not_runs with hs | ⟨hs, hn⟩
  · exact instructions_parts_of_not_running hs op
  · cases op with
    | step => exact absurd rfl hs
    | run n => exact absurd rfl (hn n)
    | _ => rfl

theorem executed_of_press? (h : op.press? = some k) : m.executed [op] = [] := by
  cases op with
  | setKey | setKeyNumber => rfl
  | _ => cases h

/-- What leaves a program alone does so over whole histories, which execute nothing. -/
theorem idles_after {history : List Operation} (h : ∀ op ∈ history, m.Spares op) :
    m.Idles (m.after history) ∧ m.executed history = [] := by
  induction history generalizing m with
  | nil => exact ⟨.refl m, rfl⟩
  | cons op rest ih =>
    have hop : m.Idles (m.perform op).machine := .perform (h op (.head _))
    have hrest := ih fun o ho => hop.spares (h o (.tail _ ho))
    refine ⟨hop.trans hrest.1, ?_⟩
    rw [executed_cons, executed_of_spares (h op (.head _)), List.nil_append]
    exact hrest.2

/-- That the timers of the second machine stand a number of ticks below those of the first, at zero
at least. -/
structure CountsDown (m w : Machine) (n : Nat) : Prop where
  delay_eq : w.delay.toNat = m.delay.toNat - n
  sound_eq : w.sound.toNat = m.sound.toNat - n

theorem toNat_countedDown (timer : UInt8) : (countedDown timer).toNat = timer.toNat - 1 := by
  unfold countedDown
  split
  case isTrue h =>
    rw [h]
    rfl
  case isFalse h =>
    have hne : timer.toNat ≠ 0 := fun h0 => h (UInt8.toNat_inj.mp h0)
    have hlt := timer.toNat_lt
    rw [UInt8.toNat_sub]
    show (2 ^ 8 - 1 + timer.toNat) % 2 ^ 8 = timer.toNat - 1
    omega

namespace CountsDown

theorem of_eq (hd : w.delay = m.delay) (hs : w.sound = m.sound) : m.CountsDown w 0 := by
  constructor
  · rw [hd, Nat.sub_zero]
  · rw [hs, Nat.sub_zero]

theorem trans {n k : Nat} (h : m.CountsDown m' n) (h' : m'.CountsDown w k) :
    m.CountsDown w (n + k) := by
  constructor
  · rw [h'.delay_eq, h.delay_eq, Nat.sub_sub]
  · rw [h'.sound_eq, h.sound_eq, Nat.sub_sub]

theorem tick (m : Machine) : m.CountsDown m.tick 1 :=
  ⟨toNat_countedDown m.delay, toNat_countedDown m.sound⟩

theorem setKey (m : Machine) (k : Key) (down : Bool) : m.CountsDown (m.setKey k down) 0 := by
  unfold Machine.setKey
  dsimp only
  split <;> exact of_eq rfl rfl

theorem perform (ht : op ≠ .tick) (hl : ¬ op.Reloads)
    (hr : m.status ≠ .running ∨ (op ≠ .step ∧ ∀ n, op ≠ .run n)) :
    m.CountsDown (m.perform op).machine 0 := by
  cases touches hl hr with
  | nothing hm =>
    rw [hm]
    exact of_eq rfl rfl
  | glyphs glyphs _ hm =>
    rw [hm]
    exact of_eq rfl rfl
  | key k down _ hm =>
    rw [hm]
    exact setKey m k down
  | keys hm =>
    rw [hm]
    exact of_eq rfl rfl
  | timers ho _ => exact absurd ho ht

/-- While no program runs or is loaded the timers go down by the number of ticks. -/
theorem after {history : List Operation} (h : ∀ op ∈ history, m.Spares op) :
    m.CountsDown (m.after history) (history.count .tick) := by
  induction history generalizing m with
  | nil => exact of_eq rfl rfl
  | cons op rest ih =>
    obtain ⟨hl, -, hr⟩ := h op (.head _)
    have hidle : m.Idles (m.perform op).machine := .perform (h op (.head _))
    have hrest := ih fun o ho => hidle.spares (h o (.tail _ ho))
    by_cases ht : op = .tick
    · rw [ht] at hrest ⊢
      rw [List.count_cons_self, Nat.add_comm]
      exact (tick m).trans hrest
    · rw [List.count_cons_of_ne ht, ← Nat.zero_add (rest.count _)]
      exact (perform ht hl hr).trans hrest

end CountsDown

/-- A run of what does not run ends with its first step. -/
theorem run_succ_of_not_running (hs : m.status ≠ .running) (n : Nat) : m.run (n + 1) = m.step := by
  cases h : m.status with
  | running => exact absurd h hs
  | waiting x => simp [run, Outcome.resume, step_of_waiting h, Outcome.isFinal]
  | halted => simp [run, Outcome.resume, step_of_halted h, Outcome.isFinal]

end Machine

end Chip8
