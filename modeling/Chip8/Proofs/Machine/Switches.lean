import Chip8.Proofs.Machine.History

/-!
The keys as switches. The mask of the keypad holds sixteen of them: over every history each goes by
the last event of its own, whatever becomes of the others. Programs skip by the switch of the key
that a register names.
-/

namespace Chip8

namespace Key

theorem toNat_toByte (k : Key) : k.toByte.toNat = k.val := by
  have hk := k.isLt
  rw [toByte, UInt8.toNat_ofNat']
  omega

theorem ofByte?_eq_some_iff {id : UInt8} {k : Key} : ofByte? id = some k ↔ id.toNat = k.val := by
  have hk := k.isLt
  unfold ofByte?
  split
  case isTrue h => rw [Option.some_inj, Fin.ext_iff]
  case isFalse h =>
    constructor
    · exact nofun
    · intro hid
      omega

end Key

namespace Operation

/-- What an operation turns a key to: down, up, or nothing where it leaves the key alone. -/
def event? (k : Key) : Operation → Option Bool
  | .setKey j down => if j = k then some down else none
  | .setKeyNumber id down => if id.toNat = k.val then some down else none
  | .clearKeys => some false
  | .load p => if p.length ≤ Memory.programCapacity then some false else none
  | .loadFont _ | .loadBuiltinFont | .step | .run _ | .tick => none

/-- What a history last turns a key to. -/
def lastEvent? (k : Key) (history : List Operation) : Option Bool :=
  (history.filterMap (event? k)).getLast?

theorem lastEvent?_cons (k : Key) (op : Operation) (rest : List Operation) (before : Bool) :
    (lastEvent? k (op :: rest)).getD before =
      (lastEvent? k rest).getD ((op.event? k).getD before) := by
  unfold lastEvent?
  cases h : op.event? k with
  | none => rw [List.filterMap_cons_none h, Option.getD_none]
  | some down =>
    rw [List.filterMap_cons_some h, List.getLast?_cons, Option.getD_some, Option.getD_some]

/-- The events of a key are all that counts for it. -/
theorem lastEvent?_filter (k : Key) (history : List Operation) :
    lastEvent? k (history.filter fun op => (op.event? k).isSome) = lastEvent? k history := by
  have hsame : (fun op => if (event? k op).isSome then event? k op else none) = event? k := by
    funext op
    cases event? k op <;> rfl
  unfold lastEvent?
  rw [List.filterMap_filter, hsame]

end Operation

/-- A number reads as down exactly if it names a key that is down. -/
theorem Keypad.isDown_iff {p : Keypad} {id : UInt8} :
    p.isDown id = true ↔ ∃ k : Key, k.val = id.toNat ∧ p.isDown k.toByte = true := by
  have hnames (k : Key) : k.val = id.toNat ↔ k.toByte = id := by
    rw [← UInt8.toNat_inj, Key.toNat_toByte]
  constructor
  · intro h
    have hid : id.toNat < 16 := by
      refine Nat.lt_of_not_le fun hle => ?_
      rw [p.isDown_of_le hle] at h
      cases h
    have hk := (hnames ⟨id.toNat, hid⟩).mp rfl
    exact ⟨⟨id.toNat, hid⟩, rfl, by rwa [hk]⟩
  · rintro ⟨k, hk, h⟩
    rwa [(hnames k).mp hk] at h

namespace Machine

theorem keypad_setKey (m : Machine) (k : Key) (down : Bool) :
    (m.setKey k down).keypad = m.keypad.set k down := by
  simp only [setKey]
  split <;> rfl

theorem isDown_setKey (m : Machine) (j k : Key) (down : Bool) :
    (m.setKey j down).keypad.isDown k.toByte =
      if j = k then down else m.keypad.isDown k.toByte := by
  rw [keypad_setKey, Keypad.isDown_set, Key.toNat_toByte]
  simp only [eq_comm, Fin.ext_iff]

theorem isDown_perform (m : Machine) (op : Operation) (k : Key) :
    (m.perform op).machine.keypad.isDown k.toByte =
      (op.event? k).getD (m.keypad.isDown k.toByte) := by
  cases op with
  | load p =>
    simp only [perform, load, Operation.event?]
    split
    case isTrue => exact Keypad.isDown_empty _
    case isFalse => rfl
  | loadFont glyphs =>
    simp only [perform, loadFont]
    split <;> rfl
  | loadBuiltinFont | tick => rfl
  | step => exact congrArg (Keypad.isDown · k.toByte) m.sharesControls_step.keypad_eq
  | run n => exact congrArg (Keypad.isDown · k.toByte) (m.sharesControls_run n).keypad_eq
  | setKey j down =>
    simp only [perform, isDown_setKey, Operation.event?]
    split <;> rfl
  | setKeyNumber id down =>
    simp only [perform, setKeyNumber, Operation.event?, ← Key.ofByte?_eq_some_iff]
    split
    case h_1 j hj =>
      simp only [isDown_setKey, hj, Option.some_inj]
      split <;> rfl
    case h_2 h => simp [h]
  | clearKeys => exact Keypad.isDown_empty _

/-- A key is as its last event left it, and as it was where no event was its own. -/
theorem isDown_after (m : Machine) (history : List Operation) (k : Key) :
    (m.after history).keypad.isDown k.toByte =
      (Operation.lastEvent? k history).getD (m.keypad.isDown k.toByte) := by
  induction history generalizing m with
  | nil => rfl
  | cons op rest ih =>
    have hrest := ih (m.perform op).machine
    rw [isDown_perform] at hrest
    rw [Operation.lastEvent?_cons]
    exact hrest

theorem keypad_of_create {s : Settings} {entropy : Generator} {m : Machine}
    (h : create s entropy = .ok m) : m.keypad = {} := by
  rw [(create_eq_ok_iff.mp h).2]
  rfl

/-- That the next step passes over the next word exactly if `P` holds, and does nothing else. -/
structure SkipsExactly (m : Machine) (P : Prop) : Prop where
  result_eq : m.step.result = .ok .proceed
  machine_of : P → m.step.machine = { m with pc := (m.pc + 4) % 4096 }
  machine_of_not : ¬ P → m.step.machine = { m with pc := (m.pc + 2) % 4096 }

theorem skipsExactly_of_skipIf {m : Machine} {c : Condition} (hs : m.status = .running)
    (hd : Instruction.decode? m.word = some (.skipIf c)) : m.SkipsExactly (m.holds c = true) := by
  have hholds : m.advance.holds c = m.holds c := by cases c <;> rfl
  have hstep := step_of_decode? hs hd
  have hmachine : m.step.machine =
      if m.holds c then { m.advance with pc := Memory.nextWord m.advance.pc } else m.advance := by
    rw [hstep, ← hholds]
    rfl
  constructor
  · rw [hstep]
    rfl
  · intro h
    have hpc : Memory.nextWord (Memory.nextWord m.pc) = (m.pc + 4) % 4096 := by
      unfold Memory.nextWord
      omega
    rw [hmachine, if_pos h, ← hpc]
    rfl
  · intro h
    rw [hmachine, if_neg h]
    rfl

/-- A key is down exactly if the last of its events is a press: its own presses and releases,
the release of all keys and loads that succeed. Nothing else in a history has a bearing on it. A
program skips by the switch of the key that a register names, and no number above fifteen names
one. -/
theorem keys_are_switches {s : Settings} {entropy : Generator} {blank : Machine}
    (hc : create s entropy = .ok blank) (history : List Operation) (m : Machine) :
    (∀ k : Key, ((blank.after history).keypad.isDown k.toByte = true ↔
        Operation.lastEvent? k history = some true) ∧
      (blank.after (history.filter fun op => (op.event? k).isSome)).keypad.isDown k.toByte =
        (blank.after history).keypad.isDown k.toByte) ∧
    (∀ x : UInt8, m.status = .running → x.toNat < 16 →
      (m.word.toNat = 0xE09E + 256 * x.toNat → m.SkipsExactly
        (∃ k : Key, k.val = (m.registers.get x).toNat ∧ m.keypad.isDown k.toByte = true)) ∧
      (m.word.toNat = 0xE0A1 + 256 * x.toNat → m.SkipsExactly
        (¬ ∃ k : Key, k.val = (m.registers.get x).toNat ∧ m.keypad.isDown k.toByte = true))) := by
  have hlast (h : List Operation) (k : Key) : (blank.after h).keypad.isDown k.toByte =
      (Operation.lastEvent? k h).getD false := by
    rw [isDown_after, keypad_of_create hc, Keypad.isDown_empty]
  constructor
  · intro k
    constructor
    · rw [hlast]
      cases Operation.lastEvent? k history with
      | none => simp
      | some down => simp
    · rw [hlast, hlast, Operation.lastEvent?_filter]
  · intro x hs hx
    rw [← Keypad.isDown_iff]
    constructor
    · intro hw
      have hd := (Instruction.decode?_of_key hx (by omega)).1 (show m.word.toNat % 256 = _ by omega)
      exact skipsExactly_of_skipIf hs hd
    · intro hw
      have hd := (Instruction.decode?_of_key hx (by omega)).2 (show m.word.toNat % 256 = _ by omega)
      have hup : m.holds (.keyUp x) = true ↔ ¬ m.keypad.isDown (m.registers.get x) = true := by
        rw [holds, Bool.not_eq_true', Bool.not_eq_true]
      rw [← hup]
      exact skipsExactly_of_skipIf hs hd

/-- A key that a load lets go, one that is pressed after it, and a number that names none. -/
theorem keys_are_switches_across_load : ∃ m, Reachable m ∧
    m.keypad.isDown (3 : Key).toByte = false ∧ m.keypad.isDown (10 : Key).toByte = true ∧
    m.step.machine = { m with pc := 0x206 } := by
  obtain ⟨blank, hc⟩ : ∃ blank, create {} (.ofSeed 0) = .ok blank := ⟨_, rfl⟩
  let history : List Operation := [.setKey 3 true, .load [0x60, 0x0A, 0xE0, 0x9E],
    .setKeyNumber 10 true, .setKeyNumber 250 false, .step]
  obtain ⟨hs, hw, hpc, hv⟩ : (blank.after history).status = .running ∧
      (blank.after history).word.toNat = 0xE09E + 256 * (0 : UInt8).toNat ∧
      (blank.after history).pc = 0x202 ∧
      (blank.after history).registers.get 0 = 10 := by
    obtain rfl := Except.ok.inj hc
    decide +kernel
  obtain ⟨hkeys, hskips⟩ := keys_are_switches hc history (blank.after history)
  have hup : ¬ (blank.after history).keypad.isDown (3 : Key).toByte = true :=
    mt (hkeys 3).1.mp (by decide)
  have hdown : (blank.after history).keypad.isDown (10 : Key).toByte = true :=
    (hkeys 10).1.mpr (by decide)
  have hskip := ((hskips 0 hs (by decide)).1 hw).machine_of ⟨10, by rw [hv]; rfl, hdown⟩
  rw [hpc] at hskip
  exact ⟨_, (Reachable.create hc).after history, eq_false_of_ne_true hup, hdown, hskip⟩

end Machine

end Chip8
