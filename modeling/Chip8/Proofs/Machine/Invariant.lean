import Chip8.Proofs.Machine.History

/-!
The invariant of machines: addresses stay below the end of memory, the stack within its capacity,
a fault goes with a halt and the screen keeps the size that the settings give.
-/

namespace Chip8

theorem Memory.nextWord_le (a : Nat) : nextWord a ≤ 0xFFF := by
  unfold nextWord
  omega

@[simp]
theorem Screen.width_blit (s : Screen) (p : Placement) (x y : Nat) (rows : List UInt8) :
    (s.blit p x y rows).1.width = s.width :=
  s.width_toggleAll _

@[simp]
theorem Screen.height_blit (s : Screen) (p : Placement) (x y : Nat) (rows : List UInt8) :
    (s.blit p x y rows).1.height = s.height :=
  s.height_toggleAll _

namespace Machine

/-- What holds of a machine with given settings at all times. -/
structure Invariant (s : Settings) (m : Machine) : Prop where
  settings_eq : m.settings = s
  pc_le : m.pc ≤ 0xFFF
  depth_le : m.stack.depth ≤ CallStack.capacity
  frames_le : ∀ a ∈ m.stack.frames, a.toNat ≤ 0xFFF
  waiting_lt : ∀ x, m.status = .waiting x → x.toNat < 16
  isSome_fault_iff : m.fault.isSome = true ↔ m.status = .halted
  isFatal_fault : ∀ e, m.fault = some e → e.isFatal = true
  width_eq : m.screen.width = s.width
  height_eq : m.screen.height = s.height

namespace Invariant

variable {s : Settings} {m : Machine} {i : Instruction} {e : Failure}

private theorem programStart_le : Memory.programStart ≤ 0xFFF := by
  decide

theorem setFont (h : m.Invariant s) (glyphs : List UInt8) : (m.setFont glyphs).Invariant s :=
  { h with }

theorem create {entropy : Generator} (h : create s entropy = .ok m) : m.Invariant s := by
  obtain ⟨-, rfl⟩ := create_eq_ok_iff.mp h
  refine setFont ?_ _
  exact {
    settings_eq := rfl
    pc_le := programStart_le
    depth_le := Nat.zero_le _
    frames_le := nofun
    waiting_lt := nofun
    isSome_fault_iff := ⟨nofun, nofun⟩
    isFatal_fault := nofun
    width_eq := rfl
    height_eq := rfl }

theorem clear (h : m.Invariant s) : m.clear.Invariant s :=
  { h with
    pc_le := programStart_le
    depth_le := Nat.zero_le _
    frames_le := nofun }

private theorem restart (h : m.Invariant s) (memory : Memory) :
    { m with memory, status := .running, fault := none : Machine }.Invariant s :=
  { h with
    waiting_lt := nofun
    isSome_fault_iff := ⟨nofun, nofun⟩
    isFatal_fault := nofun }

theorem load (h : m.Invariant s) (p : List UInt8) : (m.load p).machine.Invariant s := by
  unfold Machine.load
  split
  case isTrue => exact (h.clear.setFont Font.builtin).restart _
  case isFalse => exact h

theorem loadFont (h : m.Invariant s) (glyphs : List UInt8) :
    (m.loadFont glyphs).machine.Invariant s := by
  unfold Machine.loadFont
  split
  case isTrue => exact h.setFont glyphs
  case isFalse => exact h

theorem setKey (h : m.Invariant s) (k : Key) (down : Bool) : (m.setKey k down).Invariant s := by
  unfold Machine.setKey
  dsimp only
  split
  case h_1 x hs =>
    have hf := h.isSome_fault_iff
    rw [hs] at hf
    exact { h with
      waiting_lt := nofun
      isSome_fault_iff := ⟨fun hs => (nomatch hf.mp hs), nofun⟩ }
  case h_2 => exact { h with }

theorem setKeyNumber (h : m.Invariant s) (id : UInt8) (down : Bool) :
    (m.setKeyNumber id down).Invariant s := by
  unfold Machine.setKeyNumber
  split
  case h_1 k _ => exact h.setKey k down
  case h_2 => exact h

theorem halt (h : m.Invariant s) (he : e.isFatal = true) : (m.halt e).1.Invariant s :=
  { h with
    waiting_lt := nofun
    isSome_fault_iff := ⟨fun _ => rfl, fun _ => rfl⟩
    isFatal_fault := fun _ hf => Option.some.inj hf ▸ he }

theorem advance (h : m.Invariant s) : m.advance.Invariant s :=
  { h with pc_le := Memory.nextWord_le m.pc }

/-- The program counter of a machine in range survives the cast to a return address. -/
theorem toNat_ofNat_pc (h : m.Invariant s) : (UInt16.ofNat m.pc).toNat = m.pc := by
  have hp := h.pc_le
  rw [UInt16.toNat_ofNat']
  omega

-- A return jumps to an address that a call has put by, and a call puts by an address in range:
-- the bounds of program counter and stack carry each other.

private theorem ret (h : m.Invariant s) {a : UInt16} {rest : CallStack}
    (hp : m.stack.pop? = some (a, rest)) :
    { m with stack := rest, pc := a.toNat : Machine }.Invariant s := by
  have hf : m.stack.frames = a :: rest.frames := CallStack.frames_of_pop? h.depth_le hp
  have hd : m.stack.depth = rest.depth + 1 := CallStack.depth_of_pop? hp
  have hc := h.depth_le
  have ha : a ∈ m.stack.frames := by rw [hf]; exact .head _
  have hrest : ∀ b ∈ rest.frames, b ∈ m.stack.frames := fun b hb => by
    rw [hf]
    exact .tail _ hb
  exact { h with
    pc_le := h.frames_le a ha
    depth_le := by dsimp only; omega
    frames_le := fun b hb => h.frames_le b (hrest b hb) }

private theorem call (h : m.Invariant s) {a : UInt16} (ha : a.toNat < 4096) {stack : CallStack}
    (hp : m.stack.push? (UInt16.ofNat m.pc) = some stack) :
    { m with stack, pc := a.toNat : Machine }.Invariant s := by
  have hf : stack.frames = UInt16.ofNat m.pc :: m.stack.frames := CallStack.frames_of_push? hp
  obtain ⟨hd, hs⟩ := CallStack.depth_of_push? hp
  exact { h with
    pc_le := Nat.le_of_lt_succ ha
    depth_le := by dsimp only; omega
    frames_le := by
      intro b hb
      rw [hf] at hb
      rcases List.mem_cons.mp hb with rfl | hb
      · rw [h.toNat_ofNat_pc]
        exact h.pc_le
      · exact h.frames_le b hb }

private theorem awaitKey (h : m.Invariant s) (hs : m.status = .running) {x : UInt8}
    (hx : x.toNat < 16) : { m with status := .waiting x : Machine }.Invariant s := by
  have hf := h.isSome_fault_iff
  rw [hs] at hf
  exact { h with
    waiting_lt := fun y hy => Status.waiting.inj hy ▸ hx
    isSome_fault_iff := ⟨fun hs => (nomatch hf.mp hs), nofun⟩ }

theorem execute (h : m.Invariant s) (hs : m.status = .running) (hi : i.InRange) (a : Nat) :
    (m.execute a i).1.Invariant s := by
  cases hr : (m.execute a i).2 with
  | error e =>
    rw [execute_of_error hr]
    exact h.halt (isFatal_of_execute hr)
  | ok signal =>
    cases i with
    | ret =>
      obtain ⟨b, rest, hp, hx⟩ := execute_ret_of_ok hr
      rw [hx]
      exact h.ret hp
    | jump b =>
      have hb : b.toNat < 4096 := hi.address b (.inl rfl)
      exact { h with pc_le := Nat.le_of_lt_succ hb }
    | call b =>
      have hb : b.toNat < 4096 := hi.address b (.inr (.inl rfl))
      obtain ⟨stack, hp, hx⟩ := execute_call_of_ok hr
      rw [hx]
      exact h.call hb hp
    | skipIf c =>
      simp only [Machine.execute]
      split
      case isTrue => exact { h with pc_le := Memory.nextWord_le m.pc }
      case isFalse => exact h
    | combine f x y => cases f <;> exact { h with }
    | draw x y n =>
      exact { h with
        width_eq := (Screen.width_blit ..).trans h.width_eq
        height_eq := (Screen.height_blit ..).trans h.height_eq }
    | awaitKey x =>
      have hx : x.toNat < 16 := hi.register x (by simp [Instruction.registers])
      exact h.awaitKey hs hx
    | _ =>
      dsimp only [Machine.execute]
      exact { h with }

theorem step (h : m.Invariant s) : m.step.machine.Invariant s := by
  cases m.stepped with
  | idle _ hm _ => rwa [hm]
  | fault e _ he hm _ =>
    rw [hm]
    exact h.advance.halt he
  | complete i signal hs hd hx _ =>
    have hi := h.advance.execute hs (Instruction.inRange_of_decode? hd) m.pc
    rwa [hx] at hi

theorem perform (h : m.Invariant s) (op : Operation) : (m.perform op).machine.Invariant s := by
  cases op with
  | load p => exact h.load p
  | loadFont glyphs => exact h.loadFont glyphs
  | loadBuiltinFont => exact h.setFont Font.builtin
  | step => exact h.step
  | run n =>
    change (m.run n).machine.Invariant s
    rw [machine_run]
    induction n generalizing m with
    | zero => exact h
    | succ n ih => exact ih h.step
  | setKey k down => exact h.setKey k down
  | setKeyNumber id down => exact h.setKeyNumber id down
  | clearKeys => exact { h with }
  | tick => exact { h with }

theorem after (h : m.Invariant s) (history : List Operation) : (m.after history).Invariant s :=
  after_induction (fun _ op h => h.perform op) h history

end Invariant

variable {m : Machine}

theorem Reachable.invariant (h : Reachable m) : m.Invariant m.settings := by
  induction h with
  | create h =>
    have hi := Invariant.create h
    rwa [hi.settings_eq]
  | perform op _ ih =>
    have hi := ih.perform op
    rwa [hi.settings_eq]

/-- Every history keeps the invariant, whatever requests are refused and whatever faults occur. The
screen then has all its pixels, and the casts of the program counter into return addresses and
faults lose nothing. -/
theorem invariant_of_history {s : Settings} {entropy : Generator} {blank : Machine}
    (hc : create s entropy = .ok blank) (history : List Operation) :
    (blank.after history).Invariant s ∧
      (blank.after history).screen.pixels.toList.length = s.width * s.height ∧
      (UInt16.ofNat (blank.after history).pc).toNat = (blank.after history).pc ∧
      (UInt16.ofNat (blank.after history).advance.pc).toNat = (blank.after history).advance.pc := by
  have h : (blank.after history).Invariant s := (Invariant.create hc).after history
  refine ⟨h, ?_, h.toNat_ofNat_pc, h.advance.toNat_ofNat_pc⟩
  rw [Vector.length_toList, h.width_eq, h.height_eq]

/-- A program that calls itself until the stack is full. -/
theorem invariant_of_endless_calls : ∃ blank,
    create {} (.ofSeed 0) = .ok blank ∧
      (blank.after [.load [0x22, 0x00], .run 17, .tick, .loadFont []]).Invariant {} :=
  ⟨_, rfl, (invariant_of_history rfl _).1⟩

end Machine

end Chip8
