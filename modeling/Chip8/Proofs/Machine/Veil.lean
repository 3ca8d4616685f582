import Chip8.Proofs.Machine.Noninterference

/-!
Veils over parts of a machine that are read by instructions only, and by few of them. All else
goes on behind a veil as without it, so a veil need only be checked on those few instructions.
-/

namespace Chip8

/-- What a view makes of the settings, the index register, the timers and the random stream. -/
structure Veil where
  settings : Settings → Settings := id
  index : UInt16 → UInt16 := id
  delay : UInt8 → UInt8 := id
  sound : UInt8 → UInt8 := id
  generator : Generator → Generator := id

/-- Whether an instruction does without all that a veil may cover. -/
def Instruction.IsPlain : Instruction → Prop
  | .clearScreen | .ret | .jump _ | .call _ | .skipIf _ | .loadByte .. | .addByte .. | .combine ..
  | .shift .. | .awaitKey _ => True
  | _ => False

/-- A timer after a tick. -/
def countedDown (timer : UInt8) : UInt8 :=
  if timer = 0 then 0 else timer - 1

theorem Machine.tick_eq (m : Machine) :
    m.tick = { m with delay := countedDown m.delay, sound := countedDown m.sound } := rfl

namespace Veil

def apply (v : Veil) (m : Machine) : Machine :=
  { m with
    settings := v.settings m.settings
    index := v.index m.index
    delay := v.delay m.delay
    sound := v.sound m.sound
    generator := v.generator m.generator }

/-- That a second look through a veil shows no less than the first, also where the timers have
counted down in between. -/
structure Lawful (v : Veil) : Prop where
  settings s : v.settings (v.settings s) = v.settings s
  index a : v.index (v.index a) = v.index a
  delay d : v.delay (v.delay d) = v.delay d
  sound d : v.sound (v.sound d) = v.sound d
  generator g : v.generator (v.generator g) = v.generator g
  delay_tick d : v.delay (countedDown (v.delay d)) = v.delay (countedDown d)
  sound_tick d : v.sound (countedDown (v.sound d)) = v.sound (countedDown d)

variable {v : Veil} {m m' : Machine} {i : Instruction} {op : Operation}

@[simp]
theorem status_apply (m : Machine) : (v.apply m).status = m.status := rfl

@[simp]
theorem pc_apply (m : Machine) : (v.apply m).pc = m.pc := rfl

@[simp]
theorem stack_apply (m : Machine) : (v.apply m).stack = m.stack := rfl

theorem Lawful.apply_apply (hv : v.Lawful) (m : Machine) : v.apply (v.apply m) = v.apply m := by
  simp only [apply, hv.settings, hv.index, hv.delay, hv.sound, hv.generator]

theorem Lawful.view_apply {α : Type} (hv : v.Lawful) (m : Machine) (r : Except Failure α)
    (l : Array Event) :
    (⟨v.apply m, r, l⟩ : Outcome α).view v.apply = (⟨m, r, l⟩ : Outcome α).view v.apply :=
  Outcome.view_eq_iff.mpr ⟨hv.apply_apply m, rfl, rfl⟩

theorem execute_of_isPlain (hi : i.IsPlain) (m : Machine) (a : Nat) :
    (v.apply m).execute a i = (v.apply (m.execute a i).1, (m.execute a i).2) := by
  cases i with
  | ret =>
    simp only [Machine.execute, stack_apply]
    cases m.stack.pop? <;> rfl
  | call t =>
    simp only [Machine.execute, stack_apply, pc_apply]
    cases m.stack.push? (UInt16.ofNat m.pc) <;> rfl
  | skipIf c =>
    have hc : (v.apply m).holds c = m.holds c := by cases c <;> rfl
    simp only [Machine.execute, hc]
    split <;> rfl
  | combine f x y => cases f <;> rfl
  | clearScreen | jump | loadByte | addByte | shift | awaitKey => rfl
  | _ => cases hi

/-- That a veil does not change what an instruction reports, nor what it leaves to be seen. -/
def Covers (v : Veil) (m : Machine) (a : Nat) (i : Instruction) : Prop :=
  v.apply ((v.apply m).execute a i).1 = v.apply (m.execute a i).1 ∧
    ((v.apply m).execute a i).2 = (m.execute a i).2

theorem Lawful.covers_of_eq (hv : v.Lawful) {a : Nat}
    (h : (v.apply m).execute a i = (v.apply (m.execute a i).1, (m.execute a i).2)) :
    v.Covers m a i := by
  constructor
  · rw [h]
    exact hv.apply_apply _
  · rw [h]

theorem Lawful.covers_of_isPlain (hv : v.Lawful) (hi : i.IsPlain) (m : Machine) (a : Nat) :
    v.Covers m a i :=
  hv.covers_of_eq (execute_of_isPlain hi m a)

theorem Lawful.step (hv : v.Lawful) (hi : ∀ i, m.next? = some i → v.Covers m.advance m.pc i) :
    (v.apply m).step.view v.apply = m.step.view v.apply := by
  cases hs : m.status with
  | waiting x =>
    have hs' : (v.apply m).status = .waiting x := hs
    rw [Machine.step_of_waiting hs, Machine.step_of_waiting hs', hv.view_apply]
  | halted =>
    have hs' : (v.apply m).status = .halted := hs
    rw [Machine.step_of_halted hs, Machine.step_of_halted hs', hv.view_apply]
  | running =>
    have hs' : (v.apply m).status = .running := hs
    cases hd : Instruction.decode? m.word with
    | none =>
      have hd' : Instruction.decode? (v.apply m).word = none := hd
      rw [Machine.step_of_unknown hs hd, Machine.step_of_unknown hs' hd']
      exact hv.view_apply (m.advance.halt (.unknownInstruction m.word)).1 _ _
    | some i =>
      have hd' : Instruction.decode? (v.apply m).word = some i := hd
      obtain ⟨hm, hr⟩ := hi i ((Machine.next?_of_running hs).trans hd)
      rw [Machine.step_of_decode? hs hd, Machine.step_of_decode? hs' hd']
      exact Outcome.view_eq_iff.mpr ⟨hm, hr, congrArg (Machine.executionLog m.pc m.word i) hr⟩

theorem Lawful.load (hv : v.Lawful) (m : Machine) (p : List UInt8) :
    ((v.apply m).load p).view v.apply = (m.load p).view v.apply := by
  unfold Machine.load
  split
  case isTrue =>
    refine Outcome.view_eq_iff.mpr ⟨?_, rfl, rfl⟩
    simp only [apply, Machine.loadBuiltinFont, Machine.setFont, Machine.clear, hv.settings,
      hv.generator]
  case isFalse => exact hv.view_apply m _ _

theorem setFont_apply (m : Machine) (glyphs : List UInt8) :
    (v.apply m).setFont glyphs = v.apply (m.setFont glyphs) := rfl

theorem Lawful.loadFont (hv : v.Lawful) (m : Machine) (glyphs : List UInt8) :
    ((v.apply m).loadFont glyphs).view v.apply = (m.loadFont glyphs).view v.apply := by
  unfold Machine.loadFont
  split
  case isTrue => rw [setFont_apply, hv.view_apply]
  case isFalse => exact hv.view_apply m _ _

theorem setKey_apply (m : Machine) (k : Key) (down : Bool) :
    (v.apply m).setKey k down = v.apply (m.setKey k down) := by
  simp only [Machine.setKey, status_apply]
  split <;> rfl

theorem setKeyNumber_apply (m : Machine) (id : UInt8) (down : Bool) :
    (v.apply m).setKeyNumber id down = v.apply (m.setKeyNumber id down) := by
  unfold Machine.setKeyNumber
  split
  case h_1 k _ => exact setKey_apply m k down
  case h_2 => rfl

theorem Lawful.tick (hv : v.Lawful) (m : Machine) :
    v.apply (v.apply m).tick = v.apply m.tick := by
  simp only [apply, Machine.tick_eq, hv.settings, hv.index, hv.generator, hv.delay_tick,
    hv.sound_tick]

theorem Lawful.perform (hv : v.Lawful) (hn : ∀ n, op ≠ .run n)
    (hi : op = .step → ∀ i, m.next? = some i → v.Covers m.advance m.pc i) :
    ((v.apply m).perform op).view v.apply = (m.perform op).view v.apply := by
  cases op with
  | load p => exact Outcome.view_map _ (hv.load m p)
  | loadFont glyphs => exact Outcome.view_map _ (hv.loadFont m glyphs)
  | loadBuiltinFont =>
    simp only [Machine.perform, Machine.loadBuiltinFont, setFont_apply, hv.view_apply]
  | step => exact Outcome.view_map some (hv.step (hi rfl))
  | run n => exact absurd rfl (hn n)
  | setKey k down => simp only [Machine.perform, setKey_apply, hv.view_apply]
  | setKeyNumber id down => simp only [Machine.perform, setKeyNumber_apply, hv.view_apply]
  | clearKeys => exact hv.view_apply m.clearKeys _ _
  | tick => exact Outcome.view_eq_iff.mpr ⟨hv.tick m, rfl, rfl⟩

/-- Where a veil covers the instructions that are executed, what is behind it does not interfere. -/
theorem Lawful.noninterference {Safe : Machine → Prop} (hv : v.Lawful)
    (hsafe : ∀ {m m'}, v.apply m = v.apply m' → Safe m → Safe m')
    (hi : ∀ {m i}, Safe m → m.next? = some i → v.Covers m.advance m.pc i) :
    Machine.Noninterference v.apply Safe where
  safe := hsafe
  perform {m m'} op hn hs h := by
    have hm := hv.perform hn fun ho i => hi (m := m) (hs ho)
    have hm' := hv.perform hn fun ho i => hi (m := m') (hsafe h (hs ho))
    rw [← hm, h, hm']

end Veil

end Chip8
