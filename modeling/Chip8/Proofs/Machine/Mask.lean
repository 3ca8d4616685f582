import Chip8.Proofs.Machine.Veil

/-!
Masks over the timers, the random stream and the instruction rate of a machine. Only an instruction
that reads a masked part lets it show.
-/

namespace Chip8

/-- Values that take the place of parts of a machine; none leaves a part as it is. -/
structure Mask where
  delay : Option UInt8 := none
  sound : Option UInt8 := none
  generator : Option Generator := none
  frequency : Option (Option Nat) := none

namespace Mask

def apply (k : Mask) (m : Machine) : Machine :=
  { m with
    settings := { m.settings with frequency := k.frequency.getD m.settings.frequency }
    delay := k.delay.getD m.delay
    sound := k.sound.getD m.sound
    generator := k.generator.getD m.generator }

/-- Whether an instruction reads a part that the mask covers. -/
def Reveals (k : Mask) : Instruction → Prop
  | .readDelay _ => k.delay ≠ none
  | .random .. => k.generator ≠ none
  | _ => False

variable (k : Mask) {m m' : Machine} {i : Instruction}

theorem reveals_iff (hd : k.delay ≠ none) (hg : k.generator = none) :
    k.Reveals i ↔ ∃ x, i = .readDelay x := by
  cases i <;> simp [Reveals, hd, hg]

private theorem getD_getD {α : Type} (o : Option α) (a : α) : o.getD (o.getD a) = o.getD a := by
  cases o <;> rfl

/-- A mask as a veil that shows the values in place of the parts. -/
def veil : Veil where
  settings s := { s with frequency := k.frequency.getD s.frequency }
  delay d := k.delay.getD d
  sound d := k.sound.getD d
  generator g := k.generator.getD g

theorem apply_veil (m : Machine) : k.veil.apply m = k.apply m := rfl

private theorem getD_countedDown (o : Option UInt8) (d : UInt8) :
    o.getD (countedDown (o.getD d)) = o.getD (countedDown d) := by
  cases o <;> rfl

theorem lawful_veil : k.veil.Lawful where
  settings s := by simp only [veil, getD_getD]
  index _ := rfl
  delay d := getD_getD k.delay d
  sound d := getD_getD k.sound d
  generator g := getD_getD k.generator g
  delay_tick d := getD_countedDown k.delay d
  sound_tick d := getD_countedDown k.sound d

@[simp]
theorem apply_apply (m : Machine) : k.apply (k.apply m) = k.apply m :=
  k.lawful_veil.apply_apply m

@[simp]
theorem screen_apply (m : Machine) : (k.apply m).screen = m.screen := rfl

/-- Behind a mask an instruction that reveals nothing has its usual effect and result. -/
theorem covers_veil (hi : ¬ k.Reveals i) (m : Machine) (a : Nat) : k.veil.Covers m a i := by
  cases i with
  | setDelay x | setSound x =>
    simp only [Veil.Covers, Machine.execute, apply_veil, apply, getD_getD, and_self]
  | readDelay x =>
    have hd : k.delay = none := Decidable.not_not.mp hi
    simp only [Veil.Covers, Machine.execute, apply_veil, apply, hd, getD_getD, Option.getD_none,
      and_self]
  | random x n =>
    have hg : k.generator = none := Option.not_isSome_iff_eq_none.mp
      fun h => hi (Option.isSome_iff_ne_none.mp h)
    simp only [Veil.Covers, Machine.execute, apply_veil, apply, hg, getD_getD, Option.getD_none,
      and_self]
  | loadIndex | addToIndex | pointAtGlyph | draw | storeDecimal | storeRegisters | loadRegisters =>
    apply k.lawful_veil.covers_of_eq
    simp only [Machine.execute]
    rfl
  | _ =>
    apply k.lawful_veil.covers_of_isPlain
    trivial

theorem step_apply (hi : ∀ i, m.next? = some i → ¬ k.Reveals i) :
    (k.apply m).step.view k.apply = m.step.view k.apply :=
  k.lawful_veil.step fun i h => k.covers_veil (hi i h) m.advance m.pc

/-- What a mask covers does not interfere, as long as no instruction reveals it. -/
theorem noninterference :
    Machine.Noninterference k.apply fun m => ∀ i, m.next? = some i → ¬ k.Reveals i := by
  have hsafe {m m' : Machine} (h : k.apply m = k.apply m')
      (hi : ∀ i, m.next? = some i → ¬ k.Reveals i) : ∀ i, m'.next? = some i → ¬ k.Reveals i := by
    have hnext : m'.next? = m.next? :=
      calc
        m'.next? = (k.apply m').next? := rfl
        _ = (k.apply m).next? := by rw [h]
        _ = m.next? := rfl
    rwa [hnext]
  exact k.lawful_veil.noninterference hsafe fun hs h => k.covers_veil (hs _ h) _ _

theorem load_congr (p : List UInt8) (h : k.apply m = k.apply m') :
    k.apply (m.load p).machine = k.apply (m'.load p).machine :=
  k.noninterference.machine (.load p) nofun nofun h

theorem outcomes_congr (history : List Operation) (hi : ∀ i ∈ m.executed history, ¬ k.Reveals i)
    (h : k.apply m = k.apply m') : (m.outcomes history).map (Outcome.view k.apply) =
      (m'.outcomes history).map (Outcome.view k.apply) :=
  k.noninterference.outcomes history (Machine.stepsFrom_iff.mpr hi) h

end Mask

end Chip8
