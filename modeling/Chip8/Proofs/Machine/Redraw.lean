import Chip8.Proofs.Machine.Placements
import Chip8.Proofs.Screen.Cancellation

/-!
Draws over again. A draw changes no register but the flag, so where it names any other two the next
one draws the same sprite in the same place and takes it away.
-/

namespace Chip8.Machine

variable {m : Machine} {x y n : UInt8}

/-- The sprite that a draw instruction draws. -/
def sprite (m : Machine) (x y n : UInt8) : Stamp where
  placement := m.settings.placement
  x := (m.registers.get x).toNat
  y := (m.registers.get y).toNat
  rows := m.memory.fetch m.index.toNat n.toNat

theorem sprite_drawn (r : Screen × Bool) (hx : x.toNat < 15) (hy : y.toNat < 15) :
    (m.drawn r).sprite x y n = m.sprite x y n := by
  unfold sprite drawn
  simp only [Registers.get_set_flag hx, Registers.get_set_flag hy]

theorem step_of_draw (hs : m.status = .running)
    (hd : Instruction.decode? m.word = some (.draw x y n)) :
    m.step.machine = m.advance.drawn (m.screen.stamp (m.sprite x y n)) ∧
      m.step.result = .ok .draw := by
  rw [step_of_decode? hs hd]
  exact ⟨rfl, rfl⟩

theorem word_advance (m : Machine) :
    m.advance.word = Word.ofBytes (m.memory.read (m.pc + 2)) (m.memory.read (m.pc + 3)) := by
  have hhigh : m.memory.read (Memory.nextWord m.pc) = m.memory.read (m.pc + 2) :=
    m.memory.read_mod _
  have hlow : m.memory.read (Memory.nextWord m.pc + 1) = m.memory.read (m.pc + 3) := by
    apply Memory.read_congr
    unfold Memory.nextWord
    omega
  change Word.ofBytes (m.memory.read (Memory.nextWord m.pc))
    (m.memory.read (Memory.nextWord m.pc + 1)) = _
  rw [hhigh, hlow]

/-- The second of two equal draws restores the screen. -/
theorem screen_redrawn (hs : m.status = .running) (hx : x.toNat < 15) (hy : y.toNat < 15)
    (hd : Instruction.decode? m.word = some (.draw x y n)) (hw : m.advance.word = m.word) :
    m.step.result = .ok .draw ∧ m.step.machine.step.result = .ok .draw ∧
      m.step.machine.step.machine.screen = m.screen := by
  obtain ⟨hfirst, hr⟩ := step_of_draw hs hd
  have hs' : m.step.machine.status = .running := by rw [hfirst]; exact hs
  have hword : m.step.machine.word = m.word := by rw [hfirst]; exact hw
  have hsprite : m.step.machine.sprite x y n = m.sprite x y n := by
    rw [hfirst]
    exact sprite_drawn _ hx hy
  obtain ⟨hsecond, hr'⟩ := step_of_draw hs' (by rwa [hword])
  refine ⟨hr, hr', ?_⟩
  calc
    m.step.machine.step.machine.screen
        = (m.step.machine.screen.stamp (m.sprite x y n)).1 := by rw [hsecond, hsprite]; rfl
    _ = ((m.screen.stamp (m.sprite x y n)).1.stamp (m.sprite x y n)).1 := by rw [hfirst]; rfl
    _ = m.screen := Screen.stamp_stamp _ _

/-- The order in which sprites are drawn does not matter. A sprite drawn twice leaves the screen as
it was, and one of the two draws erases a pixel exactly where a set bit of the sprite goes to the
screen at all. A program does so by the same draw in two consecutive words, as long as neither of
the registers is the flag. -/
theorem draws_commute_and_cancel (s : Screen) (m : Machine) :
    (∀ ts us : List Stamp, ts.Perm us → s.stampAll ts = s.stampAll us) ∧
    (∀ t : Stamp, ((s.stamp t).1.stamp t).1 = s ∧
      ((s.stamp t).2 = true ∨ ((s.stamp t).1.stamp t).2 = true ↔
        ∃ r < t.rows.length, ∃ c < 8, (t.rows.getD r 0).toNat.testBit (7 - c) = true ∧
          ∃ d, s.Lands t.placement (t.x + c) (t.y + r) d)) ∧
    (∀ x y n : UInt8, m.status = .running → x.toNat < 15 → y.toNat < 15 → n.toNat < 16 →
      m.word.toNat = 0xD000 + 256 * x.toNat + 16 * y.toNat + n.toNat →
      Word.ofBytes (m.memory.read (m.pc + 2)) (m.memory.read (m.pc + 3)) = m.word →
      m.step.result = .ok .draw ∧ m.step.machine.step.result = .ok .draw ∧
        m.step.machine.step.machine.screen = m.screen) := by
  constructor
  · intro ts us h
    exact Screen.stampAll_perm h s
  constructor
  · intro t
    refine ⟨s.stamp_stamp t, Screen.erased_stamp_stamp_iff.trans ?_⟩
    simp only [Screen.stampHits, Screen.one_le_hits_iff]
    constructor
    · rintro ⟨d, r, hr, c, hc, hbit, hlands⟩
      exact ⟨r, hr, c, hc, hbit, d, hlands⟩
    · rintro ⟨r, hr, c, hc, hbit, d, hlands⟩
      exact ⟨d, r, hr, c, hc, hbit, hlands⟩
  · intro x y n hs hx hy hn hw hnext
    have hd : Instruction.decode? m.word = some (.draw x y n) :=
      Instruction.decode?_eq_draw_iff.mpr ⟨by omega, by omega, hn, hw⟩
    exact screen_redrawn hs hx hy hd (m.word_advance.trans hnext)

/-- Sprites that overlap each other and themselves on a screen three pixels wide, and a program that
draws a digit twice there. -/
theorem draws_commute_and_cancel_on_three_columns :
    (Screen.dark 3 2).stampAll [⟨.wrap, 1, 1, [0xFF]⟩, ⟨.linear, 2, 0, [0xC0]⟩] =
      (Screen.dark 3 2).stampAll [⟨.linear, 2, 0, [0xC0]⟩, ⟨.wrap, 1, 1, [0xFF]⟩] ∧
    ∃ m, Reachable m ∧ m.status = .running ∧ m.step.machine.screen.isLit 0 = true ∧
      m.step.machine.step.machine.screen = m.screen := by
  have hb := @Reachable.create { width := 3, height := 2 } (.ofSeed 0) _ rfl
  obtain ⟨m, hm, hs, hw, hnext, hlit⟩ : ∃ m, Reachable m ∧ m.status = .running ∧
      m.word.toNat = 0xD000 + 256 * 0 + 16 * 1 + 1 ∧
      Word.ofBytes (m.memory.read (m.pc + 2)) (m.memory.read (m.pc + 3)) = m.word ∧
      m.step.machine.screen.isLit 0 = true :=
    ⟨_, hb.after [.load [0xD0, 0x11, 0xD0, 0x11]], by decide +kernel⟩
  obtain ⟨hcommute, -, hcancel⟩ := draws_commute_and_cancel (.dark 3 2) m
  obtain ⟨-, -, hscreen⟩ :=
    hcancel 0 1 1 hs (by decide) (by decide) (by decide) hw hnext
  exact ⟨hcommute _ _ (List.Perm.swap _ _ _), m, hm, hs, hlit, hscreen⟩

end Chip8.Machine
