import Chip8.Proofs.Machine.Redraw
import Chip8.Proofs.Screen.Separation

/-!
Draws end to end. The sprite is fetched from the index on, around the end of memory, and goes where
two registers say, the flag among them. On a screen with room for it the draw inverts the pixels of
its bits, and the flag tells whether the picture has lost one.
-/

namespace Chip8.Machine

variable {m : Machine} {x y n : UInt8} {a b : Nat}

/-- That a set bit of the sprite which a draw instruction draws goes to column `a` of row `b`: bit
`7 - c` of row `r` is the pixel `c` to the right of the corner and `r` below it. -/
def DrawsAt (m : Machine) (x y n : UInt8) (a b : Nat) : Prop :=
  ∃ r < n.toNat, ∃ c < 8,
    (m.memory.read ((m.index.toNat + r) % 4096)).toNat.testBit (7 - c) = true ∧
      m.screen.GoesTo m.settings.placement ((m.registers.get x).toNat + c)
        ((m.registers.get y).toNat + r) a b

theorem drawsAt_iff : m.DrawsAt x y n a b ↔ ∃ r < (m.sprite x y n).rows.length, ∃ c < 8,
    ((m.sprite x y n).rows.getD r 0).toNat.testBit (7 - c) = true ∧
      m.screen.GoesTo (m.sprite x y n).placement ((m.sprite x y n).x + c) ((m.sprite x y n).y + r)
        a b := by
  have hlength : (m.sprite x y n).rows.length = n.toNat := Memory.length_fetch ..
  have hrow : ∀ r < n.toNat,
      (m.sprite x y n).rows.getD r 0 = m.memory.read ((m.index.toNat + r) % 4096) := by
    intro r hr
    rw [Memory.read_mod]
    exact m.memory.getD_fetch _ hr
  rw [hlength]
  constructor
  · rintro ⟨r, hr, c, hc, hbit, hgoes⟩
    exact ⟨r, hr, c, hc, by rwa [hrow r hr], hgoes⟩
  · rintro ⟨r, hr, c, hc, hbit, hgoes⟩
    exact ⟨r, hr, c, hc, by rwa [← hrow r hr], hgoes⟩

/-- That the next step inverts the pixels of a sprite, sets the flag if and only if a pixel that was
lit is dark afterwards, and does nothing else. -/
structure DrawsSprite (m : Machine) (x y n : UInt8) : Prop where
  result_eq : m.step.result = .ok .draw
  machine_eq : m.step.machine =
    { m with
      pc := (m.pc + 2) % 4096
      screen := m.step.machine.screen
      registers := m.step.machine.registers }
  width_eq : m.step.machine.screen.width = m.screen.width
  height_eq : m.step.machine.screen.height = m.screen.height
  get_ne_iff : ∀ a < m.screen.width, ∀ b < m.screen.height,
    (m.step.machine.screen.get a b ≠ m.screen.get a b ↔ m.DrawsAt x y n a b)
  flag_of_loses : m.screen.LosesPixel m.step.machine.screen →
    m.step.machine.registers.get 15 = 1
  flag_of_not_loses : ¬ m.screen.LosesPixel m.step.machine.screen →
    m.step.machine.registers.get 15 = 0
  get_eq : ∀ z : UInt8, z.toNat < 15 → m.step.machine.registers.get z = m.registers.get z

/-- A draw at any position, from any address and by any registers, on a screen that is at least
eight pixels wide and, where pixels wrap, as high as the sprite. -/
theorem draws_sprite (hs : m.status = .running) (hx : x.toNat < 16) (hy : y.toNat < 16)
    (hn : n.toNat < 16)
    (hw : m.word.toNat = 0xD000 + 256 * x.toNat + 16 * y.toNat + n.toNat)
    (hroom : m.screen.HasRoom m.settings.placement n.toNat) : m.DrawsSprite x y n := by
  have hd : Instruction.decode? m.word = some (.draw x y n) :=
    Instruction.decode?_eq_draw_iff.mpr ⟨hx, hy, hn, hw⟩
  obtain ⟨hm, hr⟩ := step_of_draw hs hd
  have hscreen : m.step.machine.screen = (m.screen.stamp (m.sprite x y n)).1 := by
    rw [hm]
    rfl
  have hregisters : m.step.machine.registers = m.registers.set Registers.flag
      (if (m.screen.stamp (m.sprite x y n)).2 then 1 else 0) := by
    rw [hm]
    rfl
  have hflag : m.step.machine.registers.get 15 =
      if (m.screen.stamp (m.sprite x y n)).2 then 1 else 0 := by
    rw [hregisters]
    exact Registers.get_set_self ..
  have hlength : (m.sprite x y n).rows.length = n.toNat := Memory.length_fetch ..
  have hroom : m.screen.HasRoom (m.sprite x y n).placement (m.sprite x y n).rows.length := by
    rwa [hlength]
  have herased : (m.screen.stamp (m.sprite x y n)).2 = true ↔
      m.screen.LosesPixel m.step.machine.screen := by
    rw [hscreen]
    exact hroom.erased_blit_iff _ _
  exact {
    result_eq := hr
    machine_eq := by
      rw [hm]
      rfl
    width_eq := by rw [hscreen, Screen.width_stamp]
    height_eq := by rw [hscreen, Screen.height_stamp]
    get_ne_iff := fun a ha b hb => by
      rw [hscreen, drawsAt_iff]
      exact hroom.get_blit_ne_iff _ _ ha hb
    flag_of_loses := fun h => by rw [hflag, if_pos (herased.mpr h)]
    flag_of_not_loses := fun h => by rw [hflag, if_neg (mt herased.mp h)]
    get_eq := fun z hz => by
      rw [hregisters, Registers.get_set_flag hz] }

/-- A sprite that goes around the end of memory and over the lower edge, at the position that the
flag register gives in both directions, drawn for the second time. -/
theorem draws_sprite_at_flag : ∃ m, Reachable m ∧ m.settings.placement = .wrap ∧
    m.index.toNat = 0xFFF ∧ m.registers.get 15 = 3 ∧ m.DrawsSprite 15 15 2 ∧
    m.DrawsAt 15 15 2 2 3 ∧ m.step.machine.screen.get 2 3 = false ∧
    m.step.machine.registers.get 15 = 1 := by
  have hb := @Reachable.create { width := 8, height := 4, placement := .wrap } (.ofSeed 0) _ rfl
  obtain ⟨m, hm, hs, hp, hi, hf, hw, hwidth, hheight, hlit, hdark⟩ : ∃ m, Reachable m ∧
      m.status = .running ∧ m.settings.placement = .wrap ∧ m.index.toNat = 0xFFF ∧
      m.registers.get 15 = 3 ∧ m.word.toNat = 0xD000 + 256 * 15 + 16 * 15 + 2 ∧
      m.screen.width = 8 ∧ m.screen.height = 4 ∧
      m.screen.get 2 3 = true ∧ m.step.machine.screen.get 2 3 = false :=
    ⟨_, hb.after [.load [0x60, 0x81, 0xAF, 0xFF, 0xF0, 0x55, 0x6F, 0x03, 0xDF, 0xF2, 0x6F, 0x03,
      0xDF, 0xF2], .run 6], by decide +kernel⟩
  have hroom : m.screen.HasRoom m.settings.placement 2 :=
    ⟨by rw [hwidth], fun _ => by rw [hheight]; decide⟩
  have hdraws : m.DrawsSprite 15 15 2 :=
    draws_sprite hs (by decide) (by decide) (by decide) hw hroom
  have hat : m.DrawsAt 15 15 2 2 3 := by
    refine (hdraws.get_ne_iff 2 (by rw [hwidth]; decide) 3 (by rw [hheight]; decide)).mp ?_
    rw [hlit, hdark]
    decide
  exact ⟨m, hm, hp, hi, hf, hdraws, hat, hdark, hdraws.flag_of_loses ⟨2, 3, hlit, hdark⟩⟩

end Chip8.Machine
