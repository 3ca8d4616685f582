import Chip8.Proofs.Machine.Idle
import Chip8.Proofs.Machine.Veil
import Chip8.Proofs.Screen.Compositor

/-!
Placements. Both put the pixels of a sprite that lies on the screen in the same places, so programs
that draw no others run alike under either.
-/

namespace Chip8

variable {m m' : Machine}

/-- The registers and the number of rows that an instruction draws a sprite by. -/
def Instruction.sprite? : Instruction → Option (UInt8 × UInt8 × UInt8)
  | .draw x y n => some (x, y, n)
  | _ => none

theorem Instruction.sprite?_eq_some_iff {i : Instruction} {x y n : UInt8} :
    i.sprite? = some (x, y, n) ↔ i = .draw x y n := by
  cases i <;> simp [sprite?]

namespace Sprite

/-- The positions of a sprite are those of its set bits. -/
theorem mem_positions {x y : Nat} {rows : List UInt8} {p : Nat × Nat} :
    p ∈ positions x y rows ↔
      ∃ r < rows.length, ∃ c < 8, bit (rows.getD r 0) c = true ∧ p = (x + c, y + r) := by
  induction rows generalizing y with
  | nil => simp [positions]
  | cons row rest ih =>
    have hrow : p ∈ ((List.range width).filter (bit row)).map (fun c => (x + c, y)) ↔
        ∃ c < 8, bit row c = true ∧ p = (x + c, y) := by
      simp only [List.mem_map, List.mem_filter, List.mem_range, and_assoc, eq_comm, width]
    rw [positions, List.mem_append, hrow, ih]
    constructor
    · rintro (⟨c, hc, hb, rfl⟩ | ⟨r, hr, c, hc, hb, rfl⟩)
      · exact ⟨0, Nat.succ_pos _, c, hc, hb, rfl⟩
      · refine ⟨r + 1, Nat.succ_lt_succ hr, c, hc, hb, ?_⟩
        rw [Nat.add_assoc, Nat.add_comm 1 r]
    · rintro ⟨r, hr, c, hc, hb, rfl⟩
      cases r with
      | zero => exact .inl ⟨c, hc, hb, rfl⟩
      | succ r =>
        refine .inr ⟨r, Nat.lt_of_succ_lt_succ hr, c, hc, hb, ?_⟩
        rw [Nat.add_assoc, Nat.add_comm 1 r]

end Sprite

namespace Screen

/-- A position on the screen has one offset. -/
theorem offset?_of_lt {s : Screen} {a b : Nat} (ha : a < s.width) (hb : b < s.height)
    (p : Placement) : s.offset? p a b = some (b * s.width + a) := by
  have hwrap : s.Lands .wrap a b (b * s.width + a) := by
    refine ⟨Nat.zero_lt_of_lt ha, Nat.zero_lt_of_lt hb, ?_⟩
    rw [Nat.mod_eq_of_lt ha, Nat.mod_eq_of_lt hb]
  rw [offset?_eq_some_iff]
  cases p with
  | linear => exact ⟨rfl, lt_of_lands hwrap⟩
  | wrap => exact hwrap

theorem blit_congr {s : Screen} {x y : Nat} {rows : List UInt8}
    (h : ∀ a b, (a, b) ∈ Sprite.positions x y rows → a < s.width ∧ b < s.height)
    (p q : Placement) : s.blit p x y rows = s.blit q x y rows := by
  have htargets : s.targets p x y rows = s.targets q x y rows := by
    refine List.filterMap_congr fun ⟨a, b⟩ hab => ?_
    obtain ⟨ha, hb⟩ := h a b hab
    show s.offset? p a b = s.offset? q a b
    rw [offset?_of_lt ha hb, offset?_of_lt ha hb]
  rw [blit, blit, htargets]

end Screen

namespace Machine

def withPlacement (p : Placement) (m : Machine) : Machine :=
  { m with settings := { m.settings with placement := p } }

/-- The machine with the screen that a sprite has been drawn on, and whether that erased a pixel. -/
def drawn (m : Machine) (r : Screen × Bool) : Machine :=
  { m with
    screen := r.1
    registers := m.registers.set Registers.flag (if r.2 then 1 else 0) }

theorem execute_draw (m : Machine) (a : Nat) (x y n : UInt8) :
    m.execute a (.draw x y n) =
      (m.drawn (m.screen.blit m.settings.placement (m.registers.get x).toNat
        (m.registers.get y).toNat (m.memory.fetch m.index.toNat n.toNat)), .ok .draw) := rfl

/-- That a sprite of `n` rows, at the position that two registers give, has all its set bits on the
screen: bit `7 - c` of row `r` is the pixel `c` to the right of the corner and `r` below it. -/
def SpriteOnScreen (m : Machine) (x y n : UInt8) : Prop :=
  ∀ r < n.toNat, ∀ c < 8,
    (m.memory.read (m.index.toNat + r)).toNat.testBit (7 - c) = true →
      (m.registers.get x).toNat + c < m.screen.width ∧
        (m.registers.get y).toNat + r < m.screen.height

/-- That the sprite which the next step draws, if it draws one, is on the screen. -/
def DrawsOnScreen (m : Machine) : Prop :=
  ∀ x y n, m.next? = some (.draw x y n) → m.SpriteOnScreen x y n

instance (m : Machine) (x y n : UInt8) : Decidable (m.SpriteOnScreen x y n) :=
  inferInstanceAs (Decidable (∀ r < n.toNat, ∀ c < 8, _ → _))

theorem drawsOnScreen_iff : m.DrawsOnScreen ↔
    ∀ s ∈ m.next?.bind Instruction.sprite?, m.SpriteOnScreen s.1 s.2.1 s.2.2 := by
  simp only [DrawsOnScreen, Prod.forall, Option.mem_def, Option.bind_eq_some_iff,
    Instruction.sprite?_eq_some_iff]
  simp only [exists_eq_right]

instance (m : Machine) : Decidable m.DrawsOnScreen :=
  @decidable_of_iff _ _ drawsOnScreen_iff.symm (Option.decidableForallMem _)

theorem DrawsOnScreen.of_mem_positions (h : m.DrawsOnScreen) {x y n : UInt8}
    (hx : m.next? = some (.draw x y n)) {a b : Nat}
    (hab : (a, b) ∈ Sprite.positions (m.registers.get x).toNat (m.registers.get y).toNat
      (m.memory.fetch m.index.toNat n.toNat)) : a < m.screen.width ∧ b < m.screen.height := by
  obtain ⟨r, hr, c, hc, hb, hp⟩ := Sprite.mem_positions.mp hab
  obtain ⟨rfl, rfl⟩ := Prod.mk.inj hp
  rw [Memory.length_fetch] at hr
  rw [Memory.getD_fetch _ _ hr] at hb
  exact h x y n hx r hr c hc hb

end Machine

namespace Veil

/-- The veil over the placement of pixels, which shows it as wrapping. -/
def placement : Veil :=
  { settings := fun s => { s with placement := .wrap } }

theorem lawful_placement : placement.Lawful where
  settings _ := rfl
  index _ := rfl
  delay _ := rfl
  sound _ := rfl
  generator _ := rfl
  delay_tick _ := rfl
  sound_tick _ := rfl

/-- A sprite on the screen is drawn alike under either placement. -/
theorem covers_placement (h : m.DrawsOnScreen) {i : Instruction}
    (hi : m.next? = some i) : placement.Covers m.advance m.pc i := by
  apply lawful_placement.covers_of_eq
  cases i with
  | draw x y n =>
    have hblit := Screen.blit_congr (fun a b hab => h.of_mem_positions hi hab) .wrap
      m.settings.placement
    rw [Machine.execute_draw, Machine.execute_draw]
    exact congrArg (fun r => ((m.advance.withPlacement .wrap).drawn r, Except.ok Signal.draw)) hblit
  | loadIndex | random | readDelay | setDelay | setSound | addToIndex | pointAtGlyph | storeDecimal
  | storeRegisters | loadRegisters =>
    simp only [Machine.execute]
    rfl
  | _ =>
    apply execute_of_isPlain
    trivial

end Veil

namespace Machine

/-- A machine keeps the settings that it was made with. -/
theorem settings_perform (m : Machine) (op : Operation) :
    (m.perform op).machine.settings = m.settings := by
  by_cases hl : op.Reloads
  · obtain ⟨p, rfl, hp⟩ := hl
    simp only [perform, load, if_pos hp, Outcome.map, loadBuiltinFont, setFont, clear]
  · by_cases hs : op = .step
    · subst hs
      exact m.sharesControls_step.settings_eq
    · by_cases hn : ∃ n, op = .run n
      · obtain ⟨n, rfl⟩ := hn
        exact (m.sharesControls_run n).settings_eq
      · rw [perform_eq hl (.inr ⟨hs, fun n h => hn ⟨n, h⟩⟩)]

theorem settings_of_mem_outcomes {history : List Operation} {o : Outcome (Option Signal)}
    (h : o ∈ m.outcomes history) : o.machine.settings = m.settings := by
  induction history generalizing m with
  | nil => cases h
  | cons op rest ih =>
    rcases List.mem_cons.mp h with rfl | ho
    · exact m.settings_perform op
    · exact (ih ho).trans (m.settings_perform op)

theorem drawsOnScreen_congr (h : m.withPlacement .wrap = m'.withPlacement .wrap)
    (hm : m.DrawsOnScreen) : m'.DrawsOnScreen := by
  have hm : (m.withPlacement .wrap).DrawsOnScreen := hm
  rw [h] at hm
  exact hm

theorem placement_noninterference : Noninterference (withPlacement .wrap) DrawsOnScreen :=
  Veil.lawful_placement.noninterference drawsOnScreen_congr fun h hi => Veil.covers_placement h hi

theorem outcomes_withPlacement (m : Machine) (p : Placement) (history : List Operation) :
    ((m.withPlacement p).outcomes history).map (Outcome.view (withPlacement p)) =
      (m.withPlacement p).outcomes history := by
  have hview : ∀ o ∈ (m.withPlacement p).outcomes history, o.view (withPlacement p) = o := by
    intro o ho
    have hp : o.machine.settings.placement = p := by rw [settings_of_mem_outcomes ho]; rfl
    subst hp
    rfl
  rw [List.map_congr_left hview, List.map_id'']
  exact fun _ => rfl

/-- As long as every sprite that a program draws under linear placement lies on the screen, the
program runs alike under wrapping placement: each operation has the same result and leaves the same
machine but for the placement. -/
theorem placements_agree_on_screen (hm : m.settings.placement = .linear)
    {history : List Operation} (hs : m.StepsFrom DrawsOnScreen (Operation.unroll history)) :
    (m.withPlacement .wrap).outcomes history =
        (m.outcomes history).map (Outcome.view (withPlacement .wrap)) ∧
      ∀ o ∈ m.outcomes history, o.machine.settings.placement = .linear := by
  have hsame : m.withPlacement .wrap = (m.withPlacement .wrap).withPlacement .wrap := rfl
  have hview := placement_noninterference.outcomes history hs hsame
  refine ⟨(hview.trans (outcomes_withPlacement m .wrap history)).symm, fun o ho => ?_⟩
  rw [settings_of_mem_outcomes ho, hm]

/-- The top of a digit in the corner of the screen, drawn twice, and a skip that depends on what it
erased. -/
theorem placements_agree_on_screen_in_corner : ∃ m, Reachable m ∧
    m.settings.placement = .linear ∧
    (m.after [.run 3]).screen.isLit 127 = true ∧
    (m.after [.run 3, .tick, .run 2]).pc = 0x20C ∧
    (m.withPlacement .wrap).outcomes [.run 3, .tick, .run 2] =
      (m.outcomes [.run 3, .tick, .run 2]).map (Outcome.view (withPlacement .wrap)) := by
  have hb := @Reachable.create { width := 16, height := 8 } (.ofSeed 0) _ rfl
  obtain ⟨m, hm, hp, hl, hpc, hs⟩ : ∃ m, Reachable m ∧ m.settings.placement = .linear ∧
      (m.after [.run 3]).screen.isLit 127 = true ∧
      (m.after [.run 3, .tick, .run 2]).pc = 0x20C ∧
      m.StepsFrom DrawsOnScreen (Operation.unroll [.run 3, .tick, .run 2]) :=
    ⟨_, hb.after [.load [0x60, 0x0C, 0x61, 0x06, 0xD0, 0x12, 0xD0, 0x12, 0x3F, 0x01]],
      by decide +kernel⟩
  exact ⟨m, hm, hp, hl, hpc, (placements_agree_on_screen hp hs).1⟩

end Machine

end Chip8
