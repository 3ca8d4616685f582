import Chip8.Proofs.Machine.Invariant
import Chip8.Proofs.Machine.Mask

/-!
Loading. A program that fits finds the same machine whatever ran before it, except that the random
bytes go on from where they are.
-/

namespace Chip8

namespace Memory

theorem read_store_of_mem (m : Memory) {a c : Nat} {bs : List UInt8} (hbs : bs.length ≤ 4096)
    (ha : a ≤ c) (hc : c < a + bs.length) : (m.store a bs).read c = bs.getD (c - a) 0 := by
  have hk : c - a < bs.length := by omega
  have h := m.read_store a bs hbs hk
  rw [Nat.add_sub_cancel' ha] at h
  rw [h, List.getD_eq_getElem?_getD, List.getElem?_eq_getElem hk, Option.getD_some]

/-- Glyphs take up no more than their place. -/
theorem read_store_glyphs (m : Memory) {glyphs : List UInt8} (hg : glyphs.length = Font.length)
    {a : Nat} (ha : 80 ≤ a % 4096) : (m.store Font.start glyphs).read a = m.read a := by
  have hg : glyphs.length = 80 := hg
  refine read_store_of_ne _ _ _ _ fun k hk => ?_
  simp only [Font.start]
  omega

/-- The memory that a program begins with: the built-in glyphs, then the program in its place. -/
def image (p : List UInt8) : Memory :=
  (blank.store Font.start Font.builtin).store programStart p

theorem read_image {p : List UInt8} (hp : p.length ≤ programCapacity) {a : Nat} (ha : a < 4096) :
    (image p).read a =
      if a < 80 then Font.builtin.getD a 0 else if a < 512 then 0 else p.getD (a - 512) 0 := by
  have hp : p.length ≤ 3584 := hp
  have hglyphs : Font.builtin.length = 80 := rfl
  -- A cell is written by the glyphs, by the program or by neither.
  have hrest (h : ∀ k < p.length, 512 + k ≠ a) :
      (image p).read a = (blank.store Font.start Font.builtin).read a := by
    refine read_store_of_ne _ _ _ _ fun k hk => ?_
    have := h k hk
    simp only [programStart]
    omega
  have hfont (h : 80 ≤ a) : (blank.store Font.start Font.builtin).read a = 0 := by
    rw [blank.read_store_glyphs hglyphs (by omega), read_blank]
  split
  case isTrue h =>
    rw [hrest (by omega)]
    exact blank.read_store_of_mem (by omega) (Nat.zero_le a) (by simp only [Font.start]; omega)
  case isFalse h =>
    split
    case isTrue h' => rw [hrest (by omega), hfont (by omega)]
    case isFalse h' =>
      by_cases hk : a < 512 + p.length
      · exact read_store_of_mem _ (by omega) (Nat.le_of_not_lt h') hk
      · rw [hrest (by omega), hfont (by omega), List.getD_eq_getElem?_getD,
          List.getElem?_eq_none (by omega), Option.getD_none]

end Memory

theorem Mask.reveals_generator_iff {g : Generator} {i : Instruction} :
    ({ generator := some g } : Mask).Reveals i ↔ ∃ x n, i = .random x n := by
  cases i <;> simp [Reveals]

namespace Machine

variable {s : Settings} {m : Machine} {p : List UInt8}

/-- The machine that a program begins in. -/
def ready (s : Settings) (p : List UInt8) (g : Generator) : Machine where
  settings := s
  memory := .image p
  registers := .zero
  index := 0
  pc := 0x200
  stack := {}
  delay := 0
  sound := 0
  keypad := {}
  screen := .dark s.width s.height
  status := .running
  fault := none
  generator := g

theorem load_of_lt (m : Machine) (hp : Memory.programCapacity < p.length) :
    m.load p = ⟨m, .error (.largeProgram p.length), #[]⟩ := by
  rw [load, if_neg (Nat.not_le.mpr hp)]

/-- What a machine was before a program is loaded does not matter, apart from its settings and its
place in the random stream. -/
theorem load_of_le (h : m.Invariant s) (hp : p.length ≤ Memory.programCapacity) :
    m.load p = ⟨ready s p m.generator, .ok (), #[.loaded p.length]⟩ := by
  have hscreen : m.screen.clear = .dark s.width s.height := by
    refine Screen.ext h.width_eq h.height_eq fun d => ?_
    rw [Screen.isLit_clear, Screen.isLit_dark]
  rw [load, if_pos hp]
  simp only [clear, loadBuiltinFont, setFont, hscreen, h.settings_eq, ready, Memory.image,
    Memory.programStart]

theorem Reachable.isAllowedSize (h : Reachable m) :
    Screen.isAllowedSize m.settings.width m.settings.height = true := by
  induction h with
  | @create s entropy m h =>
    have hs : m.settings = s := (Invariant.create h).settings_eq
    rw [hs]
    exact (create_eq_ok_iff.mp h).1
  | @perform m op hm ih =>
    have hs : (m.perform op).machine.settings = m.settings := (hm.invariant.perform op).settings_eq
    rwa [hs]

theorem Reachable.isAllowedSize_screen (h : Reachable m) :
    Screen.isAllowedSize m.screen.width m.screen.height = true := by
  rw [h.invariant.width_eq, h.invariant.height_eq]
  exact h.isAllowedSize

/-- Whatever a machine shows can be dumped. -/
theorem Reachable.dump?_screen (h : Reachable m) : m.screen.dump? = some m.screen.text :=
  Screen.dump?_of_isAllowedSize h.isAllowedSize_screen

theorem exists_create (hs : Screen.isAllowedSize s.width s.height = true) (entropy : Generator) :
    ∃ blank, create s entropy = .ok blank :=
  ⟨_, create_eq_ok_iff.mpr ⟨hs, rfl⟩⟩

/-- Loading refuses exactly the programs that do not fit, and then changes nothing. Any other
program begins on a machine that looks new apart from the random stream: until a random byte is
used a history goes as on a new machine with the same settings, and beyond it where the streams
stand alike. -/
theorem load_forgets (hm : Reachable m) (p : List UInt8) :
    (3584 < p.length →
      (m.load p).result = .error (.largeProgram p.length) ∧ (m.load p).machine = m) ∧
    (p.length ≤ 3584 →
      (m.load p).result = .ok () ∧
      (m.load p).machine = ready m.settings p m.generator ∧
      (∀ a < 4096, (m.load p).machine.memory.read a =
        if a < 80 then Font.builtin.getD a 0 else if a < 512 then 0 else p.getD (a - 512) 0) ∧
      ∀ entropy, ∃ blank, create m.settings entropy = .ok blank ∧
        (blank.load p).result = .ok () ∧
        (blank.load p).machine = { (m.load p).machine with generator := blank.generator } ∧
        (∀ g history, (∀ x n, .random x n ∉ (m.load p).machine.executed history) →
          ((m.load p).machine.outcomes history).map
              (Outcome.view fun m => { m with generator := g }) =
            ((blank.load p).machine.outcomes history).map
              (Outcome.view fun m => { m with generator := g })) ∧
        (m.generator = blank.generator → ∀ history,
          (m.load p).machine.outcomes history = (blank.load p).machine.outcomes history)) := by
  constructor
  · intro hp
    rw [m.load_of_lt hp]
    exact ⟨rfl, rfl⟩
  · intro hp
    have hload := load_of_le hm.invariant hp
    rw [hload]
    refine ⟨rfl, rfl, fun a ha => Memory.read_image hp ha, fun entropy => ?_⟩
    obtain ⟨blank, hc⟩ := exists_create hm.isAllowedSize entropy
    refine ⟨blank, hc, ?_⟩
    rw [load_of_le (Invariant.create hc) hp]
    refine ⟨rfl, rfl, fun g history hx => ?_, fun hg history => by rw [hg]⟩
    refine ({ generator := some g } : Mask).outcomes_congr history (fun i hi hr => ?_) rfl
    obtain ⟨x, n, rfl⟩ := Mask.reveals_generator_iff.mp hr
    exact hx x n hi

/-- A program that faults in a call, with a key down and other glyphs, makes room for another. -/
theorem load_forgets_after_fault : ∃ m, Reachable m ∧ m.status = .halted ∧ m.stack.depth = 1 ∧
    m.keypad.isDown 5 = true ∧ m.memory.read 0 = 0 ∧ m.generator.position = 1 ∧
    ∃ blank, create m.settings (.ofSeed 0) = .ok blank ∧
      (blank.load [0x61, 0x05, 0x12, 0x00]).machine =
        { (m.load [0x61, 0x05, 0x12, 0x00]).machine with generator := blank.generator } ∧
      ((m.load [0x61, 0x05, 0x12, 0x00]).machine.outcomes [.run 2, .tick]).map
          (Outcome.view fun m => { m with generator := .ofSeed 0 }) =
        ((blank.load [0x61, 0x05, 0x12, 0x00]).machine.outcomes [.run 2, .tick]).map
          (Outcome.view fun m => { m with generator := .ofSeed 0 }) := by
  have hb := @Reachable.create {} (.ofSeed 0) _ rfl
  obtain ⟨m, hm, hstate, hx⟩ : ∃ m, Reachable m ∧
      (m.status = .halted ∧ m.stack.depth = 1 ∧ m.keypad.isDown 5 = true ∧ m.memory.read 0 = 0 ∧
        m.generator.position = 1) ∧
      (m.load [0x61, 0x05, 0x12, 0x00]).machine.executed [.run 2, .tick] =
        [.loadByte 1 5, .jump 512] :=
    ⟨_, hb.after [.load [0xC0, 0xFF, 0x22, 0x04, 0x00, 0x00], .loadFont (List.replicate 80 0),
      .setKey 5 true, .run 3], by decide +kernel, by decide +kernel⟩
  obtain ⟨hs, hd, hk, hf, hg⟩ := hstate
  obtain ⟨-, -, -, hfresh⟩ := (load_forgets hm [0x61, 0x05, 0x12, 0x00]).2 (by decide)
  obtain ⟨blank, hc, -, hl, hview, -⟩ := hfresh (.ofSeed 0)
  refine ⟨m, hm, hs, hd, hk, hf, hg, blank, hc, hl, hview _ _ fun x n => ?_⟩
  rw [hx]
  simp

end Machine

end Chip8
