import Chip8.Proofs.Screen.Cancellation
import Mathlib.Data.Nat.ModEq

/-!
Screens with room for a sprite. No two of its bits go to one pixel there, so a draw inverts every
pixel that a bit goes to, and what it erases is told by comparing the pictures before and after.
-/

namespace Chip8.Screen

variable {s : Screen} {p : Placement} {n x y a b d : Nat} {rows : List UInt8}

/-- Whether a screen is as wide as a sprite of `n` rows and, where pixels wrap, as high. -/
structure HasRoom (s : Screen) (p : Placement) (n : Nat) : Prop where
  width_le : 8 ≤ s.width
  height_le : p = .wrap → n ≤ s.height

/-- Whether the sprite pixel at a position of the unbounded plane goes to column `a` of row `b`. -/
def GoesTo (s : Screen) (p : Placement) (x y a b : Nat) : Prop :=
  match p with
  | .linear => b * s.width + a = y * s.width + x
  | .wrap => a = x % s.width ∧ b = y % s.height

/-- A row-major offset tells its row and its column. -/
theorem row_major_inj {w a a' b b' : Nat} (ha : a < w) (ha' : a' < w)
    (h : b * w + a = b' * w + a') : b = b' ∧ a = a' := by
  have hw : 0 < w := Nat.zero_lt_of_lt ha
  have hleft : (b * w + a) / w = b ∧ (b * w + a) % w = a :=
    (Nat.div_mod_unique hw).mpr ⟨by rw [Nat.mul_comm, Nat.add_comm], ha⟩
  have hright : (b' * w + a') / w = b' ∧ (b' * w + a') % w = a' :=
    (Nat.div_mod_unique hw).mpr ⟨by rw [Nat.mul_comm, Nat.add_comm], ha'⟩
  rw [h] at hleft
  exact ⟨hleft.1.symm.trans hright.1, hleft.2.symm.trans hright.2⟩

theorem offset_lt (ha : a < s.width) (hb : b < s.height) :
    b * s.width + a < s.width * s.height := by
  have hon : s.Lands .wrap a b (b * s.width + a) := by
    refine ⟨Nat.zero_lt_of_lt ha, Nat.zero_lt_of_lt hb, ?_⟩
    rw [Nat.mod_eq_of_lt ha, Nat.mod_eq_of_lt hb]
  exact lt_of_lands hon

theorem lands_iff_goesTo (ha : a < s.width) (hb : b < s.height) :
    s.Lands p x y (b * s.width + a) ↔ s.GoesTo p x y a b := by
  have hw : 0 < s.width := Nat.zero_lt_of_lt ha
  have hh : 0 < s.height := Nat.zero_lt_of_lt hb
  cases p with
  | linear => exact ⟨fun h => h.1.symm, fun h => ⟨h.symm, offset_lt ha hb⟩⟩
  | wrap =>
    constructor
    · rintro ⟨-, -, h⟩
      obtain ⟨hrow, hcolumn⟩ := row_major_inj (Nat.mod_lt x hw) ha h
      exact ⟨hcolumn.symm, hrow.symm⟩
    · rintro ⟨rfl, rfl⟩
      exact ⟨hw, hh, rfl⟩

/-- Two bits of a sprite that go to one pixel are the same bit. -/
theorem HasRoom.lands_inj (h : s.HasRoom p n) {r r' c c' : Nat} (hr : r < n) (hr' : r' < n)
    (hc : c < 8) (hc' : c' < 8) (hl : s.Lands p (x + c) (y + r) d)
    (hl' : s.Lands p (x + c') (y + r') d) : r = r' ∧ c = c' := by
  have hw : 8 ≤ s.width := h.width_le
  cases p with
  | linear =>
    have heq : (y + r) * s.width + c = (y + r') * s.width + c' := by
      have hsame := hl.1.trans hl'.1.symm
      omega
    obtain ⟨hrow, hcolumn⟩ := row_major_inj (by omega) (by omega) heq
    exact ⟨Nat.add_left_cancel hrow, hcolumn⟩
  | wrap =>
    have hh : n ≤ s.height := h.height_le rfl
    obtain ⟨hw0, hh0, hd⟩ := hl
    obtain ⟨-, -, hd'⟩ := hl'
    obtain ⟨hrow, hcolumn⟩ : (y + r) % s.height = (y + r') % s.height ∧
        (x + c) % s.width = (x + c') % s.width :=
      row_major_inj (Nat.mod_lt _ hw0) (Nat.mod_lt _ hw0) (hd.trans hd'.symm)
    have hrows : r ≡ r' [MOD s.height] := Nat.ModEq.add_left_cancel' y hrow
    have hcolumns : c ≡ c' [MOD s.width] := Nat.ModEq.add_left_cancel' x hcolumn
    exact ⟨hrows.eq_of_lt_of_lt (by omega) (by omega),
      hcolumns.eq_of_lt_of_lt (by omega) (by omega)⟩

theorem HasRoom.hits_le_one (h : s.HasRoom p rows.length) (x y d : Nat) :
    s.hits p x y rows d ≤ 1 := by
  refine Finset.card_le_one.mpr ?_
  rintro ⟨r, c⟩ hrc ⟨r', c'⟩ hrc'
  obtain ⟨hmem, -, hl⟩ := Finset.mem_filter.mp hrc
  obtain ⟨hmem', -, hl'⟩ := Finset.mem_filter.mp hrc'
  obtain ⟨hr, hc⟩ := Finset.mem_product.mp hmem
  obtain ⟨hr', hc'⟩ := Finset.mem_product.mp hmem'
  obtain ⟨rfl, rfl⟩ := h.lands_inj (Finset.mem_range.mp hr) (Finset.mem_range.mp hr')
    (Finset.mem_range.mp hc) (Finset.mem_range.mp hc') hl hl'
  rfl

theorem get_of_lt (ha : a < s.width) (hb : b < s.height) :
    s.get a b = s.isLit (b * s.width + a) := by
  rw [get, if_pos ⟨ha, hb⟩, Nat.add_comm]

/-- Every offset is that of a position. -/
theorem exists_position (hd : d < s.width * s.height) :
    ∃ a b, a < s.width ∧ b < s.height ∧ b * s.width + a = d := by
  have hw : 0 < s.width := Nat.pos_of_ne_zero fun h => by
    rw [h, Nat.zero_mul] at hd
    exact Nat.not_lt_zero d hd
  exact ⟨d % s.width, d / s.width, Nat.mod_lt d hw, Nat.div_lt_of_lt_mul hd, Nat.div_add_mod' ..⟩

/-- Where there is room, a draw inverts the pixels that some bit goes to. -/
theorem HasRoom.get_blit (h : s.HasRoom p rows.length) (x y : Nat) (ha : a < s.width)
    (hb : b < s.height) : (s.blit p x y rows).1.get a b =
      (s.get a b ^^ decide (1 ≤ s.hits p x y rows (b * s.width + a))) := by
  have hw : (s.blit p x y rows).1.width = s.width := width_toggleAll s _
  have hh : (s.blit p x y rows).1.height = s.height := height_toggleAll s _
  have hone := h.hits_le_one x y (b * s.width + a)
  have hodd : s.hits p x y rows (b * s.width + a) % 2 = 1 ↔
      1 ≤ s.hits p x y rows (b * s.width + a) := by omega
  rw [get_of_lt (by rwa [hw]) (by rwa [hh]), hw, isLit_blit s p x y rows (offset_lt ha hb),
    decide_eq_decide.mpr hodd, get_of_lt ha hb]

/-- A pixel changes exactly if a set bit goes to it. -/
theorem HasRoom.get_blit_ne_iff (h : s.HasRoom p rows.length) (x y : Nat) (ha : a < s.width)
    (hb : b < s.height) : (s.blit p x y rows).1.get a b ≠ s.get a b ↔
      ∃ r < rows.length, ∃ c < 8, (rows.getD r 0).toNat.testBit (7 - c) = true ∧
        s.GoesTo p (x + c) (y + r) a b := by
  have hchange : (s.blit p x y rows).1.get a b ≠ s.get a b ↔
      1 ≤ s.hits p x y rows (b * s.width + a) := by
    rw [h.get_blit x y ha hb]
    cases s.get a b <;> simp [Nat.one_le_iff_ne_zero]
  rw [hchange, one_le_hits_iff]
  simp only [lands_iff_goesTo ha hb]

/-- That a pixel is lit on the first screen and dark on the second. -/
def LosesPixel (s s' : Screen) : Prop :=
  ∃ a b, s.get a b = true ∧ s'.get a b = false

/-- Where there is room, a draw erases a pixel if one that was lit is dark afterwards. -/
theorem HasRoom.erased_blit_iff (h : s.HasRoom p rows.length) (x y : Nat) :
    (s.blit p x y rows).2 = true ↔ s.LosesPixel (s.blit p x y rows).1 := by
  rw [Screen.erased_blit_iff]
  constructor
  · rintro ⟨d, hd, hl⟩
    have hone := h.hits_le_one x y d
    have hlit : s.isLit d = true := hl.resolve_right (by omega)
    obtain ⟨a, b, ha, hb, rfl⟩ := exists_position (lt_of_hits hd)
    have hbefore : s.get a b = true := by rwa [get_of_lt ha hb]
    refine ⟨a, b, hbefore, ?_⟩
    rw [h.get_blit x y ha hb, hbefore, decide_eq_true hd]
    rfl
  · rintro ⟨a, b, hbefore, hafter⟩
    obtain ⟨ha, hb⟩ : a < s.width ∧ b < s.height := by
      by_contra hout
      rw [get, if_neg hout] at hbefore
      cases hbefore
    rw [h.get_blit x y ha hb, hbefore, Bool.true_xor, Bool.not_eq_false',
      decide_eq_true_eq] at hafter
    rw [get_of_lt ha hb] at hbefore
    exact ⟨_, hafter, .inl hbefore⟩

end Chip8.Screen
