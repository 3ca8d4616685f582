import Chip8.Proofs.Screen.Compositor

/-!
Sprites drawn one after the other. Each inverts pixels by the size of the screen alone, so the order
does not matter and the second of two equal sprites takes the first away.
-/

namespace Chip8

/-- A sprite to draw, its top left corner and the placement of its pixels. -/
structure Stamp where
  placement : Placement
  x : Nat
  y : Nat
  rows : List UInt8
  deriving DecidableEq

namespace Screen

def stamp (s : Screen) (t : Stamp) : Screen × Bool :=
  s.blit t.placement t.x t.y t.rows

/-- The screen after sprites have been drawn in order. -/
def stampAll (s : Screen) (ts : List Stamp) : Screen :=
  ts.foldl (fun s t => (s.stamp t).1) s

theorem width_stamp (s : Screen) (t : Stamp) : (s.stamp t).1.width = s.width :=
  s.width_toggleAll _

theorem height_stamp (s : Screen) (t : Stamp) : (s.stamp t).1.height = s.height :=
  s.height_toggleAll _

/-- Where the bits of a sprite go depends on the size of the screen only. -/
theorem hits_congr {s s' : Screen} (hw : s'.width = s.width) (hh : s'.height = s.height)
    (p : Placement) (x y : Nat) (rows : List UInt8) (d : Nat) :
    s'.hits p x y rows d = s.hits p x y rows d := by
  obtain ⟨w, h, px⟩ := s
  obtain ⟨w', h', px'⟩ := s'
  obtain rfl : w' = w := hw
  obtain rfl : h' = h := hh
  rfl

theorem one_le_hits_iff {s : Screen} {p : Placement} {x y d : Nat} {rows : List UInt8} :
    1 ≤ s.hits p x y rows d ↔ ∃ r < rows.length, ∃ c < 8,
      (rows.getD r 0).toNat.testBit (7 - c) = true ∧ s.Lands p (x + c) (y + r) d := by
  rw [hits, Nat.one_le_iff_ne_zero, Finset.card_ne_zero]
  constructor
  · rintro ⟨⟨r, c⟩, hrc⟩
    obtain ⟨hmem, hbit, hlands⟩ := Finset.mem_filter.mp hrc
    obtain ⟨hr, hc⟩ := Finset.mem_product.mp hmem
    exact ⟨r, Finset.mem_range.mp hr, c, Finset.mem_range.mp hc, hbit, hlands⟩
  · rintro ⟨r, hr, c, hc, hbit, hlands⟩
    refine ⟨(r, c), Finset.mem_filter.mpr ⟨Finset.mem_product.mpr ?_, hbit, hlands⟩⟩
    exact ⟨Finset.mem_range.mpr hr, Finset.mem_range.mpr hc⟩

variable {s : Screen} {t u : Stamp} {d : Nat}

/-- How many bits of a sprite go to the offset `d`. -/
def stampHits (s : Screen) (t : Stamp) (d : Nat) : Nat :=
  s.hits t.placement t.x t.y t.rows d

theorem stampHits_stamp (s : Screen) (t u : Stamp) (d : Nat) :
    (s.stamp u).1.stampHits t d = s.stampHits t d :=
  hits_congr (s.width_stamp u) (s.height_stamp u) _ _ _ _ _

theorem isLit_stamp (hd : d < s.width * s.height) (t : Stamp) :
    (s.stamp t).1.isLit d = (s.isLit d ^^ decide (s.stampHits t d % 2 = 1)) :=
  s.isLit_blit _ _ _ _ hd

theorem isLit_stamp_stamp (hd : d < s.width * s.height) (t u : Stamp) :
    ((s.stamp t).1.stamp u).1.isLit d =
      (s.isLit d ^^ decide (s.stampHits t d % 2 = 1) ^^ decide (s.stampHits u d % 2 = 1)) := by
  have hd' : d < (s.stamp t).1.width * (s.stamp t).1.height := by
    rwa [width_stamp, height_stamp]
  rw [isLit_stamp hd', isLit_stamp hd, stampHits_stamp]

/-- A screen after two sprites is known by its offsets. -/
theorem ext_stamp_stamp {s' : Screen} (hw : s'.width = s.width) (hh : s'.height = s.height)
    (h : ∀ d < s.width * s.height, ((s.stamp t).1.stamp u).1.isLit d = s'.isLit d) :
    ((s.stamp t).1.stamp u).1 = s' := by
  have hw' : ((s.stamp t).1.stamp u).1.width = s.width := by rw [width_stamp, width_stamp]
  have hh' : ((s.stamp t).1.stamp u).1.height = s.height := by rw [height_stamp, height_stamp]
  refine Screen.ext (hw'.trans hw.symm) (hh'.trans hh.symm) fun d => ?_
  by_cases hd : d < s.width * s.height
  · exact h d hd
  · have hle : s.width * s.height ≤ d := Nat.le_of_not_lt hd
    rw [isLit_of_le _ (by rwa [hw', hh']), isLit_of_le _ (by rwa [hw, hh])]

theorem stamp_comm (s : Screen) (t u : Stamp) :
    ((s.stamp t).1.stamp u).1 = ((s.stamp u).1.stamp t).1 := by
  apply ext_stamp_stamp
  · rw [width_stamp, width_stamp]
  · rw [height_stamp, height_stamp]
  · intro d hd
    rw [isLit_stamp_stamp hd, isLit_stamp_stamp hd, Bool.xor_right_comm]

instance : RightCommutative fun (s : Screen) (t : Stamp) => (s.stamp t).1 :=
  ⟨stamp_comm⟩

theorem stampAll_perm {ts us : List Stamp} (h : ts.Perm us) (s : Screen) :
    s.stampAll ts = s.stampAll us :=
  h.foldl_eq s

theorem stamp_stamp (s : Screen) (t : Stamp) : ((s.stamp t).1.stamp t).1 = s := by
  apply ext_stamp_stamp rfl rfl
  intro d hd
  rw [isLit_stamp_stamp hd, Bool.xor_assoc, Bool.xor_self, Bool.xor_false]

/-- A pixel that the first sprite lights is erased by the second. -/
theorem erased_stamp_stamp_iff : (s.stamp t).2 = true ∨ ((s.stamp t).1.stamp t).2 = true ↔
    ∃ d, 1 ≤ s.stampHits t d := by
  have hfirst : (s.stamp t).2 = true ↔ ∃ d, 1 ≤ s.stampHits t d ∧
      (s.isLit d = true ∨ 2 ≤ s.stampHits t d) := erased_blit_iff
  have hsecond : ((s.stamp t).1.stamp t).2 = true ↔ ∃ d, 1 ≤ (s.stamp t).1.stampHits t d ∧
      ((s.stamp t).1.isLit d = true ∨ 2 ≤ (s.stamp t).1.stampHits t d) := erased_blit_iff
  simp only [stampHits_stamp] at hsecond
  constructor
  · intro h
    rcases h with h | h
    · obtain ⟨d, hd, -⟩ := hfirst.mp h
      exact ⟨d, hd⟩
    · obtain ⟨d, hd, -⟩ := hsecond.mp h
      exact ⟨d, hd⟩
  · rintro ⟨d, hd⟩
    by_cases herased : s.isLit d = true ∨ 2 ≤ s.stampHits t d
    · exact .inl (hfirst.mpr ⟨d, hd, herased⟩)
    · obtain ⟨hdark, hone⟩ := not_or.mp herased
      have hodd : s.stampHits t d % 2 = 1 := by omega
      refine .inr (hsecond.mpr ⟨d, hd, .inl ?_⟩)
      rw [isLit_stamp (lt_of_hits hd), eq_false_of_ne_true hdark, hodd]
      rfl

end Screen

end Chip8
