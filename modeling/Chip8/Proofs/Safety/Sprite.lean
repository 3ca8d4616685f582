import Chip8.Proofs.Safety.Access
import Chip8.Proofs.Screen.Compositor

/-!
Checked drawing. On a screen of an allowed size no sprite is too tall or too far off for its pixels
to be placed, and every pixel that is inverted is one of the screen's, under both placements.
-/

namespace Chip8.Checked

/-- Whether a row has a pixel in a column. -/
def bit (row : UInt8) (c : Nat) : Checked Bool := do
  return row.toNat.testBit (← distance 8 (← difference 7 c))

/-- The offset that a sprite pixel at a position lands on, if any. -/
def offset (s : Screen) (p : Placement) (x y : Nat) : Checked (Option Nat) :=
  match p with
  | .linear => do
    let d ← sum UInt64.size (← product UInt64.size y s.width) x
    return if d < s.width * s.height then some d else none
  | .wrap =>
    if s.width = 0 ∨ s.height = 0 then some none
    else do
      let column ← remainder x s.width
      let row ← remainder y s.height
      return some (← sum UInt64.size column (← product UInt64.size row s.width))

/-- Inverts a pixel, and tells whether it was lit. -/
def toggle (s : Screen) (d : Nat) : Checked (Screen × Bool) :=
  if h : d < s.width * s.height then
    some ({ s with pixels := s.pixels.set d (!s.pixels[d]) h }, s.pixels[d])
  else none

/-- Draws one pixel of a sprite, and notes whether it was lit. -/
def plot (p : Placement) (x y : Nat) (drawn : Screen × Bool) : Checked (Screen × Bool) := do
  match ← offset drawn.1 p x y with
  | none => return drawn
  | some d =>
    let (screen, lit) ← toggle drawn.1 d
    return (screen, drawn.2 || lit)

/-- Draws column `c` of row `r` of a sprite. -/
def plotColumn (p : Placement) (x y r : Nat) (row : UInt8) (drawn : Screen × Bool) (c : Nat) :
    Checked (Screen × Bool) := do
  if ← bit row c then plot p (← sum UInt64.size x c) (← sum UInt64.size y r) drawn
  else return drawn

/-- Draws rows of a sprite, the first of them as row `r`. -/
def plotRows (p : Placement) (x y : Nat) (drawn : Screen × Bool) (r : Nat) :
    List UInt8 → Checked (Screen × Bool)
  | [] => some drawn
  | row :: rest => do
    plotRows p x y (← (List.range Sprite.width).foldlM (plotColumn p x y r row) drawn) (r + 1) rest

def blit (s : Screen) (p : Placement) (x y : Nat) (rows : List UInt8) :
    Checked (Screen × Bool) :=
  plotRows p x y (s, false) 0 rows

/-- A loop in which every turn has a result that keeps an invariant. -/
theorem foldlM_eq_some {α β : Type} {P : β → Prop} {f : β → α → Checked β} {g : β → α → β}
    {xs : List α} (h : ∀ b, P b → ∀ x ∈ xs, f b x = some (g b x) ∧ P (g b x)) {b : β} (hb : P b) :
    xs.foldlM f b = some (xs.foldl g b) ∧ P (xs.foldl g b) := by
  induction xs generalizing b with
  | nil => exact ⟨rfl, hb⟩
  | cons x xs ih =>
    obtain ⟨hf, hg⟩ := h b hb x List.mem_cons_self
    rw [List.foldlM_cons, hf, List.foldl_cons]
    exact ih (fun b hb y hy => h b hb y (List.mem_cons_of_mem x hy)) hg

variable {s : Screen} {p : Placement} {x y r c d : Nat} {row : UInt8} {drawn : Screen × Bool}

theorem bit_of_lt (row : UInt8) (h : c < 8) : bit row c = some (Sprite.bit row c) := by
  rw [bit, difference_of_le (Nat.le_of_lt_succ h)]
  change (distance 8 (7 - c)).bind _ = _
  rw [distance_of_lt (show 7 - c < 8 by omega)]
  rfl

theorem offset_of_lt (hs : Screen.isAllowedSize s.width s.height = true) (hx : x < 512)
    (hy : y < 512) : offset s p x y = some (s.offset? p x y) := by
  obtain ⟨hw, hh, hle, -, hpixels⟩ := Screen.bounds_of_isAllowedSize hs
  cases p with
  | linear =>
    have hline : y * s.width ≤ 512 * 65536 := Nat.mul_le_mul (Nat.le_of_lt hy) hle
    have hsum : y * s.width + x < UInt64.size := by rw [UInt64.size]; omega
    rw [offset, product_of_lt (Nat.lt_of_le_of_lt (Nat.le_add_right _ x) hsum)]
    change (sum UInt64.size (y * s.width) x).bind _ = _
    rw [sum_of_lt hsum]
    rfl
  | wrap =>
    have hd : y % s.height * s.width + x % s.width < s.width * s.height :=
      Screen.lt_of_lands (p := .wrap) ⟨hw, hh, rfl⟩
    have hsum : x % s.width + y % s.height * s.width < UInt64.size := by
      rw [UInt64.size]
      omega
    have hsize : ¬(s.width = 0 ∨ s.height = 0) := by omega
    rw [offset, if_neg hsize, remainder_of_pos hw, remainder_of_pos hh, Screen.offset?,
      if_neg hsize]
    change (product UInt64.size (y % s.height) s.width).bind _ = _
    rw [product_of_lt (Nat.lt_of_le_of_lt (Nat.le_add_left _ _) hsum)]
    change (sum UInt64.size (x % s.width) (y % s.height * s.width)).bind _ = _
    rw [sum_of_lt hsum]
    rfl

theorem toggle_of_lt (h : d < s.width * s.height) : toggle s d = some (s.toggle d, s.isLit d) := by
  have hlit : s.isLit d = s.pixels[d] := by
    rw [Screen.isLit, Vector.getElem?_eq_getElem h, Option.getD_some]
  have hset : s.pixels.set d (!s.pixels[d]) h = s.pixels.setIfInBounds d (!s.pixels[d]) :=
    Vector.ext fun e he => by rw [Vector.getElem_set, Vector.getElem_setIfInBounds]
  rw [toggle, dif_pos h, Screen.toggle, hlit, hset]

/-- That the screen drawn on has kept its size, which all bounds come from. -/
structure SameSize (s : Screen) (drawn : Screen × Bool) : Prop where
  width_eq : drawn.1.width = s.width
  height_eq : drawn.1.height = s.height

theorem SameSize.toggleNext (h : SameSize s drawn) (d : Nat) :
    SameSize s (Screen.toggleNext drawn d) :=
  ⟨h.width_eq, h.height_eq⟩

theorem plot_of_lt (hs : Screen.isAllowedSize s.width s.height = true) (hx : x < 512)
    (hy : y < 512) (h : SameSize s drawn) :
    plot p x y drawn = some ((s.offset? p x y).toList.foldl Screen.toggleNext drawn) := by
  have hoffset : offset drawn.1 p x y = some (s.offset? p x y) := by
    rw [← offset_of_lt hs hx hy]
    simp only [offset, h.width_eq, h.height_eq]
  rw [plot, hoffset]
  cases hd : s.offset? p x y with
  | none => rfl
  | some d =>
    have hlt : d < s.width * s.height := Screen.lt_of_lands (Screen.offset?_eq_some_iff.mp hd)
    change (toggle drawn.1 d).bind _ = _
    rw [toggle_of_lt (by rwa [h.width_eq, h.height_eq])]
    rfl

theorem plotColumn_of_lt (hs : Screen.isAllowedSize s.width s.height = true) (hx : x < 256)
    (hy : y + r < 512) (hc : c < 8) (h : SameSize s drawn) :
    plotColumn p x y r row drawn c = some (if Sprite.bit row c then
      (s.offset? p (x + c) (y + r)).toList.foldl Screen.toggleNext drawn else drawn) := by
  rw [plotColumn, bit_of_lt row hc]
  cases hb : Sprite.bit row c with
  | false => rfl
  | true =>
    rw [sum_of_lt (show x + c < UInt64.size by rw [UInt64.size]; omega),
      sum_of_lt (show y + r < UInt64.size by rw [UInt64.size]; omega)]
    exact plot_of_lt hs (by omega) hy h

theorem plotRow_of_lt (hs : Screen.isAllowedSize s.width s.height = true) (hx : x < 256)
    (hy : y + r < 512) (row : UInt8) (h : SameSize s drawn) :
    (List.range Sprite.width).foldlM (plotColumn p x y r row) drawn =
        some ((s.targets p x (y + r) [row]).foldl Screen.toggleNext drawn) ∧
      SameSize s ((s.targets p x (y + r) [row]).foldl Screen.toggleNext drawn) := by
  rw [Screen.targets, List.filterMap_eq_flatMap_toList, List.foldl_flatMap, Sprite.positions,
    Sprite.positions, List.append_nil, List.foldl_map, List.foldl_filter]
  refine foldlM_eq_some (P := SameSize s) (fun drawn h c hc => ⟨?_, ?_⟩) h
  · exact plotColumn_of_lt hs hx hy (List.mem_range.mp hc) h
  · dsimp only
    split
    case isTrue =>
      cases s.offset? p (x + c) (y + r) with
      | none => exact h
      | some d => exact h.toggleNext d
    case isFalse => exact h

theorem plotRows_of_lt (hs : Screen.isAllowedSize s.width s.height = true) (hx : x < 256)
    (rows : List UInt8) (hy : y + r + rows.length < 512) (h : SameSize s drawn) :
    plotRows p x y drawn r rows =
      some ((s.targets p x (y + r) rows).foldl Screen.toggleNext drawn) := by
  induction rows generalizing drawn r with
  | nil => rfl
  | cons row rest ih =>
    rw [List.length_cons] at hy
    have htargets : s.targets p x (y + r) (row :: rest) =
        s.targets p x (y + r) [row] ++ s.targets p x (y + (r + 1)) rest := by
      simp only [Screen.targets, Sprite.positions, List.append_nil, List.filterMap_append,
        Nat.add_assoc]
    obtain ⟨hrow, h⟩ := plotRow_of_lt (p := p) hs hx (show y + r < 512 by omega) row h
    rw [plotRows, hrow, htargets, List.foldl_append]
    exact ih (by omega) h

/-- A sprite at any position that registers can give is drawn within bounds. -/
theorem blit_of_lt (hs : Screen.isAllowedSize s.width s.height = true) (hx : x < 256)
    (hy : y < 256) {rows : List UInt8} (hrows : rows.length < 16) :
    blit s p x y rows = some (s.blit p x y rows) :=
  plotRows_of_lt hs hx rows (by omega) ⟨rfl, rfl⟩

end Chip8.Checked
