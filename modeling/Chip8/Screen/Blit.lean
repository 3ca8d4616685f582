import Chip8.Screen

/-!
Sprites: rows of eight pixels, leftmost in the highest bit, that are combined with the screen by
exclusive or.
-/

namespace Chip8

/-- Where pixels past the right or bottom edge go. -/
inductive Placement
  /-- To the row-major offset of their position, so that a row runs on into the next one; offsets
  past the end are dropped. -/
  | linear
  /-- To the opposite edge. -/
  | wrap
  deriving DecidableEq

def Placement.name : Placement → String
  | .linear => "linear"
  | .wrap => "wrap"

def Placement.ofName? (name : String) : Option Placement :=
  if name = "linear" then some .linear
  else if name = "wrap" then some .wrap
  else none

namespace Sprite

def width : Nat := 8

/-- Whether a row has a pixel in column `c`, below eight. -/
def bit (row : UInt8) (c : Nat) : Bool :=
  row.toNat.testBit (7 - c)

/-- The positions of the pixels of rows that start with row `y`, in reading order. -/
def positions (x : Nat) : Nat → List UInt8 → List (Nat × Nat)
  | _, [] => []
  | y, row :: rest =>
    ((List.range width).filter (bit row)).map (fun c => (x + c, y)) ++ positions x (y + 1) rest

end Sprite

namespace Screen

/-- The offset that a sprite pixel at a position lands on, if any. -/
def offset? (s : Screen) (p : Placement) (x y : Nat) : Option Nat :=
  match p with
  | .linear => if y * s.width + x < s.width * s.height then some (y * s.width + x) else none
  | .wrap =>
    if s.width = 0 ∨ s.height = 0 then none
    else some (x % s.width + y % s.height * s.width)

/-- The offsets that a sprite with its top left corner at `(x, y)` lands on, repeats included. -/
def targets (s : Screen) (p : Placement) (x y : Nat) (rows : List UInt8) : List Nat :=
  (Sprite.positions x y rows).filterMap fun (a, b) => s.offset? p a b

/-- Inverts one more pixel, and notes whether it was lit. -/
def toggleNext : Screen × Bool → Nat → Screen × Bool
  | (s, erased), d =>
    let lit := s.isLit d
    (s.toggle d, erased || lit)

/-- Inverts pixels one after the other, and tells whether any was lit when its turn came. -/
def toggleAll (s : Screen) (ds : List Nat) : Screen × Bool :=
  ds.foldl toggleNext (s, false)

/-- Draws a sprite with its top left corner at `(x, y)`, and tells whether it erased a lit pixel. -/
def blit (s : Screen) (p : Placement) (x y : Nat) (rows : List UInt8) : Screen × Bool :=
  s.toggleAll (s.targets p x y rows)

private theorem foldl_toggleNext (s : Screen) (erased : Bool) (ds : List Nat) :
    ds.foldl toggleNext (s, erased) = ((s.toggleAll ds).1, erased || (s.toggleAll ds).2) := by
  induction ds generalizing s erased with
  | nil => simp [toggleAll]
  | cons d ds ih =>
    have hc : s.toggleAll (d :: ds) = ds.foldl toggleNext (s.toggle d, s.isLit d) := by
      simp [toggleAll, toggleNext]
    rw [hc, List.foldl_cons, toggleNext, ih, ih, Bool.or_assoc]

@[simp]
theorem toggleAll_nil (s : Screen) : s.toggleAll [] = (s, false) := rfl

theorem toggleAll_cons (s : Screen) (d : Nat) (ds : List Nat) :
    s.toggleAll (d :: ds) =
      (((s.toggle d).toggleAll ds).1, s.isLit d || ((s.toggle d).toggleAll ds).2) := by
  rw [toggleAll, List.foldl_cons, toggleNext, foldl_toggleNext, Bool.false_or]

@[simp]
theorem width_toggleAll (s : Screen) (ds : List Nat) : (s.toggleAll ds).1.width = s.width := by
  induction ds generalizing s with
  | nil => rfl
  | cons d ds ih => rw [toggleAll_cons, ih, width_toggle]

@[simp]
theorem height_toggleAll (s : Screen) (ds : List Nat) : (s.toggleAll ds).1.height = s.height := by
  induction ds generalizing s with
  | nil => rfl
  | cons d ds ih => rw [toggleAll_cons, ih, height_toggle]

/-- A pixel ends up inverted where its offset occurs an odd number of times. -/
theorem isLit_toggleAll (s : Screen) (ds : List Nat) {e : Nat} (h : e < s.width * s.height) :
    (s.toggleAll ds).1.isLit e = (s.isLit e ^^ (ds.count e % 2 == 1)) := by
  induction ds generalizing s with
  | nil => simp
  | cons d ds ih =>
    rw [toggleAll_cons]
    dsimp only
    rw [ih (s.toggle d) h, isLit_toggle, List.count_cons, Bool.xor_assoc]
    congr 1
    by_cases hd : d = e
    · subst e
      rcases Nat.mod_two_eq_zero_or_one (ds.count d) with hc | hc <;> simp [h, hc, Nat.add_mod]
    · simp [hd]

end Screen

end Chip8
