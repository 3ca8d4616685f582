/-!
The monochrome screen: a grid of pixels stored row by row, and its views as rows, numbers and text.
-/

namespace Chip8

structure Screen where
  width : Nat
  height : Nat
  pixels : Vector Bool (width * height)

namespace Screen

def maxPixels : Nat := 65536

/-- Whether a machine may have a screen of this size. -/
def isAllowedSize (width height : Nat) : Bool :=
  0 < width * height && width * height ≤ maxPixels

theorem isAllowedSize_iff {width height : Nat} : isAllowedSize width height = true ↔
    0 < width * height ∧ width * height ≤ maxPixels := by
  simp only [isAllowedSize, Bool.and_eq_true, decide_eq_true_eq]

def dark (width height : Nat) : Screen :=
  ⟨width, height, Vector.replicate (width * height) false⟩

def clear (s : Screen) : Screen :=
  { s with pixels := Vector.replicate (s.width * s.height) false }

/-- Whether the pixel at a row-major offset is lit; offsets past the end are dark. -/
def isLit (s : Screen) (d : Nat) : Bool :=
  s.pixels[d]?.getD false

/-- Inverts the pixel at a row-major offset. -/
def toggle (s : Screen) (d : Nat) : Screen :=
  { s with pixels := s.pixels.setIfInBounds d (!s.isLit d) }

theorem isLit_of_le (s : Screen) {d : Nat} (h : s.width * s.height ≤ d) : s.isLit d = false := by
  simp [isLit, h]

/-- A screen is its size and its lit offsets. -/
theorem ext {s t : Screen} (hw : s.width = t.width) (hh : s.height = t.height)
    (h : ∀ d, s.isLit d = t.isLit d) : s = t := by
  obtain ⟨w, k, p⟩ := s
  obtain ⟨w', k', q⟩ := t
  obtain rfl : w = w' := hw
  obtain rfl : k = k' := hh
  congr 1
  refine Vector.ext fun d hd => ?_
  simpa [isLit, hd] using h d

@[simp]
theorem isLit_dark (width height d : Nat) : (dark width height).isLit d = false := by
  change (Vector.replicate (width * height) false)[d]?.getD false = false
  rw [Vector.getElem?_replicate]
  split <;> rfl

@[simp]
theorem isLit_clear (s : Screen) (d : Nat) : s.clear.isLit d = false :=
  isLit_dark s.width s.height d

@[simp]
theorem width_toggle (s : Screen) (d : Nat) : (s.toggle d).width = s.width := rfl

@[simp]
theorem height_toggle (s : Screen) (d : Nat) : (s.toggle d).height = s.height := rfl

theorem isLit_toggle (s : Screen) (d e : Nat) :
    (s.toggle d).isLit e = (s.isLit e ^^ decide (d = e ∧ d < s.width * s.height)) := by
  change (s.pixels.setIfInBounds d (!s.isLit d))[e]?.getD false = _
  rw [Vector.getElem?_setIfInBounds]
  by_cases h : d = e
  · subst e
    by_cases hd : d < s.width * s.height <;> simp [isLit, hd]
  · simp [isLit, h]

/-- Whether the pixel in column `x` of row `y` is lit; positions off the screen are dark. -/
def get (s : Screen) (x y : Nat) : Bool :=
  if x < s.width ∧ y < s.height then s.isLit (x + y * s.width) else false

/-- Cuts a list into pieces of length `n`, the last of which may be shorter; a length of zero
counts as one. -/
def pieces {α : Type} (n : Nat) (xs : List α) : List (List α) :=
  match xs with
  | [] => []
  | x :: rest => (x :: rest.take (n - 1)) :: pieces n (rest.drop (n - 1))
termination_by xs.length
decreasing_by simp only [List.length_drop, List.length_cons]; omega

def rows (s : Screen) : List (List Bool) :=
  pieces s.width s.pixels.toList

/-- The rows with one for a lit pixel and zero for a dark one. -/
def toGrid (s : Screen) : List (List Nat) :=
  s.rows.map fun row => row.map fun lit => if lit then 1 else 0

def rowText (row : List Bool) : String :=
  String.ofList (row.map fun lit => if lit then '#' else '.')

def text (s : Screen) : String :=
  s.rows.foldl (fun text row => text ++ rowText row ++ "\n") ""

/-- The most bytes that may be asked for at once. -/
def maxBytes : Nat := 9223372036854775807

/-- A dark screen, none if its pixels are more bytes than may be asked for. -/
def ofSize? (width height : Nat) : Option Screen :=
  if width * height ≤ maxBytes then some (dark width height) else none

/-- The bytes asked for before the text is written: a line for each unit of height, whether or not
there are columns. -/
def textBytes (s : Screen) : Nat :=
  (s.width + 1) * s.height

/-- The text, none if the bytes asked for are too many or the length of a line passes 64 bits. -/
def dump? (s : Screen) : Option String :=
  if s.width + 1 < UInt64.size ∧ s.textBytes ≤ maxBytes then some s.text else none

theorem dump?_eq_some_iff {s : Screen} {text : String} : s.dump? = some text ↔
    (s.width + 1 < UInt64.size ∧ s.textBytes ≤ maxBytes) ∧ s.text = text := by
  rw [dump?, Option.ite_none_right_eq_some, Option.some.injEq]

/-- Neither side of a screen is empty, so neither is longer than all its pixels. -/
theorem bounds_of_isAllowedSize {s : Screen} (hs : isAllowedSize s.width s.height = true) :
    0 < s.width ∧ 0 < s.height ∧ s.width ≤ 65536 ∧ s.height ≤ 65536 ∧
      s.width * s.height ≤ 65536 := by
  obtain ⟨hpos, hle⟩ := isAllowedSize_iff.mp hs
  have hw : 0 < s.width := Nat.pos_of_mul_pos_right hpos
  have hh : 0 < s.height := Nat.pos_of_mul_pos_left hpos
  exact ⟨hw, hh, Nat.le_trans (Nat.le_mul_of_pos_right _ hh) hle,
    Nat.le_trans (Nat.le_mul_of_pos_left _ hw) hle, hle⟩

/-- The screens that machines may have can be dumped. -/
theorem dump?_of_isAllowedSize {s : Screen} (hs : isAllowedSize s.width s.height = true) :
    s.dump? = some s.text := by
  obtain ⟨-, -, hw, hh, hpixels⟩ := bounds_of_isAllowedSize hs
  refine dump?_eq_some_iff.mpr ⟨⟨?_, ?_⟩, rfl⟩
  · rw [UInt64.size]
    omega
  · rw [textBytes, maxBytes, Nat.succ_mul]
    omega

end Screen

end Chip8
