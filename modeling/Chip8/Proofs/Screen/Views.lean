import Chip8.Proofs.Screen.Separation
import Chip8.Proofs.Text.Lines

/-!
The views of a screen. Rows, numbers and text are tables of the pixels, and the text is read back,
unless the room asked for it is more than there is.
-/

namespace Chip8.Screen

variable {α β : Type} {s t : Screen} {w h : Nat} {f : Nat → Nat → α}

/-- That a list of rows has `h` rows of `w` entries each, of which entry `x` of row `y` is
`f x y`. -/
structure IsTable (rows : List (List α)) (w h : Nat) (f : Nat → Nat → α) : Prop where
  length_eq : rows.length = h
  length_row : ∀ row ∈ rows, row.length = w
  entry_eq : ∀ x y, x < w → y < h → (rows[y]?.bind fun row => row[x]?) = some (f x y)

/-- The entries may be told in another way. -/
theorem IsTable.map {rows : List (List α)} (hr : IsTable rows w h f) (g : α → β) :
    IsTable (rows.map fun row => row.map g) w h fun x y => g (f x y) where
  length_eq := by rw [List.length_map, hr.length_eq]
  length_row row hrow := by
    obtain ⟨r, hmem, rfl⟩ := List.mem_map.mp hrow
    rw [List.length_map, hr.length_row r hmem]
  entry_eq x y hx hy := by
    have hentry := hr.entry_eq x y hx hy
    obtain ⟨row, hrow, hrowx⟩ := Option.bind_eq_some_iff.mp hentry
    rw [List.getElem?_map, hrow, Option.map_some, Option.bind_some, List.getElem?_map, hrowx,
      Option.map_some]

theorem flatten_pieces (n : Nat) (xs : List α) : (pieces n xs).flatten = xs := by
  induction xs using pieces.induct n with
  | case1 => rw [pieces, List.flatten_nil]
  | case2 x rest ih =>
    rw [pieces, List.flatten_cons, ih, List.cons_append, List.take_append_drop]

theorem pieces_of_pos (hw : 0 < w) {xs : List α} (hx : xs ≠ []) :
    pieces w xs = xs.take w :: pieces w (xs.drop w) := by
  obtain ⟨k, rfl⟩ := Nat.exists_eq_succ_of_ne_zero (Nat.ne_of_gt hw)
  obtain ⟨x, rest, rfl⟩ := List.exists_cons_of_ne_nil hx
  rw [pieces, Nat.succ_sub_one, List.take_succ_cons, List.drop_succ_cons]

/-- What divides evenly has pieces of equal length. -/
theorem pieces_eq (hw : 0 < w) {xs : List α} (hx : xs.length = h * w) :
    pieces w xs = (List.range h).map fun y => (xs.drop (y * w)).take w := by
  induction h generalizing xs with
  | zero =>
    have hnil : xs = [] := List.eq_nil_of_length_eq_zero (hx.trans (Nat.zero_mul w))
    rw [hnil, pieces]
    rfl
  | succ h ih =>
    rw [Nat.succ_mul] at hx
    have hne : xs ≠ [] := List.ne_nil_of_length_pos (by omega)
    have hrest : (xs.drop w).length = h * w := by
      rw [List.length_drop]
      omega
    rw [pieces_of_pos hw hne, ih hrest, List.range_succ_eq_map, List.map_cons, List.map_map,
      Nat.zero_mul, List.drop_zero]
    congr 1
    refine List.map_congr_left fun y _ => ?_
    rw [List.drop_drop, Function.comp_apply, Nat.succ_mul, Nat.add_comm]

theorem isTable_rows (hw : 0 < s.width) : IsTable s.rows s.width s.height s.get := by
  have hlength : s.pixels.toList.length = s.height * s.width := by
    rw [Vector.length_toList, Nat.mul_comm]
  have hrows : s.rows =
      (List.range s.height).map fun y => (s.pixels.toList.drop (y * s.width)).take s.width :=
    pieces_eq hw hlength
  constructor
  · rw [hrows, List.length_map, List.length_range]
  · intro row hrow
    rw [hrows] at hrow
    obtain ⟨y, hy, rfl⟩ := List.mem_map.mp hrow
    have hfull : (y + 1) * s.width ≤ s.height * s.width :=
      Nat.mul_le_mul_right _ (List.mem_range.mp hy)
    rw [Nat.succ_mul] at hfull
    rw [List.length_take, List.length_drop, hlength]
    omega
  · intro x y hx hy
    have hlt : y * s.width + x < s.width * s.height := offset_lt hx hy
    rw [hrows, List.getElem?_map, List.getElem?_range hy, Option.map_some, Option.bind_some,
      List.getElem?_take_of_lt hx, List.getElem?_drop, get_of_lt hx hy, isLit,
      Vector.getElem?_toList, Vector.getElem?_eq_getElem hlt, Option.getD_some]

/-- The lines of the text of a screen. -/
def textLines (s : Screen) : List (List Char) :=
  s.rows.map fun row => row.map fun lit => if lit then '#' else '.'

theorem toList_text (s : Screen) : s.text.toList = Text.unlines s.textLines := by
  have hlines : s.text =
      (s.rows.map rowText).foldl (fun text line => text ++ line ++ "\n") "" := by
    rw [List.foldl_map]
    rfl
  rw [hlines, Text.toList_foldl_lines, List.map_map]
  exact congrArg Text.unlines (List.map_congr_left fun row _ => String.toList_ofList)

theorem mem_textLines {line : List Char} (hl : line ∈ s.textLines) :
    ∀ c ∈ line, c = '#' ∨ c = '.' := by
  obtain ⟨row, -, rfl⟩ := List.mem_map.mp hl
  intro c hc
  obtain ⟨lit, -, rfl⟩ := List.mem_map.mp hc
  cases lit
  · exact .inr rfl
  · exact .inl rfl

theorem newline_not_mem_textLines {line : List Char} (hl : line ∈ s.textLines) : '\n' ∉ line := by
  intro hc
  rcases mem_textLines hl _ hc with h | h <;> cases h

/-- The row that a line shows. -/
def rowOfLine (line : List Char) : List Bool :=
  line.map (· == '#')

theorem map_rowOfLine_textLines (s : Screen) : s.textLines.map rowOfLine = s.rows := by
  have hrow : ∀ row ∈ s.rows,
      rowOfLine (row.map fun lit => if lit then '#' else '.') = row := by
    intro row _
    rw [rowOfLine, List.map_map]
    refine List.map_id'' (fun lit => ?_) row
    cases lit <;> rfl
  rw [textLines, List.map_map]
  exact (List.map_congr_left hrow).trans (List.map_id _)

/-- The rows that the text of a screen shows, without what follows the last newline. -/
def rowsOfText (text : String) : List (List Bool) :=
  (text.toList.splitOn '\n').dropLast.map rowOfLine

theorem rowsOfText_text (s : Screen) : rowsOfText s.text = s.rows := by
  have hline : ∀ line ∈ s.textLines, '\n' ∉ line := fun _ => newline_not_mem_textLines
  rw [rowsOfText, toList_text, Text.splitOn_unlines hline, List.dropLast_concat,
    map_rowOfLine_textLines]

/-- A screen of known size is known by its rows. -/
theorem eq_of_rows (hw : s.width = t.width) (hh : s.height = t.height) (hr : s.rows = t.rows) :
    s = t := by
  have hpixels : s.pixels.toList = t.pixels.toList := by
    rw [← flatten_pieces s.width s.pixels.toList, ← flatten_pieces t.width t.pixels.toList]
    exact congrArg List.flatten hr
  obtain ⟨w, k, p⟩ := s
  obtain ⟨w', k', q⟩ := t
  obtain rfl : w = w' := hw
  obtain rfl : k = k' := hh
  congr 1
  exact Vector.toList_inj.mp hpixels

theorem get_of_outside {x y : Nat} (hxy : s.width ≤ x ∨ s.height ≤ y) : s.get x y = false := by
  unfold get
  rw [if_neg]
  omega

theorem rows_of_empty (hs : s.width = 0 ∨ s.height = 0) : s.rows = [] := by
  have hlength : s.pixels.toList.length = 0 := by
    rw [Vector.length_toList, Nat.mul_eq_zero]
    exact hs
  rw [rows, List.eq_nil_of_length_eq_zero hlength, pieces]

/-- Whether rows and numbers are tables of the pixels; a screen without pixels has none of them, and
positions off the screen are dark. -/
structure PixelsAgree (s : Screen) : Prop where
  rows_isTable : 0 < s.width → IsTable s.rows s.width s.height s.get
  grid_isTable : 0 < s.width →
    IsTable s.toGrid s.width s.height fun x y => if s.get x y then 1 else 0
  get_outside : ∀ x y, s.width ≤ x ∨ s.height ≤ y → s.get x y = false
  of_empty : s.width = 0 ∨ s.height = 0 →
    s.rows = [] ∧ s.toGrid = [] ∧ ∀ x y, s.get x y = false

theorem pixelsAgree (s : Screen) : s.PixelsAgree where
  rows_isTable := isTable_rows
  grid_isTable hw := (isTable_rows hw).map fun lit => if lit then 1 else 0
  get_outside _ _ := get_of_outside
  of_empty hs := by
    have hrows : s.rows = [] := rows_of_empty hs
    refine ⟨hrows, ?_, fun x y => get_of_outside (by omega)⟩
    rw [toGrid, hrows, List.map_nil]

/-- Whether a text shows the pixels of a screen in lines; the rows can be read off it, and no other
screen of the same size is dumped as this text. -/
structure Shows (text : String) (s : Screen) : Prop where
  toList_eq : text.toList = Text.unlines s.textLines
  lines_isTable : 0 < s.width →
    IsTable s.textLines s.width s.height fun x y => if s.get x y then '#' else '.'
  of_empty : s.width = 0 ∨ s.height = 0 → text = ""
  rows_eq : rowsOfText text = s.rows
  unique : ∀ t : Screen, t.width = s.width → t.height = s.height → t.dump? = some text → t = s

theorem shows_text (s : Screen) : Shows s.text s where
  toList_eq := s.toList_text
  lines_isTable hw := (isTable_rows hw).map fun lit => if lit then '#' else '.'
  of_empty hs := by rw [text, rows_of_empty hs, List.foldl_nil]
  rows_eq := s.rowsOfText_text
  unique t hw hh ht := by
    have htext : t.text = s.text := (dump?_eq_some_iff.mp ht).2
    have hrows : t.rows = s.rows := by rw [← rowsOfText_text, htext, rowsOfText_text]
    exact eq_of_rows hw hh hrows

/-- Whether a screen can be dumped, as a text that shows it. -/
def TextAgrees (s : Screen) : Prop :=
  ∃ text, s.dump? = some text ∧ Shows text s

theorem textAgrees_of_dump? (h : s.dump? = some s.text) : s.TextAgrees :=
  ⟨s.text, h, s.shows_text⟩

/-- On every screen, whatever was drawn on it, the views of the pixels agree. So does the text
exactly if it can be had: if a line is shorter than `2 ^ 64` and the lines that the height asks for,
there or not, are less than `2 ^ 63` bytes. Every size that machines may have is such a size. -/
theorem views_agree_iff (s : Screen) :
    s.PixelsAgree ∧
    (s.TextAgrees ↔ s.width + 1 < 18446744073709551616 ∧
      (s.width + 1) * s.height < 9223372036854775808) ∧
    (isAllowedSize s.width s.height = true → s.TextAgrees) := by
  refine ⟨s.pixelsAgree, ⟨fun ⟨text, htext, _⟩ => ?_, fun ⟨hline, hroom⟩ => ?_⟩, fun hs => ?_⟩
  · obtain ⟨⟨hline, hroom⟩, -⟩ := dump?_eq_some_iff.mp htext
    exact ⟨hline, Nat.lt_succ_of_le hroom⟩
  · exact textAgrees_of_dump? (dump?_eq_some_iff.mpr ⟨⟨hline, Nat.le_of_lt_succ hroom⟩, rfl⟩)
  · exact textAgrees_of_dump? (dump?_of_isAllowedSize hs)

/-- A picture that is drawn in two ways, of which the second goes around both edges, and a screen of
three rows without columns. -/
theorem views_agree_around_edges : ∃ s t,
    s = ((dark 4 2).blit .linear 0 0 [0xA0, 0x50]).1 ∧
    t = ((dark 4 2).clear.blit .wrap 3 1 [0xA0, 0x50]).1 ∧
    s.dump? = some "#.#.\n.#.#\n" ∧ t = s ∧
    (s.toGrid[1]?.bind fun row => row[3]?) = some 1 ∧ s.get 4 0 = false ∧
    rowsOfText "#.#.\n.#.#\n" = s.rows ∧ (dark 0 3).dump? = some "" := by
  obtain ⟨s, hs⟩ : ∃ s, s = ((dark 4 2).blit .linear 0 0 [0xA0, 0x50]).1 := ⟨_, rfl⟩
  obtain ⟨t, ht⟩ : ∃ t, t = ((dark 4 2).clear.blit .wrap 3 1 [0xA0, 0x50]).1 := ⟨_, rfl⟩
  have hdump : s.dump? = some "#.#.\n.#.#\n" ∧ t.dump? = some "#.#.\n.#.#\n" := by
    rw [hs, ht]
    decide +kernel
  have hlit : s.get 3 1 = true := by rw [hs]; decide
  have hw : s.width = 4 ∧ t.width = 4 := by rw [hs, ht]; exact ⟨rfl, rfl⟩
  have hh : s.height = 2 ∧ t.height = 2 := by rw [hs, ht]; exact ⟨rfl, rfl⟩
  obtain ⟨hpixels, -, hallowed⟩ := views_agree_iff s
  obtain ⟨text, htext, hshows⟩ := hallowed (by rw [hw.1, hh.1]; decide)
  obtain rfl := Option.some.inj (htext.symm.trans hdump.1)
  obtain ⟨-, hempty, -⟩ := views_agree_iff (dark 0 3)
  obtain ⟨text, htext, hshows'⟩ := hempty.mpr (by decide)
  refine ⟨s, t, hs, ht, hdump.1, ?_, ?_, ?_, hshows.rows_eq, ?_⟩
  · exact hshows.unique t (hw.2.trans hw.1.symm) (hh.2.trans hh.1.symm) hdump.2
  · rw [(hpixels.grid_isTable (by omega)).entry_eq 3 1 (by omega) (by omega), hlit]
    rfl
  · exact hpixels.get_outside 4 0 (by omega)
  · rw [htext, hshows'.of_empty (.inl rfl)]

/-- A screen without columns has no pixels, but can be too high to be dumped. -/
theorem not_textAgrees_without_columns : ∃ s, ofSize? 0 18446744073709551615 = some s ∧
    s.rows = [] ∧ s.toGrid = [] ∧ (∀ x y, s.get x y = false) ∧ s.dump? = none ∧
      ¬ s.TextAgrees := by
  have hsize : ofSize? 0 18446744073709551615 = some (dark 0 18446744073709551615) :=
    if_pos (by rw [Nat.zero_mul]; exact Nat.zero_le _)
  have hdump : (dark 0 18446744073709551615).dump? = none := if_neg (by decide)
  obtain ⟨hrows, hgrid, hget⟩ := (pixelsAgree (dark 0 18446744073709551615)).of_empty (.inl rfl)
  refine ⟨_, hsize, hrows, hgrid, hget, hdump, fun ⟨text, htext, _⟩ => ?_⟩
  rw [hdump] at htext
  cases htext

end Chip8.Screen
