import Chip8.FramePrinter
import Chip8.Proofs.Instruction.Reading
import Chip8.Proofs.Screen.Views

/-!
Frames that are lost. Every frame is counted, also one on which the writer fails, so the headings of
those written tell which are missing, and the text is read back into the pictures that it shows.
-/

namespace Chip8

/-- A screen to present, and why the writer fails on it if it does. -/
structure Presentation where
  screen : Screen
  failure : Option String := none

namespace Presentation

variable {cs : List Presentation} {s : Screen} {k n : Nat}

/-- The screens on which the writer does not fail, each with its place, counted from `n`. -/
def shownFrom (n : Nat) (cs : List Presentation) : List (Nat × Screen) :=
  (cs.zipIdx n).filterMap fun (c, k) => if c.failure = none then some (k, c.screen) else none

theorem shownFrom_written (n : Nat) (s : Screen) (cs : List Presentation) :
    shownFrom n (⟨s, none⟩ :: cs) = (n, s) :: shownFrom (n + 1) cs :=
  List.filterMap_cons_some rfl

theorem shownFrom_lost (n : Nat) (s : Screen) (reason : String) (cs : List Presentation) :
    shownFrom n (⟨s, some reason⟩ :: cs) = shownFrom (n + 1) cs :=
  List.filterMap_cons_none rfl

theorem mem_shownFrom_iff : (n + k, s) ∈ shownFrom n cs ↔ cs[k]? = some ⟨s, none⟩ := by
  rw [shownFrom, List.mem_filterMap]
  constructor
  · rintro ⟨⟨⟨t, failure⟩, j⟩, hmem, h⟩
    obtain ⟨rfl, h⟩ := Option.ite_none_right_eq_some.mp h
    obtain ⟨rfl, rfl⟩ := Prod.mk.inj (Option.some.inj h)
    exact List.mk_add_mem_zipIdx_iff_getElem?.mp hmem
  · intro h
    exact ⟨(⟨s, none⟩, n + k), List.mk_add_mem_zipIdx_iff_getElem?.mpr h, rfl⟩

end Presentation

namespace FramePrinter

open Presentation

variable {cs ds : List Presentation} {rows : List (List Bool)} {s : Screen} {w h : Nat}

/-- Presents screens one after the other, and gives the messages logged for each. -/
def presentAll (p : FramePrinter) : List Presentation → FramePrinter × List (List String)
  | [] => (p, [])
  | c :: rest =>
    let first := p.present c.screen c.failure
    let others := first.1.presentAll rest
    (others.1, first.2 :: others.2)

theorem presentAll_eq (p : FramePrinter) (cs : List Presentation) :
    p.presentAll cs =
      ({ frames := p.frames + cs.length
         written := p.written ++
           String.join ((shownFrom (p.frames + 1) cs).map fun (n, s) => frameText n s) },
        cs.map fun c => c.failure.toList.map lossText) := by
  induction cs generalizing p with
  | nil => simp [presentAll, shownFrom]
  | cons c rest ih =>
    obtain ⟨s, failure⟩ := c
    have hcount : p.frames + 1 + rest.length = p.frames + (rest.length + 1) := by omega
    rw [presentAll, ih, List.length_cons, ← hcount]
    cases failure with
    | none =>
      rw [shownFrom_written, List.map_cons, String.join_cons, ← String.append_assoc]
      rfl
    | some reason =>
      rw [shownFrom_lost]
      rfl

/-- The lines of a frame. -/
def frameLines (n : Nat) (s : Screen) : List (List Char) :=
  ("frame " ++ Numeral.decimal n).toList :: s.textLines

theorem toList_frameText (n : Nat) (s : Screen) :
    (frameText n s).toList = Text.unlines (frameLines n s) := by
  rw [frameText, frameLines, Text.unlines_cons, String.toList_append, String.toList_append,
    Screen.toList_text, List.append_assoc]
  rfl

theorem newline_not_mem_frameLines {n : Nat} {line : List Char} (hl : line ∈ frameLines n s) :
    '\n' ∉ line := by
  rcases List.mem_cons.mp hl with rfl | hl
  · have hnumber : '\n' ∉ (Numeral.decimal n).toList := (Solid.decimal n).not_mem rfl
    rw [String.toList_append, List.mem_append]
    exact not_or.mpr ⟨by decide, hnumber⟩
  · exact Screen.newline_not_mem_textLines hl

/-- Takes one more line, from the last to the first, to the rows that still lack a heading and the
pictures with one. -/
def gather (line : List Char) :
    List (List Bool) × List (Nat × List (List Bool)) →
      List (List Bool) × List (Nat × List (List Bool))
  | (rows, pictures) =>
    if line.head? = some 'f' then
      ([], ((Numeral.read? 10 (line.drop 6)).getD 0, rows) :: pictures)
    else (Screen.rowOfLine line :: rows, pictures)

/-- The numbered pictures that a text shows. -/
def picturesOf (text : String) : List (Nat × List (List Bool)) :=
  ((text.toList.splitOn '\n').dropLast.foldr gather ([], [])).2

theorem gather_heading (n : Nat) (rows : List (List Bool))
    (pictures : List (Nat × List (List Bool))) :
    gather ("frame " ++ Numeral.decimal n).toList (rows, pictures) =
      ([], (n, rows) :: pictures) := by
  have hheading : ("frame " ++ Numeral.decimal n).toList =
      'f' :: 'r' :: 'a' :: 'm' :: 'e' :: ' ' :: Numeral.digits 10 n := by
    have hnumber : (Numeral.decimal n).toList = Numeral.digits 10 n := String.toList_ofList
    rw [String.toList_append, hnumber]
    rfl
  have hread : Numeral.read? 10 (Numeral.digits 10 n) = some n :=
    Numeral.read?_digits (by decide) (by decide) n
  rw [hheading, gather, if_pos List.head?_cons]
  simp only [List.drop_succ_cons, List.drop_zero, hread, Option.getD_some]

theorem foldr_gather_rows {lines : List (List Char)}
    (hl : ∀ line ∈ lines, ∀ c ∈ line, c = '#' ∨ c = '.')
    (pictures : List (Nat × List (List Bool))) :
    lines.foldr gather ([], pictures) = (lines.map Screen.rowOfLine, pictures) := by
  induction lines with
  | nil => rfl
  | cons line rest ih =>
    have hrow : line.head? ≠ some 'f' := by
      intro hf
      rcases hl line (.head _) 'f' (List.mem_of_head? hf) with h | h <;> cases h
    rw [List.foldr_cons, ih fun l hmem => hl l (.tail _ hmem), gather, if_neg hrow, List.map_cons]

theorem foldr_gather_frames (shown : List (Nat × Screen)) :
    (shown.flatMap fun (n, s) => frameLines n s).foldr gather ([], []) =
      ([], shown.map fun (n, s) => (n, s.rows)) := by
  induction shown with
  | nil => rfl
  | cons frame rest ih =>
    obtain ⟨n, s⟩ := frame
    rw [List.flatMap_cons, List.foldr_append, ih]
    show (frameLines n s).foldr gather _ = _
    rw [frameLines, List.foldr_cons, foldr_gather_rows fun line => Screen.mem_textLines,
      gather_heading, Screen.map_rowOfLine_textLines, List.map_cons]

/-- The text of a new printer, as lines. -/
theorem toList_written (cs : List Presentation) :
    (presentAll {} cs).1.written.toList =
      Text.unlines ((shownFrom 1 cs).flatMap fun (n, s) => frameLines n s) := by
  have hwritten : (presentAll {} cs).1.written =
      String.join ((shownFrom 1 cs).map fun (n, s) => frameText n s) := by
    rw [presentAll_eq]
    exact String.empty_append
  rw [hwritten]
  induction shownFrom 1 cs with
  | nil => rfl
  | cons frame rest ih =>
    rw [List.map_cons, String.join_cons, String.toList_append, ih, List.flatMap_cons,
      Text.unlines_append, toList_frameText]

theorem picturesOf_written (cs : List Presentation) :
    picturesOf (presentAll {} cs).1.written = (shownFrom 1 cs).map fun (n, s) => (n, s.rows) := by
  have hline : ∀ line ∈ (shownFrom 1 cs).flatMap fun (n, s) => frameLines n s, '\n' ∉ line := by
    intro line hl
    obtain ⟨frame, -, hl⟩ := List.mem_flatMap.mp hl
    exact newline_not_mem_frameLines hl
  rw [picturesOf, toList_written, Text.splitOn_unlines hline, List.dropLast_concat,
    foldr_gather_frames]

/-- A written screen is found in every list of presentations with the same text and screens of the
same size. -/
theorem getElem?_of_written_eq {k : Nat}
    (hsize : ∀ c ∈ cs ++ ds, c.screen.width = w ∧ c.screen.height = h)
    (ht : (presentAll {} cs).1.written = (presentAll {} ds).1.written)
    (hk : cs[k]? = some ⟨s, none⟩) : ds[k]? = some ⟨s, none⟩ := by
  have hpictures : (shownFrom 1 cs).map (fun (n, s) => (n, s.rows)) =
      (shownFrom 1 ds).map fun (n, s) => (n, s.rows) := by
    rw [← picturesOf_written, ht, picturesOf_written]
  have hmem : (1 + k, s.rows) ∈ (shownFrom 1 ds).map fun (n, s) => (n, s.rows) := by
    rw [← hpictures]
    exact List.mem_map.mpr ⟨(1 + k, s), mem_shownFrom_iff.mpr hk, rfl⟩
  obtain ⟨⟨n, t⟩, hshown, heq⟩ := List.mem_map.mp hmem
  obtain ⟨rfl, hrows⟩ := Prod.mk.inj heq
  have hkd : ds[k]? = some ⟨t, none⟩ := mem_shownFrom_iff.mp hshown
  obtain ⟨hw, hh⟩ := hsize _ (List.mem_append_left _ (List.mem_of_getElem? hk))
  obtain ⟨hw', hh'⟩ := hsize _ (List.mem_append_right _ (List.mem_of_getElem? hkd))
  have hsame : t = s := Screen.eq_of_rows (hw'.trans hw.symm) (hh'.trans hh.symm) hrows
  rw [hkd, hsame]

/-- A new printer counts every presentation and writes, in order, the heading with the number of the
presentation and the text of the screen for those on which the writer does not fail; for each of the
others it logs one warning. The numbers and the pictures can be read off the text. So for screens of
one size, even one without pixels, the text tells which presentations were written and the screens
of these. -/
theorem text_tells_losses (cs : List Presentation) :
    (presentAll {} cs).1.frames = cs.length ∧
    (presentAll {} cs).1.written = String.join ((shownFrom 1 cs).map fun (n, s) =>
      "frame " ++ Numeral.decimal n ++ "\n" ++ s.text) ∧
    (presentAll {} cs).2 = cs.map (fun c => c.failure.toList.map fun reason =>
      "WARN failed to present frame: " ++ reason) ∧
    (∀ k s, (1 + k, s) ∈ shownFrom 1 cs ↔ cs[k]? = some ⟨s, none⟩) ∧
    picturesOf (presentAll {} cs).1.written = (shownFrom 1 cs).map (fun (n, s) => (n, s.rows)) ∧
    ∀ (ds : List Presentation) w h, (∀ c ∈ cs ++ ds, c.screen.width = w ∧ c.screen.height = h) →
      (presentAll {} cs).1.written = (presentAll {} ds).1.written →
      ∀ (k : Nat) s, cs[k]? = some ⟨s, none⟩ ↔ ds[k]? = some ⟨s, none⟩ := by
  have hall := presentAll_eq {} cs
  refine ⟨?_, ?_, ?_, fun _ _ => mem_shownFrom_iff, picturesOf_written cs, ?_⟩
  · rw [hall]
    exact Nat.zero_add _
  · rw [hall]
    exact String.empty_append
  · rw [hall]
    rfl
  · intro ds w h hsize ht k s
    have hsize' : ∀ c ∈ ds ++ cs, c.screen.width = w ∧ c.screen.height = h := fun c hc =>
      hsize c (List.mem_append.mpr (List.mem_append.mp hc).symm)
    exact ⟨getElem?_of_written_eq hsize ht, getElem?_of_written_eq hsize' ht.symm⟩

/-- Two lists of presentations with the same text, of which one goes on after the last picture that
is written. -/
theorem text_tells_losses_in_between : ∃ (s t : Screen) (cs ds : List Presentation),
    s = ((Screen.dark 4 2).blit .linear 1 0 [0x80]).1 ∧ t = Screen.dark 4 2 ∧
    cs = [⟨s, none⟩, ⟨t, some "sink closed"⟩, ⟨t, none⟩, ⟨s, some "sink closed"⟩] ∧
    ds = [⟨s, none⟩, ⟨s, some "broken pipe"⟩, ⟨t, none⟩] ∧
    (presentAll {} cs).1.frames = 4 ∧
    (presentAll {} cs).1.written = "frame 1\n.#..\n....\nframe 3\n....\n....\n" ∧
    (presentAll {} cs).2 = [[], ["WARN failed to present frame: sink closed"], [],
      ["WARN failed to present frame: sink closed"]] ∧
    picturesOf "frame 1\n.#..\n....\nframe 3\n....\n....\n" = [(1, s.rows), (3, t.rows)] ∧
    (cs[2]? = some ⟨t, none⟩ ↔ ds[2]? = some ⟨t, none⟩) := by
  obtain ⟨s, hs⟩ : ∃ s, s = ((Screen.dark 4 2).blit .linear 1 0 [0x80]).1 := ⟨_, rfl⟩
  obtain ⟨t, ht⟩ : ∃ t, t = Screen.dark 4 2 := ⟨_, rfl⟩
  obtain ⟨cs, hcs⟩ : ∃ cs : List Presentation, cs =
      [⟨s, none⟩, ⟨t, some "sink closed"⟩, ⟨t, none⟩, ⟨s, some "sink closed"⟩] := ⟨_, rfl⟩
  obtain ⟨ds, hds⟩ : ∃ ds : List Presentation, ds =
      [⟨s, none⟩, ⟨s, some "broken pipe"⟩, ⟨t, none⟩] := ⟨_, rfl⟩
  obtain ⟨hcount, htext, hlogs, -, hread, hsame⟩ := text_tells_losses cs
  obtain ⟨-, htext', -⟩ := text_tells_losses ds
  have hpictures : s.text = ".#..\n....\n" ∧ t.text = "....\n....\n" := by
    rw [hs, ht]
    decide +kernel
  have hwritten : (presentAll {} cs).1.written =
      "frame 1\n.#..\n....\nframe 3\n....\n....\n" := by
    rw [htext, hcs]
    simp [shownFrom, hpictures]
    rfl
  have hwritten' : (presentAll {} ds).1.written =
      "frame 1\n.#..\n....\nframe 3\n....\n....\n" := by
    rw [htext', hds]
    simp [shownFrom, hpictures]
    rfl
  have hsize : ∀ c ∈ cs ++ ds, c.screen.width = 4 ∧ c.screen.height = 2 := by
    have hsizes : (s.width = 4 ∧ s.height = 2) ∧ t.width = 4 ∧ t.height = 2 := by
      rw [hs, ht]
      decide
    simp [hcs, hds, hsizes]
  refine ⟨s, t, cs, ds, hs, ht, hcs, hds, ?_, hwritten, ?_, ?_, ?_⟩
  · rw [hcount, hcs]
    rfl
  · rw [hlogs, hcs]
    rfl
  · rw [← hwritten, hread, hcs]
    rfl
  · exact hsame ds 4 2 hsize (hwritten.trans hwritten'.symm) 2 t

end FramePrinter

end Chip8
