/-!
Texts of lines. A text whose lines each end in a newline comes apart at its newlines again.
-/

namespace Chip8.Text

variable {ls : List (List Char)}

/-- Lines one after the other, each ended by a newline. -/
def unlines (ls : List (List Char)) : List Char :=
  ls.flatMap fun line => line ++ ['\n']

theorem unlines_cons (line : List Char) (ls : List (List Char)) :
    unlines (line :: ls) = line ++ '\n' :: unlines ls := by
  rw [unlines, List.flatMap_cons, List.append_assoc]
  rfl

theorem unlines_append (ls ms : List (List Char)) :
    unlines (ls ++ ms) = unlines ls ++ unlines ms :=
  List.flatMap_append

theorem toList_foldl_lines (before : String) (ls : List String) :
    (ls.foldl (fun text line => text ++ line ++ "\n") before).toList =
      before.toList ++ unlines (ls.map String.toList) := by
  induction ls generalizing before with
  | nil => exact (List.append_nil _).symm
  | cons line rest ih =>
    rw [List.foldl_cons, ih, String.toList_append, String.toList_append, List.map_cons,
      unlines_cons, List.append_assoc, List.append_assoc]
    rfl

/-- After the last newline there is an empty line. -/
theorem splitOn_unlines (h : ∀ line ∈ ls, '\n' ∉ line) :
    (unlines ls).splitOn '\n' = ls ++ [[]] := by
  induction ls with
  | nil => rfl
  | cons line rest ih =>
    have hrest := ih fun l hl => h l (.tail _ hl)
    have hline : ∀ c ∈ line, (c == '\n') = false := fun c hc => by
      rw [beq_eq_false_iff_ne]
      rintro rfl
      exact h line (.head _) hc
    rw [unlines_cons]
    exact (List.splitOnP_append_cons_of_forall_mem hline '\n' rfl _).trans
      (congrArg (line :: ·) hrest)

end Chip8.Text
