import Chip8.Listing
import Chip8.Proofs.Instruction.Operands
import Chip8.Proofs.Instruction.Reading
import Chip8.Proofs.Numeral.Digits
import Chip8.Proofs.Text.Lines

/-!
The lines of a listing. Each is a line of the text, because none has a newline in it, and a word is
no instruction exactly where its line ends in question marks, because no mnemonic has any.
-/

namespace Chip8

/-- That a text has neither a question mark nor a newline in it. -/
def Unmarked (s : String) : Prop :=
  ∀ c ∈ s.toList, c ≠ '?' ∧ c ≠ '\n'

namespace Unmarked

theorem append {s t : String} (hs : Unmarked s) (ht : Unmarked t) : Unmarked (s ++ t) := by
  intro c hc
  rw [String.toList_append] at hc
  exact (List.mem_append.mp hc).elim (hs c) (ht c)

theorem intercalate {sep : String} (hsep : Unmarked sep) {ss : List String}
    (h : ∀ s ∈ ss, Unmarked s) : Unmarked (sep.intercalate ss) := by
  induction ss with
  | nil => exact fun c hc => absurd hc List.not_mem_nil
  | cons s rest ih =>
    have hs : Unmarked s := h s (.head _)
    have hrest : Unmarked (sep.intercalate rest) := ih fun t ht => h t (.tail _ ht)
    cases rest with
    | nil => rwa [String.intercalate_singleton]
    | cons t rest =>
      rw [String.intercalate_cons_cons]
      exact (hs.append hsep).append hrest

theorem of_solid {s : String} (h : Solid s) : Unmarked s := by
  intro c hc
  constructor
  · rintro rfl
    exact h.not_mem rfl hc
  · rintro rfl
    exact h.not_mem rfl hc

theorem hex (width n : Nat) : Unmarked (Numeral.hex width n) :=
  of_solid (.hex width n)

theorem space : Unmarked " " := by
  simp [Unmarked]

theorem address (width a : Nat) : Unmarked ("0x" ++ Numeral.hex width a) := by
  have hstart : Unmarked "0x" := by simp [Unmarked]
  exact hstart.append (hex width a)

theorem mnemonic (i : Instruction) : Unmarked i.mnemonic := by
  have hcomma : Unmarked ", " := by simp [Unmarked]
  unfold Instruction.mnemonic
  split
  case h_1 => exact of_solid (.name i)
  case h_2 =>
    refine ((of_solid (.name i)).append space).append (intercalate hcomma fun s hs => ?_)
    obtain ⟨o, -, rfl⟩ := List.mem_map.mp hs
    exact of_solid (.operand o)

end Unmarked

namespace Listing

/-- The word at an offset of a program. -/
def wordAt (p : List UInt8) (k : Nat) : UInt16 :=
  Word.ofBytes (p.getD k 0) (p.getD (k + 1) 0)

/-- The line of a word at an address. -/
def wordLine (a : Nat) (w : UInt16) : String :=
  addressText a ++ " " ++ Numeral.hex 4 w.toNat ++ " " ++ wordText w

theorem hex_ofBytes (high low : UInt8) :
    Numeral.hex 4 (Word.ofBytes high low).toNat = byteText high ++ byteText low := by
  rw [Word.toNat_ofBytes, Numeral.hex, Numeral.padded_word _ low.toNat_lt, String.ofList_append]
  rfl

theorem lines_cons_cons (a : Nat) (high low : UInt8) (rest : List UInt8) :
    lines a (high :: low :: rest) =
      wordLine a (Word.ofBytes high low) :: lines (a + 2) rest := by
  rw [wordLine, hex_ofBytes, ← String.append_assoc]
  rfl

/-- What is left of the lines is the lines of what is left. -/
theorem drop_lines (a : Nat) (p : List UInt8) (i : Nat) :
    (lines a p).drop i = lines (a + 2 * i) (p.drop (2 * i)) := by
  induction a, p using lines.induct generalizing i with
  | case1 a high low rest ih =>
    cases i with
    | zero => rfl
    | succ i =>
      have hoffset : 2 * (i + 1) = 2 * i + 1 + 1 := by omega
      have haddress : a + (2 * i + 1 + 1) = a + 2 + 2 * i := by omega
      rw [lines_cons_cons, List.drop_succ_cons, ih, hoffset, haddress, List.drop_succ_cons,
        List.drop_succ_cons]
  | case2 a b =>
    cases i with
    | zero => rfl
    | succ i =>
      have hlen : [b].length ≤ 2 * (i + 1) := by
        rw [List.length_singleton]
        omega
      rw [List.drop_of_length_le hlen]
      exact List.drop_nil
  | case3 => rw [lines, List.drop_nil, List.drop_nil, lines]

theorem getElem?_lines (a : Nat) {p : List UInt8} {i : Nat} (h : 2 * i + 1 < p.length) :
    (lines a p)[i]? = some (wordLine (a + 2 * i) (wordAt p (2 * i))) := by
  have hhigh : 2 * i < p.length := by omega
  rw [← List.head?_drop, drop_lines, List.drop_eq_getElem_cons hhigh, List.drop_eq_getElem_cons h,
    lines_cons_cons, List.head?_cons, wordAt, List.getElem_eq_getD 0, List.getElem_eq_getD 0]

/-- A last odd byte has a line without a text. -/
theorem getElem?_lines_last (a : Nat) {p : List UInt8} {i : Nat} (h : p.length = 2 * i + 1) :
    (lines a p)[i]? = some (addressText (a + 2 * i) ++ " " ++ byteText (p.getD (2 * i) 0)) := by
  have hlast : 2 * i < p.length := by omega
  rw [← List.head?_drop, drop_lines, List.drop_eq_getElem_cons hlast,
    List.drop_of_length_le (Nat.le_of_eq h), List.getElem_eq_getD 0]
  rfl

theorem unmarked_address (a : Nat) : Unmarked (addressText a ++ " ") :=
  (Unmarked.address 4 a).append .space

theorem unmarked_word (a : Nat) (w : UInt16) :
    Unmarked (addressText a ++ " " ++ Numeral.hex 4 w.toNat ++ " ") :=
  ((unmarked_address a).append (.hex 4 _)).append .space

/-- A line ends in question marks exactly where its word is no instruction. -/
theorem marks_suffix_iff {a : Nat} {w : UInt16} :
    "???".toList <:+ (wordLine a w).toList ↔ Instruction.decode? w = none := by
  rw [wordLine]
  cases hd : Instruction.decode? w with
  | none =>
    rw [wordText, hd, String.toList_append]
    exact iff_of_true (List.suffix_append _ _) rfl
  | some i =>
    have hline := (unmarked_word a w).append (.mnemonic i)
    rw [wordText, hd]
    refine iff_of_false (fun h => ?_) (Option.some_ne_none i)
    have hmark : '?' ∈ "???".toList := by decide
    exact (hline '?' (h.mem hmark)).1 rfl

theorem newline_not_mem_wordLine (a : Nat) (w : UInt16) : '\n' ∉ (wordLine a w).toList := by
  have hword : '\n' ∉ (wordText w).toList := by
    unfold wordText
    split
    case h_1 i _ => exact fun h => (Unmarked.mnemonic i _ h).2 rfl
    case h_2 => decide
  rw [wordLine, String.toList_append, List.mem_append]
  exact not_or.mpr ⟨fun h => (unmarked_word a w _ h).2 rfl, hword⟩

theorem newline_not_mem_lines {a : Nat} {p : List UInt8} {line : String} (h : line ∈ lines a p) :
    '\n' ∉ line.toList := by
  induction a, p using lines.induct with
  | case1 a high low rest ih =>
    rw [lines_cons_cons] at h
    rcases List.mem_cons.mp h with rfl | hrest
    · exact newline_not_mem_wordLine a _
    · exact ih hrest
  | case2 a b =>
    obtain rfl := List.mem_singleton.mp h
    have hline := (unmarked_address a).append (.hex 2 b.toNat)
    exact fun hc => (hline _ hc).2 rfl
  | case3 => exact absurd h List.not_mem_nil

/-- The text of a listing splits into its lines and an empty one after the last newline. -/
theorem splitOn_text (p : List UInt8) : (text p).toList.splitOn '\n' =
    (lines Memory.programStart p).map String.toList ++ [[]] := by
  have hlines : ∀ line ∈ (lines Memory.programStart p).map String.toList, '\n' ∉ line := by
    intro line hline
    obtain ⟨l, hl, rfl⟩ := List.mem_map.mp hline
    exact newline_not_mem_lines hl
  rw [text, Text.toList_foldl_lines]
  exact Text.splitOn_unlines hlines

/-- A pair of bytes has a line of its own in the text. -/
theorem getElem?_splitOn_text {p : List UInt8} {i : Nat} (h : 2 * i + 1 < p.length) :
    ((text p).toList.splitOn '\n')[i]? =
      some (wordLine (Memory.programStart + 2 * i) (wordAt p (2 * i))).toList := by
  have hline := getElem?_lines Memory.programStart h
  have hlt : i < ((lines Memory.programStart p).map String.toList).length := by
    rw [List.length_map]
    exact (List.getElem?_eq_some_iff.mp hline).1
  rw [splitOn_text, List.getElem?_append_left hlt, List.getElem?_map, hline]
  rfl

end Listing

end Chip8
