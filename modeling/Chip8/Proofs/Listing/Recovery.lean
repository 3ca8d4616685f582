import Chip8.Proofs.Listing.Lines
import Chip8.Proofs.Machine.History
import Mathlib.Data.List.TakeWhile

/-!
Listings read back. Blanks divide a line into columns; the bytes of the program stand in the second
one, two digits for each, so no listing belongs to two programs.
-/

namespace Chip8.Listing

variable {s : String} {cs : List Char}

/-- What follows the first `n` blanks of a line. -/
def afterBlanks : Nat → List Char → List Char
  | 0, cs => cs
  | n + 1, cs => afterBlanks n (cs.dropWhile (· ≠ ' ')).tail

/-- The bytes that pairs of hexadecimal digits stand for. -/
def bytesOfDigits : List Char → List UInt8
  | high :: low :: rest =>
    UInt8.ofNat ((Numeral.read? 16 [high, low]).getD 0) :: bytesOfDigits rest
  | _ => []

/-- The bytes in the second column of a line. -/
def lineBytes (line : List Char) : List UInt8 :=
  bytesOfDigits ((afterBlanks 1 line).takeWhile (· ≠ ' '))

/-- The program that a listing tells. -/
def program (text : String) : List UInt8 :=
  (text.toList.splitOn '\n').flatMap lineBytes

private theorem ne_of_not_mem (h : ' ' ∉ cs) : ∀ c ∈ cs, decide (c ≠ ' ') = true := by
  intro c hc
  rw [decide_eq_true_eq]
  rintro rfl
  exact h hc

theorem afterBlanks_append (n : Nat) (h : ' ' ∉ s.toList) (rest : String) :
    afterBlanks (n + 1) (s ++ " " ++ rest).toList = afterBlanks n rest.toList := by
  have htext : (s ++ " " ++ rest).toList = s.toList ++ ' ' :: rest.toList := by simp
  rw [htext, afterBlanks, List.dropWhile_append_of_pos (ne_of_not_mem h)]
  rfl

theorem blank_not_mem_addressText (a : Nat) : ' ' ∉ (addressText a).toList := by
  have hstart : Solid "0x" := by simp [Solid]
  exact (hstart.append (.hex 4 a)).not_mem rfl

theorem bytesOfDigits_byteText_append (b : UInt8) (cs : List Char) :
    bytesOfDigits ((byteText b).toList ++ cs) = b :: bytesOfDigits cs := by
  have hdigits := Numeral.padded_byte b.toNat_lt
  have hread := Numeral.read?_padded_sixteen 2 b.toNat
  rw [byteText, Numeral.hex, String.toList_ofList, hdigits]
  rw [hdigits] at hread
  show UInt8.ofNat ((Numeral.read? 16 [_, _]).getD 0) :: _ = _
  rw [hread, Option.getD_some, UInt8.ofNat_toNat]
  rfl

theorem bytesOfDigits_byteText (b : UInt8) : bytesOfDigits (byteText b).toList = [b] := by
  have h := bytesOfDigits_byteText_append b []
  rwa [List.append_nil] at h

theorem wordLine_eq (a : Nat) (w : UInt16) :
    wordLine a w = addressText a ++ " " ++ (Numeral.hex 4 w.toNat ++ " " ++ wordText w) := by
  simp only [wordLine, String.append_assoc]

theorem lineBytes_wordLine (a : Nat) (high low : UInt8) :
    lineBytes (wordLine a (Word.ofBytes high low)).toList = [high, low] := by
  have hword : ' ' ∉ (Numeral.hex 4 (Word.ofBytes high low).toNat).toList :=
    (Solid.hex 4 _).not_mem rfl
  have hcolumn : ((Numeral.hex 4 (Word.ofBytes high low).toNat ++ " " ++
      wordText (Word.ofBytes high low)).toList.takeWhile (· ≠ ' ')) =
      (byteText high).toList ++ (byteText low).toList := by
    rw [String.append_assoc, String.toList_append,
      List.takeWhile_append_of_pos (ne_of_not_mem hword), hex_ofBytes, String.toList_append,
      String.toList_append]
    exact List.append_nil _
  rw [lineBytes, wordLine_eq, afterBlanks_append 0 (blank_not_mem_addressText a), afterBlanks,
    hcolumn, bytesOfDigits_byteText_append, bytesOfDigits_byteText]

theorem lineBytes_byteLine (a : Nat) (b : UInt8) :
    lineBytes (addressText a ++ " " ++ byteText b).toList = [b] := by
  have hbyte : ' ' ∉ (byteText b).toList := (Solid.hex 2 _).not_mem rfl
  have hcolumn : (byteText b).toList.takeWhile (· ≠ ' ') = (byteText b).toList :=
    List.takeWhile_eq_self_iff.mpr (ne_of_not_mem hbyte)
  rw [lineBytes, afterBlanks_append 0 (blank_not_mem_addressText a), afterBlanks, hcolumn,
    bytesOfDigits_byteText]

theorem flatMap_lineBytes (a : Nat) (p : List UInt8) :
    (lines a p).flatMap (fun line => lineBytes line.toList) = p := by
  induction a, p using lines.induct with
  | case1 a high low rest ih =>
    rw [lines_cons_cons, List.flatMap_cons, lineBytes_wordLine, ih]
    rfl
  | case2 a b =>
    rw [lines, List.flatMap_singleton, lineBytes_byteLine]
  | case3 => rfl

/-- A listing tells its program. -/
theorem program_text (p : List UInt8) : program (text p) = p := by
  rw [program, splitOn_text, List.flatMap_append, List.flatMap_map, flatMap_lineBytes]
  exact List.append_nil p

theorem length_lines (a : Nat) (p : List UInt8) :
    (lines a p).length = p.length / 2 + p.length % 2 := by
  induction a, p using lines.induct with
  | case1 a high low rest ih =>
    rw [lines_cons_cons, List.length_cons, ih, List.length_cons, List.length_cons]
    omega
  | case2 a b => rw [lines, List.length_singleton, List.length_singleton]
  | case3 => rfl

theorem wordText_eq_marks_iff {w : UInt16} :
    wordText w = "???" ↔ Instruction.decode? w = none := by
  unfold wordText
  cases Instruction.decode? w with
  | none => exact iff_of_true rfl rfl
  | some i =>
    refine iff_of_false (fun h => ?_) (Option.some_ne_none i)
    have hmark : '?' ∈ i.mnemonic.toList := by
      rw [show i.mnemonic = "???" from h]
      decide
    exact (Unmarked.mnemonic i '?' hmark).1 rfl

/-- The words without a text are those that a running machine rejects. -/
theorem wordText_eq_marks_iff_rejected {m : Machine} (hs : m.status = .running) :
    wordText m.word = "???" ↔ m.step.result = .error (.unknownInstruction m.word) := by
  rw [wordText_eq_marks_iff]
  cases hd : Instruction.decode? m.word with
  | none =>
    rw [Machine.step_of_unknown hs hd]
    exact iff_of_true rfl rfl
  | some i =>
    refine iff_of_false (Option.some_ne_none i) fun h => ?_
    rw [Machine.step_of_decode? hs hd] at h
    rcases Machine.execute_eq_error_iff.mp h with ⟨-, -, hf⟩ | ⟨-, -, hf⟩
    · cases hf
    · cases hf

/-- That the text of a listing consists of the given lines, and what is in them: an address, then
the digits of a word and a text for it, or of a last byte alone. -/
structure Lists (p : List UInt8) (ls : List String) : Prop where
  splitOn_eq : (text p).toList.splitOn '\n' = ls.map String.toList ++ [[]]
  length_eq : ls.length = p.length / 2 + p.length % 2
  word_line : ∀ i, 2 * i + 1 < p.length → ls[i]? = some
    ("0x" ++ Numeral.hex 4 (0x200 + 2 * i) ++ " " ++ Numeral.hex 4 (wordAt p (2 * i)).toNat ++ " " ++
      wordText (wordAt p (2 * i)))
  last_line : ∀ i, p.length = 2 * i + 1 → ls[i]? = some
    ("0x" ++ Numeral.hex 4 (0x200 + 2 * i) ++ " " ++ Numeral.hex 2 (p.getD (2 * i) 0).toNat)

theorem lists_lines (p : List UInt8) : Lists p (lines 0x200 p) where
  splitOn_eq := splitOn_text p
  length_eq := length_lines _ p
  word_line _ h := getElem?_lines _ h
  last_line _ h := getElem?_lines_last _ h

/-- Every listing has a line for each pair of bytes and one for a last odd byte, at addresses of at
least four digits and of just four up to `0xFFFF`. The text of a line goes by its word, and is
question marks exactly for the words that a running machine rejects. The bytes of the program can be
read off its listing, so programs with the same listing are the same. -/
theorem listing_is_lossless (p : List UInt8) :
    Lists p (lines 0x200 p) ∧ program (text p) = p ∧ (∀ q, text q = text p → q = p) ∧
    (∀ a, 4 ≤ (Numeral.hex 4 a).length ∧ ((Numeral.hex 4 a).length = 4 ↔ a ≤ 0xFFFF) ∧
      Numeral.read? 16 (Numeral.hex 4 a).toList = some a) ∧
    (∀ w, wordText w = "???" ↔ Instruction.decode? w = none) ∧
    (∀ m : Machine, m.status = .running →
      (wordText m.word = "???" ↔ m.step.result = .error (.unknownInstruction m.word))) := by
  refine ⟨lists_lines p, program_text p, fun q h => ?_, fun a => ?_,
    fun _ => wordText_eq_marks_iff, fun _ => wordText_eq_marks_iff_rejected⟩
  · rw [← program_text q, h, program_text]
  · rw [Numeral.hex, String.length_ofList, String.toList_ofList, Numeral.length_padded_four_iff]
    exact ⟨Numeral.le_length_padded .., Nat.lt_succ_iff, Numeral.read?_padded_sixteen 4 a⟩

/-- An address of five digits, and a word that is rejected before a last byte. -/
theorem listing_is_lossless_past_word :
    (lines 0x200 (List.replicate 65025 0))[32512]? = some "0x10000 00" ∧
      (Numeral.hex 4 0x10000).length ≠ 4 ∧
      text [0xFF, 0xFF, 0x12] = "0x0200 FFFF ???\n0x0202 12\n" ∧
      program "0x0200 FFFF ???\n0x0202 12\n" = [0xFF, 0xFF, 0x12] ∧
      ∃ m, Machine.Reachable m ∧ m.word = 0xFFFF ∧
        m.step.result = .error (.unknownInstruction 0xFFFF) := by
  obtain ⟨hlarge, -, -, hdigits, -⟩ := listing_is_lossless (List.replicate 65025 0)
  obtain ⟨-, hprogram, -, -, hmarks, hrejected⟩ := listing_is_lossless [0xFF, 0xFF, 0x12]
  have htext : text [0xFF, 0xFF, 0x12] = "0x0200 FFFF ???\n0x0202 12\n" := by decide +kernel
  have hb := @Machine.Reachable.create {} (.ofSeed 0) _ rfl
  obtain ⟨m, hm, hs, hw⟩ : ∃ m, Machine.Reachable m ∧ m.status = .running ∧ m.word = 0xFFFF :=
    ⟨_, hb.after [.load [0xFF, 0xFF, 0x12]], by decide +kernel⟩
  refine ⟨?_, ?_, htext, ?_, m, hm, hw, ?_⟩
  · have hbyte : (List.replicate 65025 (0 : UInt8)).getD (2 * 32512) 0 = 0 := by
      rw [List.getD_eq_getElem?_getD, List.getElem?_replicate_of_lt (by decide), Option.getD_some]
    rw [hlarge.last_line 32512 List.length_replicate, hbyte]
    decide +kernel
  · rw [ne_eq, (hdigits 0x10000).2.1]
    decide
  · rw [← htext]
    exact hprogram
  · rw [← hw, ← hrejected m hs, hmarks, hw]
    rfl

end Chip8.Listing
