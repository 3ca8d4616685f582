import Chip8.Machine
import Chip8.Proofs.Instruction.Encoding
import Chip8.Proofs.Listing.Recovery

/-!
Instructions recognised by their text. No two have the same one, so the lines of listings and traces
tell them, and words with the same text differ in nothing but what the decoder ignores.
-/

namespace Chip8

variable {w v : UInt16} {i j : Instruction}

namespace Word

/-- Whether two words are the same but for what the decoder ignores: the lowest nibble of form 5,
and the one before it in shifts. -/
def AgreesUpToIgnored (w v : UInt16) : Prop :=
  w = v ∨
    (w.toNat / 4096 = 0x5 ∧ w.toNat / 16 = v.toNat / 16) ∨
    (w.toNat / 4096 = 0x8 ∧ (w.toNat % 16 = 0x6 ∨ w.toNat % 16 = 0xE) ∧
      w.toNat / 256 = v.toNat / 256 ∧ w.toNat % 16 = v.toNat % 16)

theorem x_congr (h : w.toNat / 256 % 16 = v.toNat / 256 % 16) : x w = x v :=
  x_eq (h.trans (toNat_x v).symm)

theorem y_congr (h : w.toNat / 16 % 16 = v.toNat / 16 % 16) : y w = y v :=
  y_eq (h.trans (toNat_y v).symm)

end Word

namespace Instruction

theorem decode?_of_form_five (h : w.toNat / 4096 = 0x5) :
    decode? w = some (.skipIf (.equals (Word.x w) (Word.y w))) := by
  have hf : Word.form w = 0x5 := h
  simp only [decode?, hf]

theorem decode?_of_direction {d : Direction} (h : w.toNat / 4096 = 0x8)
    (hd : w.toNat % 16 = d.code) : decode? w = some (.shift d (Word.x w)) := by
  have hx : (Word.x w).toNat = w.toNat / 256 % 16 := Word.toNat_x w
  have hy : (Word.y w).toNat = w.toNat / 16 % 16 := Word.toNat_y w
  exact @decode?_of_shift w _ (Word.y w) d (by omega) (by omega) (by omega)

theorem decode?_congr (h : Word.AgreesUpToIgnored w v) : decode? w = decode? v := by
  rcases h with rfl | ⟨hf, hw⟩ | ⟨hf, hd, hx, hn⟩
  · rfl
  · have hx : Word.x w = Word.x v := Word.x_congr (by omega)
    have hy : Word.y w = Word.y v := Word.y_congr (by omega)
    rw [decode?_of_form_five hf, decode?_of_form_five (by omega), hx, hy]
  · obtain ⟨d, hd⟩ : ∃ d : Direction, w.toNat % 16 = d.code :=
      hd.elim (fun h => ⟨.right, h⟩) fun h => ⟨.left, h⟩
    have hx : Word.x w = Word.x v := Word.x_congr (by omega)
    rw [decode?_of_direction hf hd, decode?_of_direction (by omega) (hn.symm.trans hd), hx]

/-- Where a nibble is ignored, the form and the digits of the instruction tell which one. -/
theorem ignored_cases (i : Instruction) : i.ignored = 0 ∨
    (i.ignored = 0x01 ∧ i.form = 0x5 ∧ i.digits % 0x10 = 0) ∨
    (i.ignored = 0x10 ∧ i.form = 0x8 ∧ (i.digits % 0x100 = 0x6 ∨ i.digits % 0x100 = 0xE)) := by
  cases i with
  | skipIf c =>
    cases c with
    | equals x y =>
      refine .inr (.inl ⟨rfl, rfl, ?_⟩)
      simp only [digits]
      omega
    | _ => exact .inl rfl
  | shift d x =>
    refine .inr (.inr ⟨rfl, rfl, ?_⟩)
    cases d <;> simp only [digits, Direction.code] <;> omega
  | _ => exact .inl rfl

theorem agreesUpToIgnored_of_decode? (hw : decode? w = some i) (hv : decode? v = some i) :
    Word.AgreesUpToIgnored w v := by
  obtain ⟨-, hform, k, hk, hdigits⟩ := encoded_of_decode? hw
  obtain ⟨-, hform', k', hk', hdigits'⟩ := encoded_of_decode? hv
  -- the nibbles `k` and `k'` are all that the words can differ in
  rcases i.ignored_cases with h | ⟨h, hf, hd⟩ | ⟨h, hf, hd⟩
  · rw [h] at hdigits hdigits'
    exact .inl (UInt16.toNat_inj.mp (by omega))
  · rw [h] at hdigits hdigits'
    exact .inr (.inl (by omega))
  · rw [h] at hdigits hdigits'
    exact .inr (.inr (by omega))

theorem mnemonic_eq_iff (hw : decode? w = some i) (hv : decode? v = some j) :
    i.mnemonic = j.mnemonic ↔ Word.AgreesUpToIgnored w v := by
  rw [mnemonic_inj]
  constructor
  · rintro rfl
    exact agreesUpToIgnored_of_decode? hw hv
  · intro h
    rw [decode?_congr h, hv] at hw
    exact (Option.some.inj hw).symm

end Instruction

namespace Listing

/-- The instruction whose text follows the first `n` blanks of a line. -/
def instruction? (n : Nat) (line : String) : Option Instruction :=
  Instruction.ofMnemonic? (String.ofList (afterBlanks n line.toList))

theorem instruction?_append (n : Nat) {s : String} (h : ' ' ∉ s.toList) (rest : String) :
    instruction? (n + 1) (s ++ " " ++ rest) = instruction? n rest := by
  rw [instruction?, afterBlanks_append n h, instruction?]

theorem instruction?_zero (text : String) : instruction? 0 text = Instruction.ofMnemonic? text := by
  rw [instruction?, afterBlanks, String.ofList_toList]

theorem ofMnemonic?_wordText (w : UInt16) :
    Instruction.ofMnemonic? (wordText w) = Instruction.decode? w := by
  unfold wordText
  cases Instruction.decode? w with
  | none => decide +kernel
  | some i => exact i.ofMnemonic?_mnemonic

/-- The line of a word tells its instruction, or that it has none. -/
theorem instruction?_wordLine (a : Nat) (w : UInt16) :
    instruction? 2 (wordLine a w) = Instruction.decode? w := by
  have hword : ' ' ∉ (Numeral.hex 4 w.toNat).toList := (Solid.hex 4 _).not_mem rfl
  rw [wordLine_eq, instruction?_append 1 (blank_not_mem_addressText a), instruction?_append 0 hword,
    instruction?_zero, ofMnemonic?_wordText]

private theorem trace_eq (address word text : String) :
    "TRACE " ++ address ++ ": " ++ word ++ " " ++ text =
      "TRACE" ++ " " ++ (address ++ ":" ++ " " ++ (word ++ " " ++ text)) := by
  simp only [← String.toList_inj, String.toList_append]
  simp

theorem instruction?_trace (a : Nat) (w : UInt16) (i : Instruction) :
    instruction? 3 (Event.executing a w i).text = some i := by
  have htext : (Event.executing a w i).text = "TRACE" ++ " " ++
      (Numeral.hex 4 a ++ ":" ++ " " ++ (Numeral.hex 4 w.toNat ++ " " ++ i.mnemonic)) :=
    trace_eq _ _ _
  have haddress : ' ' ∉ (Numeral.hex 4 a ++ ":").toList := by
    have h : ' ' ∉ (Numeral.hex 4 a).toList := (Solid.hex 4 a).not_mem rfl
    simp [h]
  have hword : ' ' ∉ (Numeral.hex 4 w.toNat).toList := (Solid.hex 4 _).not_mem rfl
  rw [htext, instruction?_append 2 (by simp), instruction?_append 1 haddress,
    instruction?_append 0 hword, instruction?_zero, Instruction.ofMnemonic?_mnemonic]

end Listing

namespace Instruction

/-- Instructions with the same text are the same, whatever their operands, and can be read off the
lines of listings and traces. Words that are instructions have the same text exactly if they agree
up to the nibbles that the decoder ignores. -/
theorem mnemonics_tell_instructions :
    (∀ i j : Instruction, i.mnemonic = j.mnemonic → i = j) ∧
    (∀ a w, Listing.instruction? 2 (Listing.wordLine a w) = decode? w) ∧
    (∀ a w i, Listing.instruction? 3 (Event.executing a w i).text = some i) ∧
    (∀ w v i j, decode? w = some i → decode? v = some j →
      (i.mnemonic = j.mnemonic ↔ Word.AgreesUpToIgnored w v)) :=
  ⟨fun _ _ => mnemonic_inj.mp, Listing.instruction?_wordLine, Listing.instruction?_trace,
    fun _ _ _ _ => mnemonic_eq_iff⟩

/-- Two words of a shift, and two of a copy that differ in the same nibble. -/
theorem mnemonics_tell_instructions_but_ignored :
    (∃ i j, decode? 0x8126 = some i ∧ decode? 0x81F6 = some j ∧ i.mnemonic = j.mnemonic ∧ i = j) ∧
      ∃ i j, decode? 0x8120 = some i ∧ decode? 0x81F0 = some j ∧ i.mnemonic ≠ j.mnemonic := by
  obtain ⟨hinj, -, -, hwords⟩ := mnemonics_tell_instructions
  have hshift := (hwords 0x8126 0x81F6 _ _ rfl rfl).mpr
    (.inr (.inr ⟨by decide, .inl (by decide), by decide, by decide⟩))
  have hcopy := (hwords 0x8120 0x81F0 _ _ rfl rfl).not.mpr ?_
  · exact ⟨⟨_, _, rfl, rfl, hshift, hinj _ _ hshift⟩, _, _, rfl, rfl, hcopy⟩
  · unfold Word.AgreesUpToIgnored
    decide

end Instruction

end Chip8
