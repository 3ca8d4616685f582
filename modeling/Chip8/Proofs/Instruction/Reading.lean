import Chip8.Instruction.Mnemonic
import Chip8.Proofs.Numeral.Digits

/-!
Reading assembly text. Names and operands are made of letters, digits and brackets alone, so blanks
and commas take a text apart, and each part tells what it stands for.
-/

namespace Chip8

/-- That a text is made of letters, digits and brackets. -/
def Solid (s : String) : Prop :=
  s.toList.all (fun c => c.isAlphanum || c == '[' || c == ']')

namespace Solid

variable {s t : String} {c : Char}

theorem not_mem (hs : Solid s) (hc : (c.isAlphanum || c == '[' || c == ']') = false) :
    c ∉ s.toList := by
  intro h
  have htrue := List.all_eq_true.mp hs c h
  rw [hc] at htrue
  cases htrue

theorem append (hs : Solid s) (ht : Solid t) : Solid (s ++ t) := by
  rw [Solid, String.toList_append, List.all_append, Bool.and_eq_true]
  exact ⟨hs, ht⟩

private theorem isAlphanum_digit : ∀ d : Fin 16, (Numeral.digit d).isAlphanum = true := by
  decide

theorem decimal (n : Nat) : Solid (Numeral.decimal n) := by
  rw [Solid, Numeral.decimal, String.toList_ofList, List.all_eq_true]
  intro c hc
  obtain ⟨d, hd, rfl⟩ := Numeral.exists_digit_of_mem_digits (by decide) hc
  rw [isAlphanum_digit ⟨d, by omega⟩]
  rfl

theorem hex (width n : Nat) : Solid (Numeral.hex width n) := by
  rw [Solid, Numeral.hex, String.toList_ofList, List.all_eq_true]
  intro c hc
  obtain ⟨d, hd, rfl⟩ := Numeral.exists_digit_of_mem_padded (by decide) hc
  rw [isAlphanum_digit ⟨d, hd⟩]
  rfl

theorem operand (o : Operand) : Solid o.text := by
  cases o with
  | register x =>
    have hstart : Solid "v" := by simp [Solid]
    exact hstart.append (hex 1 _)
  | byte n => exact decimal _
  | address a =>
    have hstart : Solid "0x" := by simp [Solid]
    exact hstart.append (hex 3 _)
  | _ => simp [Operand.text, Solid]

theorem name (i : Instruction) : Solid i.name := by
  cases i with
  | skipIf c => cases c <;> simp [Instruction.name, Condition.name, Solid]
  | combine f => cases f <;> simp [Instruction.name, Arithmetic.name, Solid]
  | shift d => cases d <;> simp [Instruction.name, Direction.name, Solid]
  | _ => simp [Instruction.name, Solid]

end Solid

namespace Operand

/-- The operand that a text other than a decimal numeral stands for. -/
def ofSymbol? : List Char → Option Operand
  | 'v' :: ds => (Numeral.read? 16 ds).map fun n => .register (UInt8.ofNat n)
  | '0' :: 'x' :: ds => (Numeral.read? 16 ds).map fun n => .address (UInt16.ofNat n)
  | ['I'] => some .index
  | ['D', 'T'] => some .delayTimer
  | ['S', 'T'] => some .soundTimer
  | ['K'] => some .key
  | ['F'] => some .glyph
  | ['B'] => some .decimal
  | ['[', 'I', ']'] => some .memory
  | _ => none

/-- The operand that a text stands for. -/
def ofText? (cs : List Char) : Option Operand :=
  if cs.all Char.isDigit then (Numeral.read? 10 cs).map fun n => .byte (UInt8.ofNat n)
  else ofSymbol? cs

private theorem isDigit_digit : ∀ d : Fin 10, (Numeral.digit d).isDigit = true := by
  decide

theorem ofText?_digits (n : Nat) :
    ofText? (Numeral.digits 10 n) = some (.byte (UInt8.ofNat n)) := by
  have hdigits : (Numeral.digits 10 n).all Char.isDigit := by
    rw [List.all_eq_true]
    intro c hc
    obtain ⟨d, hd, rfl⟩ := Numeral.exists_digit_of_mem_digits (by decide) hc
    exact isDigit_digit ⟨d, hd⟩
  rw [ofText?, if_pos hdigits, Numeral.read?_digits (by decide) (by decide)]
  rfl

theorem ofText?_v (ds : List Char) : ofText? ('v' :: ds) =
    (Numeral.read? 16 ds).map fun n => .register (UInt8.ofNat n) :=
  rfl

theorem ofText?_zero_x (ds : List Char) : ofText? ('0' :: 'x' :: ds) =
    (Numeral.read? 16 ds).map fun n => .address (UInt16.ofNat n) :=
  rfl

/-- The text of an operand stands for it alone. -/
theorem ofText?_text (o : Operand) : ofText? o.text.toList = some o := by
  cases o with
  | register x =>
    have htext : (Operand.register x).text.toList = 'v' :: Numeral.padded 16 1 x.toNat := by
      simp [text, Numeral.hex]
    rw [htext, ofText?_v, Numeral.read?_padded_sixteen, Option.map_some, UInt8.ofNat_toNat]
  | byte n =>
    rw [text, Numeral.decimal, String.toList_ofList, ofText?_digits, UInt8.ofNat_toNat]
  | address a =>
    have htext : (address a).text.toList = '0' :: 'x' :: Numeral.padded 16 3 a.toNat := by
      simp [text, Numeral.hex]
    rw [htext, ofText?_zero_x, Numeral.read?_padded_sixteen, Option.map_some, UInt16.ofNat_toNat]
  | _ => simp [text, ofText?, ofSymbol?]

end Operand

namespace Instruction

/-- The instruction with a name and operands. -/
def ofParts? : String → List Operand → Option Instruction
  | "CLS", [] => some .clearScreen
  | "RET", [] => some .ret
  | "JP", [.address a] => some (.jump a)
  | "CALL", [.address a] => some (.call a)
  | "SE", [.register x, .byte n] => some (.skipIf (.equalsByte x n))
  | "SE", [.register x, .register y] => some (.skipIf (.equals x y))
  | "SNE", [.register x, .byte n] => some (.skipIf (.differsFromByte x n))
  | "SNE", [.register x, .register y] => some (.skipIf (.differs x y))
  | "SKP", [.register x] => some (.skipIf (.keyDown x))
  | "SKNP", [.register x] => some (.skipIf (.keyUp x))
  | "LD", [.register x, .byte n] => some (.loadByte x n)
  | "LD", [.register x, .register y] => some (.combine .copy x y)
  | "LD", [.index, .address a] => some (.loadIndex a)
  | "LD", [.register x, .delayTimer] => some (.readDelay x)
  | "LD", [.register x, .key] => some (.awaitKey x)
  | "LD", [.delayTimer, .register x] => some (.setDelay x)
  | "LD", [.soundTimer, .register x] => some (.setSound x)
  | "LD", [.glyph, .register x] => some (.pointAtGlyph x)
  | "LD", [.decimal, .register x] => some (.storeDecimal x)
  | "LD", [.memory, .register x] => some (.storeRegisters x)
  | "LD", [.register x, .memory] => some (.loadRegisters x)
  | "ADD", [.register x, .byte n] => some (.addByte x n)
  | "ADD", [.register x, .register y] => some (.combine .add x y)
  | "ADD", [.index, .register x] => some (.addToIndex x)
  | "OR", [.register x, .register y] => some (.combine .or x y)
  | "AND", [.register x, .register y] => some (.combine .and x y)
  | "XOR", [.register x, .register y] => some (.combine .xor x y)
  | "SUB", [.register x, .register y] => some (.combine .subtract x y)
  | "SUBN", [.register x, .register y] => some (.combine .subtractFrom x y)
  | "SHR", [.register x] => some (.shift .right x)
  | "SHL", [.register x] => some (.shift .left x)
  | "RND", [.register x, .byte n] => some (.random x n)
  | "DRW", [.register x, .register y, .byte n] => some (.draw x y n)
  | _, _ => none

theorem ofParts?_name_operands (i : Instruction) : ofParts? i.name i.operands = some i := by
  cases i with
  | skipIf c => cases c <;> rfl
  | combine f => cases f <;> rfl
  | shift d => cases d <;> rfl
  | _ => rfl

/-- The words of a text, without the commas between them. -/
def words (text : String) : List (List Char) :=
  (text.toList.filter (· ≠ ',')).splitOn ' '

/-- The instruction that an assembly text stands for. -/
def ofMnemonic? (text : String) : Option Instruction :=
  match words text with
  | [] => none
  | name :: operands => (operands.mapM Operand.ofText?).bind (ofParts? (String.ofList name))

private theorem filter_toList {s : String} (h : Solid s) :
    s.toList.filter (· ≠ ',') = s.toList := by
  rw [List.filter_eq_self]
  intro c hc
  rw [decide_eq_true_eq]
  rintro rfl
  exact h.not_mem rfl hc

private theorem filter_intercalate {ss : List String} (h : ∀ s ∈ ss, Solid s) :
    (", ".intercalate ss).toList.filter (· ≠ ',') =
      [' '].intercalate (ss.map String.toList) := by
  induction ss with
  | nil => rfl
  | cons s rest ih =>
    have hs : s.toList.filter (· ≠ ',') = s.toList := filter_toList (h s (.head _))
    have hrest := ih fun t ht => h t (.tail _ ht)
    cases rest with
    | nil => rw [String.intercalate_singleton, hs, List.map_singleton, List.intercalate_singleton]
    | cons t rest =>
      have hcomma : ", ".toList.filter (· ≠ ',') = [' '] := rfl
      rw [String.intercalate_cons_cons, String.toList_append, String.toList_append,
        List.filter_append, List.filter_append, hs, hcomma, hrest]
      exact List.intercalate_cons_cons.symm

theorem words_mnemonic (i : Instruction) :
    words i.mnemonic = (i.name :: i.operands.map Operand.text).map String.toList := by
  have hoperands : ∀ s ∈ i.operands.map Operand.text, Solid s := by
    intro s hs
    obtain ⟨o, -, rfl⟩ := List.mem_map.mp hs
    exact .operand o
  have hsolid : ∀ s ∈ i.name :: i.operands.map Operand.text, Solid s :=
    List.forall_mem_cons.mpr ⟨.name i, hoperands⟩
  have hname := filter_toList (.name i)
  -- without its commas the text is the words with a blank between any two
  have hwords : i.mnemonic.toList.filter (· ≠ ',') =
      [' '].intercalate ((i.name :: i.operands.map Operand.text).map String.toList) := by
    unfold mnemonic
    split
    case h_1 h =>
      rw [hname, h]
      exact List.intercalate_singleton.symm
    case h_2 os hne =>
      obtain ⟨o, os, hos⟩ := List.exists_cons_of_ne_nil hne
      have hblank : " ".toList.filter (· ≠ ',') = [' '] := rfl
      rw [String.toList_append, String.toList_append, List.filter_append, List.filter_append, hname,
        hblank, filter_intercalate hoperands, hos]
      exact List.intercalate_cons_cons.symm
  rw [words, hwords, List.splitOn_intercalate]
  · intro l hl
    obtain ⟨s, hs, rfl⟩ := List.mem_map.mp hl
    exact (hsolid s hs).not_mem rfl
  · exact List.cons_ne_nil _ _

/-- The text of an instruction stands for it alone. -/
theorem ofMnemonic?_mnemonic (i : Instruction) : ofMnemonic? i.mnemonic = some i := by
  have hoperands : ((i.operands.map Operand.text).map String.toList).mapM Operand.ofText? =
      some i.operands := by
    rw [List.map_map, List.mapM_map]
    have htext : Operand.ofText? ∘ String.toList ∘ Operand.text = pure :=
      funext Operand.ofText?_text
    rw [htext]
    exact List.mapM_pure.trans (congrArg some (List.map_id _))
  rw [ofMnemonic?, words_mnemonic]
  show Option.bind (List.mapM _ _) _ = _
  rw [hoperands, String.ofList_toList, Option.bind_some, ofParts?_name_operands]

theorem mnemonic_inj {i j : Instruction} : i.mnemonic = j.mnemonic ↔ i = j := by
  constructor
  · intro h
    have hread := ofMnemonic?_mnemonic i
    rw [h, ofMnemonic?_mnemonic] at hread
    exact (Option.some.inj hread).symm
  · rintro rfl
    rfl

end Instruction

end Chip8
