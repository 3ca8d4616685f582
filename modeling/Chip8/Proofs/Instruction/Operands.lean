import Chip8.Instruction.Decode

/-!
Operands of decoded words: registers are numbered below sixteen, addresses fit twelve bits and
sprites have fewer than sixteen rows. The highest nibble of a word tells the form of its
instruction.
-/

namespace Chip8

namespace Word

theorem toNat_ofBytes (high low : UInt8) :
    (ofBytes high low).toNat = high.toNat * 256 + low.toNat := by
  have hh := high.toNat_lt
  have hl := low.toNat_lt
  rw [ofBytes, UInt16.toNat_ofNat']
  omega

theorem toNat_x (w : UInt16) : (x w).toNat = w.toNat / 256 % 16 := by
  rw [x, UInt8.toNat_ofNat']
  omega

theorem toNat_y (w : UInt16) : (y w).toNat = w.toNat / 16 % 16 := by
  rw [y, UInt8.toNat_ofNat']
  omega

theorem toNat_nibble (w : UInt16) : (nibble w).toNat = w.toNat % 16 := by
  rw [nibble, UInt8.toNat_ofNat']
  omega

theorem toNat_byte (w : UInt16) : (byte w).toNat = w.toNat % 256 := by
  rw [byte, UInt8.toNat_ofNat']
  omega

theorem toNat_address (w : UInt16) : (address w).toNat = w.toNat % 4096 := by
  rw [address, UInt16.toNat_ofNat']
  omega

end Word

def Condition.registers : Condition → List UInt8
  | .equalsByte x _ | .differsFromByte x _ | .keyDown x | .keyUp x => [x]
  | .equals x y | .differs x y => [x, y]

namespace Instruction

/-- The registers that an instruction names. -/
def registers : Instruction → List UInt8
  | .clearScreen | .ret | .jump _ | .call _ | .loadIndex _ => []
  | .skipIf c => c.registers
  | .combine _ x y | .draw x y _ => [x, y]
  | .loadByte x _ | .addByte x _ | .shift _ x | .random x _ | .readDelay x | .awaitKey x
  | .setDelay x | .setSound x | .addToIndex x | .pointAtGlyph x | .storeDecimal x
  | .storeRegisters x | .loadRegisters x => [x]

/-- Whether all operands are in range: registers exist, addresses fit twelve bits and the rows of a
sprite fit a nibble. -/
structure InRange (i : Instruction) : Prop where
  register : ∀ x ∈ i.registers, x.toNat < 16
  address : ∀ a, i = .jump a ∨ i = .call a ∨ i = .loadIndex a → a.toNat < 4096
  rows : ∀ x y n, i = .draw x y n → n.toNat < 16

private theorem inRange_arithmetic {w : UInt16} {i : Instruction} (h : arithmetic? w = some i) :
    i.InRange := by
  have hx : (Word.x w).toNat < 16 := by rw [Word.toNat_x]; omega
  have hy : (Word.y w).toNat < 16 := by rw [Word.toNat_y]; omega
  unfold arithmetic? at h
  split at h
  all_goals simp only [reduceCtorEq, Option.some.injEq] at h
  all_goals
    subst h
    constructor <;> simp [registers, hx, hy]

private theorem inRange_device {w : UInt16} {i : Instruction} (h : device? w = some i) :
    i.InRange := by
  have hx : (Word.x w).toNat < 16 := by rw [Word.toNat_x]; omega
  unfold device? at h
  split at h
  all_goals simp only [reduceCtorEq, Option.some.injEq] at h
  all_goals
    subst h
    constructor <;> simp [registers, hx]

theorem inRange_of_decode? {w : UInt16} {i : Instruction} (h : decode? w = some i) :
    i.InRange := by
  have hx : (Word.x w).toNat < 16 := by rw [Word.toNat_x]; omega
  have hy : (Word.y w).toNat < 16 := by rw [Word.toNat_y]; omega
  have hn : (Word.nibble w).toNat < 16 := by rw [Word.toNat_nibble]; omega
  have ha : (Word.address w).toNat < 4096 := by rw [Word.toNat_address]; omega
  unfold decode? at h
  split at h
  case h_9 => exact inRange_arithmetic h
  case h_15 => exact inRange_device h
  -- These forms need more of the word than its highest nibble.
  case' h_1 | h_10 | h_14 => split at h
  all_goals simp only [reduceCtorEq, Option.some.injEq] at h
  all_goals
    subst h
    constructor <;> simp [registers, Condition.registers, hx, hy, hn, ha]

/-- The highest nibble of the words that encode an instruction. -/
def form : Instruction → Nat
  | .clearScreen | .ret => 0x0
  | .jump _ => 0x1
  | .call _ => 0x2
  | .skipIf (.equalsByte ..) => 0x3
  | .skipIf (.differsFromByte ..) => 0x4
  | .skipIf (.equals ..) => 0x5
  | .loadByte .. => 0x6
  | .addByte .. => 0x7
  | .combine .. | .shift .. => 0x8
  | .skipIf (.differs ..) => 0x9
  | .loadIndex _ => 0xA
  | .random .. => 0xC
  | .draw .. => 0xD
  | .skipIf (.keyDown _) | .skipIf (.keyUp _) => 0xE
  | .readDelay _ | .awaitKey _ | .setDelay _ | .setSound _ | .addToIndex _ | .pointAtGlyph _
  | .storeDecimal _ | .storeRegisters _ | .loadRegisters _ => 0xF

private theorem form_arithmetic {w : UInt16} {i : Instruction} (h : arithmetic? w = some i) :
    i.form = 0x8 := by
  unfold arithmetic? at h
  split at h
  all_goals simp only [reduceCtorEq, Option.some.injEq] at h
  all_goals
    subst h
    rfl

private theorem form_device {w : UInt16} {i : Instruction} (h : device? w = some i) :
    i.form = 0xF := by
  unfold device? at h
  split at h
  all_goals simp only [reduceCtorEq, Option.some.injEq] at h
  all_goals
    subst h
    rfl

theorem form_of_decode? {w : UInt16} {i : Instruction} (h : decode? w = some i) :
    i.form = Word.form w := by
  unfold decode? at h
  split at h
  case h_9 hf => rw [hf, form_arithmetic h]
  case h_15 hf => rw [hf, form_device h]
  case' h_1 | h_10 | h_14 => split at h
  all_goals simp only [reduceCtorEq, Option.some.injEq] at h
  all_goals
    subst h
    simp only [form, *]

end Instruction

end Chip8
