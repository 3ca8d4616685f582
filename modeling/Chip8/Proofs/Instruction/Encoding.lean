import Chip8.Proofs.Instruction.Operands

/-!
Encodings. Every instruction has a word of its own, and the words that decode to it are those that
differ from it in a nibble which the decoder ignores.
-/

namespace Chip8

variable {w : UInt16} {x y n : UInt8} {a : UInt16}

namespace Word

theorem x_eq (h : w.toNat / 256 % 16 = x.toNat) : Word.x w = x :=
  UInt8.toNat_inj.mp ((toNat_x w).trans h)

theorem y_eq (h : w.toNat / 16 % 16 = y.toNat) : Word.y w = y :=
  UInt8.toNat_inj.mp ((toNat_y w).trans h)

theorem nibble_eq (h : w.toNat % 16 = n.toNat) : nibble w = n :=
  UInt8.toNat_inj.mp ((toNat_nibble w).trans h)

theorem byte_eq (h : w.toNat % 256 = n.toNat) : byte w = n :=
  UInt8.toNat_inj.mp ((toNat_byte w).trans h)

theorem address_eq (h : w.toNat % 4096 = a.toNat) : address w = a :=
  UInt16.toNat_inj.mp ((toNat_address w).trans h)

end Word

/-- The lowest nibble of the words that encode an operation. -/
def Arithmetic.code : Arithmetic → Nat
  | .copy => 0x0
  | .or => 0x1
  | .and => 0x2
  | .xor => 0x3
  | .add => 0x4
  | .subtract => 0x5
  | .subtractFrom => 0x7

def Direction.code : Direction → Nat
  | .right => 0x6
  | .left => 0xE

theorem Arithmetic.code_lt (f : Arithmetic) : f.code < 16 := by
  cases f <;> decide

theorem Direction.code_lt (d : Direction) : d.code < 16 := by
  cases d <;> decide

namespace Instruction

variable {i : Instruction} {k : Nat}

/-- The three lower nibbles of the word that encodes an instruction. -/
def digits : Instruction → Nat
  | .clearScreen => 0x0E0
  | .ret => 0x0EE
  | .jump a | .call a | .loadIndex a => a.toNat
  | .skipIf (.equalsByte x n) | .skipIf (.differsFromByte x n) | .loadByte x n | .addByte x n
  | .random x n => 0x100 * x.toNat + n.toNat
  | .skipIf (.equals x y) | .skipIf (.differs x y) => 0x100 * x.toNat + 0x10 * y.toNat
  | .combine f x y => 0x100 * x.toNat + 0x10 * y.toNat + f.code
  | .shift d x => 0x100 * x.toNat + d.code
  | .draw x y n => 0x100 * x.toNat + 0x10 * y.toNat + n.toNat
  | .skipIf (.keyDown x) => 0x100 * x.toNat + 0x9E
  | .skipIf (.keyUp x) => 0x100 * x.toNat + 0xA1
  | .readDelay x => 0x100 * x.toNat + 0x07
  | .awaitKey x => 0x100 * x.toNat + 0x0A
  | .setDelay x => 0x100 * x.toNat + 0x15
  | .setSound x => 0x100 * x.toNat + 0x18
  | .addToIndex x => 0x100 * x.toNat + 0x1E
  | .pointAtGlyph x => 0x100 * x.toNat + 0x29
  | .storeDecimal x => 0x100 * x.toNat + 0x33
  | .storeRegisters x => 0x100 * x.toNat + 0x55
  | .loadRegisters x => 0x100 * x.toNat + 0x65

/-- The place value of the nibble that the decoder ignores, zero where it reads them all. -/
def ignored : Instruction → Nat
  | .skipIf (.equals ..) => 0x01
  | .shift .. => 0x10
  | _ => 0

/-- Whether a word encodes an instruction: the decoder reads off it all but the nibble `k`. -/
structure Encoded (w : UInt16) (i : Instruction) : Prop where
  inRange : i.InRange
  form_eq : w.toNat / 0x1000 = i.form
  digits_eq : ∃ k < 16, w.toNat % 0x1000 = i.digits + i.ignored * k

private theorem digits_of_arithmetic? (h : arithmetic? w = some i) :
    w.toNat % 0x1000 = i.digits + i.ignored * (w.toNat / i.ignored % 16) := by
  have hx : (Word.x w).toNat = w.toNat / 256 % 16 := Word.toNat_x w
  have hy : (Word.y w).toNat = w.toNat / 16 % 16 := Word.toNat_y w
  unfold arithmetic? at h
  split at h
  all_goals simp only [reduceCtorEq, Option.some.injEq] at h
  all_goals
    subst h
    simp only [digits, ignored, Arithmetic.code, Direction.code]
    omega

private theorem digits_of_device? (h : device? w = some i) :
    w.toNat % 0x1000 = i.digits + i.ignored * (w.toNat / i.ignored % 16) := by
  have hx : (Word.x w).toNat = w.toNat / 256 % 16 := Word.toNat_x w
  unfold device? at h
  split at h
  all_goals simp only [reduceCtorEq, Option.some.injEq] at h
  all_goals
    subst h
    simp only [digits, ignored]
    omega

private theorem digits_of_decode? (h : decode? w = some i) :
    w.toNat % 0x1000 = i.digits + i.ignored * (w.toNat / i.ignored % 16) := by
  have hx : (Word.x w).toNat = w.toNat / 256 % 16 := Word.toNat_x w
  have hy : (Word.y w).toNat = w.toNat / 16 % 16 := Word.toNat_y w
  have hn : (Word.nibble w).toNat = w.toNat % 16 := Word.toNat_nibble w
  have hb : (Word.byte w).toNat = w.toNat % 256 := Word.toNat_byte w
  have ha : (Word.address w).toNat = w.toNat % 4096 := Word.toNat_address w
  unfold decode? at h
  split at h
  case h_9 => exact digits_of_arithmetic? h
  case h_15 => exact digits_of_device? h
  -- These forms need more of the word than its highest nibble.
  case' h_1 | h_10 | h_14 => split at h
  all_goals simp only [reduceCtorEq, Option.some.injEq] at h
  all_goals
    subst h
    simp only [digits, ignored]
    omega

theorem encoded_of_decode? (h : decode? w = some i) : Encoded w i where
  inRange := inRange_of_decode? h
  form_eq := (form_of_decode? h).symm
  digits_eq := ⟨w.toNat / i.ignored % 16, Nat.mod_lt _ (by decide), digits_of_decode? h⟩

private theorem arithmetic?_of_code {f : Arithmetic} (hx : Word.x w = x) (hy : Word.y w = y)
    (h : w.toNat % 16 = f.code) : arithmetic? w = some (.combine f x y) := by
  cases f <;> simp only [arithmetic?, h, hx, hy, Arithmetic.code]

private theorem arithmetic?_of_direction {d : Direction} (hx : Word.x w = x)
    (h : w.toNat % 16 = d.code) : arithmetic? w = some (.shift d x) := by
  cases d <;> simp only [arithmetic?, h, hx, Direction.code]

theorem Encoded.decode?_eq (h : Encoded w i) : decode? w = some i := by
  obtain ⟨hi, hform, k, hk, hlow⟩ := h
  have hf : Word.form w = i.form := hform
  cases i with
  | clearScreen =>
    simp only [form, digits, ignored] at hform hlow
    have hw : w.toNat = 0x00E0 := by omega
    simp only [decode?, hf, form, hw]
  | ret =>
    simp only [form, digits, ignored] at hform hlow
    have hw : w.toNat = 0x00EE := by omega
    simp only [decode?, hf, form, hw]
  | jump a | call a | loadIndex a =>
    simp only [digits, ignored] at hlow
    have ha : Word.address w = a := Word.address_eq (by omega)
    simp only [decode?, hf, form, ha]
  | skipIf c =>
    cases c with
    | equalsByte x n | differsFromByte x n =>
      have hn : n.toNat < 256 := n.toNat_lt
      simp only [digits, ignored] at hlow
      have hx : Word.x w = x := Word.x_eq (by omega)
      have hn : Word.byte w = n := Word.byte_eq (by omega)
      simp only [decode?, hf, form, hx, hn]
    | equals x y =>
      have hy : y.toNat < 16 := hi.register y (.tail _ (.head _))
      simp only [digits, ignored] at hlow
      have hx : Word.x w = x := Word.x_eq (by omega)
      have hy : Word.y w = y := Word.y_eq (by omega)
      simp only [decode?, hf, form, hx, hy]
    | differs x y =>
      have hy : y.toNat < 16 := hi.register y (.tail _ (.head _))
      simp only [digits, ignored] at hlow
      have hx : Word.x w = x := Word.x_eq (by omega)
      have hy : Word.y w = y := Word.y_eq (by omega)
      have hzero : w.toNat % 16 = 0 := by omega
      simp only [decode?, hf, form, hx, hy, if_pos hzero]
    | keyDown x =>
      simp only [digits, ignored] at hlow
      have hx : Word.x w = x := Word.x_eq (by omega)
      have hlow : w.toNat % 256 = 0x9E := by omega
      simp only [decode?, hf, form, hx, hlow]
    | keyUp x =>
      simp only [digits, ignored] at hlow
      have hx : Word.x w = x := Word.x_eq (by omega)
      have hlow : w.toNat % 256 = 0xA1 := by omega
      simp only [decode?, hf, form, hx, hlow]
  | loadByte x n | addByte x n | random x n =>
    have hn : n.toNat < 256 := n.toNat_lt
    simp only [digits, ignored] at hlow
    have hx : Word.x w = x := Word.x_eq (by omega)
    have hn : Word.byte w = n := Word.byte_eq (by omega)
    simp only [decode?, hf, form, hx, hn]
  | combine f x y =>
    have hy : y.toNat < 16 := hi.register y (.tail _ (.head _))
    have hcode : f.code < 16 := f.code_lt
    simp only [digits, ignored] at hlow
    have hx : Word.x w = x := Word.x_eq (by omega)
    have hy : Word.y w = y := Word.y_eq (by omega)
    have hcode : w.toNat % 16 = f.code := by omega
    simp only [decode?, hf, form, arithmetic?_of_code hx hy hcode]
  | shift d x =>
    have hcode : d.code < 16 := d.code_lt
    simp only [digits, ignored] at hlow
    have hx : Word.x w = x := Word.x_eq (by omega)
    have hcode : w.toNat % 16 = d.code := by omega
    simp only [decode?, hf, form, arithmetic?_of_direction hx hcode]
  | draw x y n =>
    have hy : y.toNat < 16 := hi.register y (.tail _ (.head _))
    have hn : n.toNat < 16 := hi.rows x y n rfl
    simp only [digits, ignored] at hlow
    have hx : Word.x w = x := Word.x_eq (by omega)
    have hy : Word.y w = y := Word.y_eq (by omega)
    have hn : Word.nibble w = n := Word.nibble_eq (by omega)
    simp only [decode?, hf, form, hx, hy, hn]
  | readDelay x | awaitKey x | setDelay x | setSound x | addToIndex x | pointAtGlyph x
  | storeDecimal x | storeRegisters x | loadRegisters x =>
    simp only [digits, ignored, Nat.zero_mul, Nat.add_zero] at hlow
    have hx : Word.x w = x := Word.x_eq (by omega)
    have hbyte : w.toNat % 256 = w.toNat % 0x1000 % 0x100 := by omega
    simp only [hlow, Nat.mul_add_mod, Nat.reduceMod] at hbyte
    simp only [decode?, hf, form, device?, hx, hbyte]

/-- A word decodes to an instruction exactly if it encodes it. -/
theorem decode?_eq_some_iff : decode? w = some i ↔ Encoded w i :=
  ⟨encoded_of_decode?, Encoded.decode?_eq⟩

/-- Where no nibble is ignored, an instruction is told by all digits of its word. -/
theorem decode?_of_digits (hi : i.InRange) (hk : i.ignored = 0) (hlt : i.digits < 0x1000)
    (hw : w.toNat = 0x1000 * i.form + i.digits) : decode? w = some i := by
  apply Encoded.decode?_eq
  refine ⟨hi, by omega, 0, by decide, ?_⟩
  rw [hk]
  omega

/-- An instruction with one register is told by its form, the register and the low byte. -/
theorem decode?_of_register (f low : Nat) (hf : i.form = f) (hr : i.registers = [x])
    (hk : i.ignored = 0) (hd : i.digits = 0x100 * x.toNat + low) (hx : x.toNat < 16)
    (hlow : low < 0x100) (hw : w.toNat = 0x1000 * f + 0x100 * x.toNat + low) :
    decode? w = some i := by
  have hi : i.InRange := by
    constructor
    case register =>
      intro y hy
      rw [hr, List.mem_singleton] at hy
      rwa [hy]
    case address =>
      rintro a (rfl | rfl | rfl) <;> cases hr
    case rows =>
      rintro x y n rfl
      cases hr
  apply decode?_of_digits hi hk
  · omega
  · rw [hf, hd]
    omega

theorem decode?_of_combine {f : Arithmetic} (hx : x.toNat < 16) (hy : y.toNat < 16)
    (hw : w.toNat = 0x8000 + 256 * x.toNat + 16 * y.toNat + f.code) :
    decode? w = some (.combine f x y) := by
  have hcode : f.code < 16 := f.code_lt
  apply decode?_of_digits ⟨by simp [registers, hx, hy], by simp, by simp⟩ rfl
  · simp only [digits]
    omega
  · simp only [form, digits]
    omega

theorem decode?_of_addByte (hx : x.toNat < 16) (hw : w.toNat / 256 = 0x70 + x.toNat) :
    decode? w = some (.addByte x (Word.byte w)) := by
  have hbyte : (Word.byte w).toNat = w.toNat % 256 := Word.toNat_byte w
  apply decode?_of_digits ⟨by simp [registers, hx], by simp, by simp⟩ rfl
  · simp only [digits]
    omega
  · simp only [form, digits]
    omega

/-- The words of a shift hold any nibble in place of `y`. -/
theorem decode?_of_shift {d : Direction} (hx : x.toNat < 16) (hy : y.toNat < 16)
    (hw : w.toNat = 0x8000 + 256 * x.toNat + 16 * y.toNat + d.code) :
    decode? w = some (.shift d x) := by
  have hcode : d.code < 16 := d.code_lt
  apply Encoded.decode?_eq
  refine ⟨⟨by simp [registers, hx], by simp, by simp⟩, ?_, y.toNat, hy, ?_⟩
  · simp only [form]
    omega
  · simp only [digits, ignored]
    omega

theorem decode?_eq_ret_iff : decode? w = some .ret ↔ w = 0x00EE := by
  constructor
  · intro h
    obtain ⟨-, hform, k, -, hlow⟩ := encoded_of_decode? h
    simp only [form, digits, ignored] at hform hlow
    exact UInt16.toNat_inj.mp (show w.toNat = 0x00EE by omega)
  · rintro rfl
    rfl

theorem decode?_eq_call_iff {a : UInt16} :
    decode? w = some (.call a) ↔ w.toNat / 4096 = 2 ∧ a = Word.address w := by
  constructor
  · intro h
    obtain ⟨-, hform, k, -, hlow⟩ := encoded_of_decode? h
    simp only [digits, ignored] at hlow
    exact ⟨hform, (Word.address_eq (by omega)).symm⟩
  · rintro ⟨hf, rfl⟩
    have hf : Word.form w = 2 := hf
    simp only [decode?, hf]

theorem decode?_eq_draw_iff {x y n : UInt8} :
    decode? w = some (.draw x y n) ↔ x.toNat < 16 ∧ y.toNat < 16 ∧ n.toNat < 16 ∧
      w.toNat = 0xD000 + 256 * x.toNat + 16 * y.toNat + n.toNat := by
  constructor
  · intro h
    obtain ⟨hi, hform, k, -, hlow⟩ := encoded_of_decode? h
    have hx : x.toNat < 16 := hi.register x (.head _)
    have hy : y.toNat < 16 := hi.register y (.tail _ (.head _))
    have hn : n.toNat < 16 := hi.rows x y n rfl
    simp only [form, digits, ignored] at hform hlow
    exact ⟨hx, hy, hn, by omega⟩
  · rintro ⟨hx, hy, hn, hw⟩
    apply decode?_of_digits ⟨by simp [registers, hx, hy], by simp, by simp [hn]⟩ rfl
    · simp only [digits]
      omega
    · simp only [form, digits]
      omega

/-- The words that look at a key have the register in their second nibble. -/
theorem decode?_of_key (hx : x.toNat < 16) (hw : w.toNat / 256 = 0xE0 + x.toNat) :
    (w.toNat % 256 = 0x9E → decode? w = some (.skipIf (.keyDown x))) ∧
      (w.toNat % 256 = 0xA1 → decode? w = some (.skipIf (.keyUp x))) := by
  constructor
  · intro hlow
    exact decode?_of_register 0xE 0x9E rfl rfl rfl rfl hx (by decide) (by omega)
  · intro hlow
    exact decode?_of_register 0xE 0xA1 rfl rfl rfl rfl hx (by decide) (by omega)

theorem decode?_eq_awaitKey_iff :
    decode? w = some (.awaitKey x) ↔ w.toNat = 0xF00A + 256 * x.toNat := by
  constructor
  · intro h
    obtain ⟨-, hform, k, -, hlow⟩ := encoded_of_decode? h
    simp only [form, digits, ignored] at hform hlow
    omega
  · intro hw
    have hlt : w.toNat < 0x10000 := w.toNat_lt
    exact decode?_of_register 0xF 0x0A rfl rfl rfl rfl (by omega) (by decide) (by omega)

end Instruction

end Chip8
