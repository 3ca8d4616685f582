import Chip8.Numeral

/-!
The keypad: sixteen keys named by hexadecimal digits, kept as a mask with one bit for each key
that is down.
-/

namespace Chip8

abbrev Key := Fin 16

namespace Key

def count : Nat := 16

def ofByte? (id : UInt8) : Option Key :=
  if h : id.toNat < 16 then some ⟨id.toNat, h⟩ else none

def toByte (k : Key) : UInt8 :=
  UInt8.ofNat k.val

/-- The short name of a key, such as `ka`. -/
def label (k : Key) : String :=
  "k" ++ ((Numeral.hex 1 k.val).map Char.toLower)

/-- What is said of a number that names no key. -/
def outOfRangeMessage (id : UInt8) : String :=
  "keycode must be in range 0 <= keycode < 16, got " ++ Numeral.decimal id.toNat

end Key

structure Keypad where
  mask : BitVec 16 := 0
  deriving DecidableEq

namespace Keypad

/-- Numbers above fifteen name no key and read as released. -/
def isDown (p : Keypad) (id : UInt8) : Bool :=
  p.mask.getLsbD id.toNat

def press (p : Keypad) (k : Key) : Keypad :=
  ⟨p.mask ||| (1#16 <<< k.val)⟩

def release (p : Keypad) (k : Key) : Keypad :=
  ⟨p.mask &&& ~~~(1#16 <<< k.val)⟩

def set (p : Keypad) (k : Key) (down : Bool) : Keypad :=
  if down then p.press k else p.release k

@[simp]
theorem isDown_empty (id : UInt8) : ({} : Keypad).isDown id = false := by
  simp [isDown]

theorem isDown_of_le (p : Keypad) {id : UInt8} (h : 16 ≤ id.toNat) : p.isDown id = false :=
  BitVec.getLsbD_of_ge p.mask id.toNat h

private theorem getLsbD_bit (k : Key) (n : Nat) :
    (1#16 <<< k.val).getLsbD n = decide (n = k.val) := by
  have hk := k.isLt
  rw [Bool.eq_iff_iff]
  simp only [BitVec.getLsbD_shiftLeft, BitVec.getLsbD_one, Bool.and_eq_true, Bool.not_eq_true',
    decide_eq_true_eq, decide_eq_false_iff_not]
  omega

theorem isDown_press (p : Keypad) (k : Key) (id : UInt8) :
    (p.press k).isDown id = (p.isDown id || id.toNat = k.val) := by
  simp only [isDown, press, BitVec.getLsbD_or, getLsbD_bit]

theorem isDown_release (p : Keypad) (k : Key) (id : UInt8) :
    (p.release k).isDown id = (p.isDown id && id.toNat ≠ k.val) := by
  by_cases h : id.toNat < 16
  · simp only [isDown, release, BitVec.getLsbD_and, BitVec.getLsbD_not, getLsbD_bit, h,
      decide_true, Bool.true_and, ne_eq, decide_not]
  · simp only [isDown_of_le _ (Nat.le_of_not_lt h), Bool.false_and]

theorem isDown_set (p : Keypad) (k : Key) (down : Bool) (id : UInt8) :
    (p.set k down).isDown id = if id.toNat = k.val then down else p.isDown id := by
  cases down <;> by_cases h : id.toNat = k.val <;>
    simp [set, isDown_press, isDown_release, h]

end Keypad

end Chip8
