/-!
The sixteen general registers. The lowest nibble of a number names a register, and register F
doubles as the carry, borrow and collision flag.
-/

namespace Chip8

structure Registers where
  cells : Vector UInt8 16

namespace Registers

def count : Nat := 16

def flag : UInt8 := 15

def zero : Registers :=
  ⟨Vector.replicate 16 0⟩

def get (v : Registers) (x : UInt8) : UInt8 :=
  v.cells[x.toNat % 16]

def set (v : Registers) (x b : UInt8) : Registers :=
  ⟨v.cells.set (x.toNat % 16) b⟩

/-- The contents of all registers from 0 to `x`. -/
def upTo (v : Registers) (x : UInt8) : List UInt8 :=
  v.cells.toList.take (x.toNat % 16 + 1)

/-- Replaces the first registers by the given bytes. -/
def setFirst (v : Registers) (bytes : List UInt8) : Registers :=
  ⟨Vector.ofFn fun k : Fin 16 => bytes[k.val]?.getD (v.cells.get k)⟩

def toList (v : Registers) : List UInt8 :=
  v.cells.toList

/-- A number below sixteen survives as the name of a register. -/
theorem toNat_ofNat_of_lt {k : Nat} (h : k < 16) : (UInt8.ofNat k).toNat = k :=
  UInt8.toNat_ofNat_of_lt' (Nat.lt_trans h (by decide))

@[ext]
theorem ext {v w : Registers} (h : ∀ x : UInt8, x.toNat < 16 → v.get x = w.get x) : v = w := by
  obtain ⟨c⟩ := v
  obtain ⟨d⟩ := w
  congr 1
  refine Vector.ext fun k hk => ?_
  have hn : (UInt8.ofNat k).toNat = k := toNat_ofNat_of_lt hk
  have := h (UInt8.ofNat k) (by omega)
  simpa only [get, hn, Nat.mod_eq_of_lt hk] using this

@[simp]
theorem get_zero (x : UInt8) : zero.get x = 0 := by
  simp [get, zero]

theorem get_congr {v : Registers} {x y : UInt8} (h : x.toNat % 16 = y.toNat % 16) :
    v.get x = v.get y := by
  simp only [get, h]

theorem get_set (v : Registers) (x y b : UInt8) :
    (v.set x b).get y = if x.toNat % 16 = y.toNat % 16 then b else v.get y := by
  simp only [get, set, Vector.getElem_set]

theorem get_set_self (v : Registers) (x b : UInt8) : (v.set x b).get x = b := by
  rw [get_set, if_pos rfl]

theorem get_set_of_ne {v : Registers} {x y b : UInt8} (h : y.toNat % 16 ≠ x.toNat % 16) :
    (v.set x b).get y = v.get y := by
  rw [get_set, if_neg (Ne.symm h)]

theorem get_set_flag {v : Registers} {y b : UInt8} (h : y.toNat < 15) :
    (v.set flag b).get y = v.get y := by
  refine get_set_of_ne ?_
  show y.toNat % 16 ≠ 15
  omega

theorem get_setFirst (v : Registers) (bytes : List UInt8) (x : UInt8) :
    (v.setFirst bytes).get x = bytes[x.toNat % 16]?.getD (v.get x) := by
  simp only [get, setFirst, Vector.getElem_ofFn]
  rfl

@[simp]
theorem length_upTo (v : Registers) (x : UInt8) : (v.upTo x).length = x.toNat % 16 + 1 := by
  simp only [upTo, List.length_take, Vector.length_toList]
  omega

theorem getElem_upTo (v : Registers) (x y : UInt8) (h : y.toNat < (v.upTo x).length) :
    (v.upTo x)[y.toNat] = v.get y := by
  have hy : y.toNat < 16 := by
    rw [length_upTo] at h
    omega
  simp [upTo, get, Nat.mod_eq_of_lt hy]

end Registers

end Chip8
