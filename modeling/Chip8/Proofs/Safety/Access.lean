import Chip8.Machine

/-!
Checked access. An element is read or replaced only within its bounds, and a plain sum, product,
difference or shift is taken only where it fits the word; elsewhere there is no result. On operands
in range checked access gives what unchecked access gives.
-/

namespace Chip8

/-- A result, unless an index was out of bounds or a number did not fit its word. -/
abbrev Checked : Type → Type := Option

namespace Checked

/-- The sum, in a word that has `size` values. -/
def sum (size a b : Nat) : Checked Nat :=
  if a + b < size then some (a + b) else none

/-- The product, in a word that has `size` values. -/
def product (size a b : Nat) : Checked Nat :=
  if a * b < size then some (a * b) else none

def difference (a b : Nat) : Checked Nat :=
  if b ≤ a then some (a - b) else none

def remainder (a b : Nat) : Checked Nat :=
  if b = 0 then none else some (a % b)

/-- The distance of a shift, which is less than the number of bits of what is shifted. -/
def distance (bits n : Nat) : Checked Nat :=
  if n < bits then some n else none

def get (v : Registers) (k : Nat) : Checked UInt8 :=
  v.cells[k]?

def set (v : Registers) (k : Nat) (b : UInt8) : Checked Registers :=
  if h : k < 16 then some ⟨v.cells.set k b h⟩ else none

/-- The contents of all registers from 0 to `k`. -/
def upTo (v : Registers) (k : Nat) : Checked (List UInt8) :=
  (List.range (k + 1)).mapM (get v)

/-- Puts bytes into consecutive registers, the first of them into register `k`. -/
def fill (v : Registers) (k : Nat) : List UInt8 → Checked Registers
  | [] => some v
  | b :: bs => do fill (← set v k b) (k + 1) bs

/-- Memory is indexed by the twelve low bits of an address. -/
def read (m : Memory) (a : Nat) : Checked UInt8 :=
  m.cells[a &&& 0xFFF]?

def write (m : Memory) (a : Nat) (b : UInt8) : Checked Memory :=
  if h : a &&& 0xFFF < 4096 then some ⟨m.cells.set (a &&& 0xFFF) b h⟩ else none

def fetch (m : Memory) (a n : Nat) : Checked (List UInt8) :=
  (List.range n).mapM fun k => do read m (← sum UInt64.size a k)

/-- Writes bytes at consecutive offsets from `a`, the first of them at offset `k`. -/
def store (m : Memory) (a k : Nat) : List UInt8 → Checked Memory
  | [] => some m
  | b :: bs => do store (← write m (← sum UInt64.size a k) b) a (k + 1) bs

/-- Copies bytes to the cells from `first` to before `last`, of which there are as many. -/
def copy (m : Memory) (first last : Nat) (bytes : List UInt8) : Checked Memory :=
  if first ≤ last ∧ last ≤ 4096 ∧ bytes.length = last - first then some (m.store first bytes)
  else none

def nextWord (a : Nat) : Checked Nat := do
  return (← sum UInt64.size a 2) &&& 0xFFF

/-- Refuses an address where the stack is full. -/
def push (s : CallStack) (a : UInt16) : Checked (Option CallStack) :=
  if CallStack.capacity ≤ s.depth then some none
  else if h : s.depth < 16 then do
    let depth ← sum UInt64.size s.depth 1
    return some ⟨s.cells.set s.depth a h, depth⟩
  else none

def pop (s : CallStack) : Checked (Option (UInt16 × CallStack)) :=
  match s.depth with
  | 0 => some none
  | n + 1 => do return some (← s.cells[n]?, { s with depth := n })

/-- Numbers above fifteen name no key and are not shifted by. -/
def isDown (p : Keypad) (id : UInt8) : Checked Bool :=
  if id.toNat < Key.count then do return p.mask.getLsbD (← distance 16 id.toNat)
  else some false

/-- The index value that points at a glyph, worked out in sixteen bits. -/
def glyphAddress (digit : UInt8) : Checked UInt16 := do
  let offset ← product UInt16.size digit.toNat Font.glyphHeight
  return UInt16.ofNat (← sum UInt16.size Font.start offset)

variable {a b k n : Nat}

theorem sum_of_lt {size : Nat} (h : a + b < size) : sum size a b = some (a + b) :=
  if_pos h

theorem product_of_lt {size : Nat} (h : a * b < size) : product size a b = some (a * b) :=
  if_pos h

theorem difference_of_le (h : b ≤ a) : difference a b = some (a - b) :=
  if_pos h

theorem remainder_of_pos (h : 0 < b) : remainder a b = some (a % b) :=
  if_neg (Nat.ne_of_gt h)

theorem distance_of_lt {bits : Nat} (h : n < bits) : distance bits n = some n :=
  if_pos h

/-- A traversal in which every element has a result. -/
theorem mapM_eq_some {α β : Type} {f : α → Checked β} {g : α → β} {xs : List α}
    (h : ∀ x ∈ xs, f x = some (g x)) : xs.mapM f = some (xs.map g) := by
  induction xs with
  | nil => rfl
  | cons x xs ih =>
    rw [List.forall_mem_cons] at h
    rw [List.mapM_cons, h.1, ih h.2]
    rfl

theorem get_of_lt (v : Registers) (h : k < 16) : get v k = some (v.get (UInt8.ofNat k)) := by
  simp only [get, Registers.get, Registers.toNat_ofNat_of_lt h, Nat.mod_eq_of_lt h,
    Vector.getElem?_eq_getElem h]

theorem set_of_lt (v : Registers) (h : k < 16) (b : UInt8) :
    set v k b = some (v.set (UInt8.ofNat k) b) := by
  simp only [set, Registers.set, Registers.toNat_ofNat_of_lt h, Nat.mod_eq_of_lt h, dif_pos h]

theorem get_toNat (v : Registers) {x : UInt8} (h : x.toNat < 16) :
    get v x.toNat = some (v.get x) := by
  rw [get_of_lt v h, UInt8.ofNat_toNat]

theorem set_toNat (v : Registers) {x : UInt8} (h : x.toNat < 16) (b : UInt8) :
    set v x.toNat b = some (v.set x b) := by
  rw [set_of_lt v h, UInt8.ofNat_toNat]

theorem upTo_toNat (v : Registers) {x : UInt8} (h : x.toNat < 16) :
    upTo v x.toNat = some (v.upTo x) := by
  have hget : ∀ k ∈ List.range (x.toNat + 1), get v k = some (v.get (UInt8.ofNat k)) :=
    fun k hk => get_of_lt v (by rw [List.mem_range] at hk; omega)
  rw [upTo, mapM_eq_some hget]
  congr 1
  refine List.ext_getElem ?_ fun k hk hk' => ?_
  · simp [Nat.mod_eq_of_lt h]
  · rw [List.length_map, List.length_range] at hk
    simp [Registers.upTo, Registers.get, Nat.mod_eq_of_lt (show k < 16 by omega)]

theorem exists_fill (v : Registers) (bytes : List UInt8) (h : k + bytes.length ≤ 16) :
    ∃ w, fill v k bytes = some w ∧ ∀ x : UInt8, x.toNat < 16 →
      w.get x = if k ≤ x.toNat then bytes[x.toNat - k]?.getD (v.get x) else v.get x := by
  induction bytes generalizing v k with
  | nil => exact ⟨v, rfl, by simp⟩
  | cons b bs ih =>
    rw [List.length_cons] at h
    have hk : k < 16 := by omega
    obtain ⟨w, hw, hget⟩ := ih (v.set (UInt8.ofNat k) b) (k := k + 1) (by omega)
    refine ⟨w, by rw [fill, set_of_lt v hk]; exact hw, fun x hx => ?_⟩
    rw [hget x hx, Registers.get_set, Registers.toNat_ofNat_of_lt hk, Nat.mod_eq_of_lt hk,
      Nat.mod_eq_of_lt hx]
    -- The register is before the one that the first byte goes to, is it, or is after it.
    rcases Nat.lt_trichotomy x.toNat k with hlt | rfl | hgt
    · rw [if_neg (show ¬k + 1 ≤ x.toNat by omega), if_neg (Nat.ne_of_gt hlt),
        if_neg (Nat.not_le.mpr hlt)]
    · rw [if_neg (Nat.not_succ_le_self _), if_pos rfl, if_pos (Nat.le_refl _), Nat.sub_self]
      rfl
    · rw [if_pos (show k + 1 ≤ x.toNat from hgt), if_neg (Nat.ne_of_lt hgt),
        if_pos (Nat.le_of_lt hgt), show x.toNat - k = x.toNat - (k + 1) + 1 by omega,
        List.getElem?_cons_succ]

theorem fill_of_le (v : Registers) {bytes : List UInt8} (h : bytes.length ≤ 16) :
    fill v 0 bytes = some (v.setFirst bytes) := by
  obtain ⟨w, hw, hget⟩ := exists_fill v bytes (k := 0) (by omega)
  rw [hw]
  congr 1
  refine Registers.ext fun x hx => ?_
  rw [hget x hx, Registers.get_setFirst, if_pos (Nat.zero_le _), Nat.mod_eq_of_lt hx,
    Nat.sub_zero]

theorem and_mask (a : Nat) : a &&& 0xFFF = a % 4096 :=
  Nat.and_two_pow_sub_one_eq_mod a 12

theorem read_eq (m : Memory) (a : Nat) : read m a = some (m.read a) := by
  have ha : a % 4096 < 4096 := Nat.mod_lt a (by decide)
  simp only [read, Memory.read, and_mask, Vector.getElem?_eq_getElem ha]

theorem write_eq (m : Memory) (a : Nat) (b : UInt8) : write m a b = some (m.write a b) := by
  have ha : a % 4096 < 4096 := Nat.mod_lt a (by decide)
  simp only [write, Memory.write, and_mask, dif_pos ha]

theorem fetch_of_le (m : Memory) (h : a + n ≤ UInt64.size) :
    fetch m a n = some (m.fetch a n) := by
  refine mapM_eq_some fun k hk => ?_
  have hk : k < n := List.mem_range.mp hk
  rw [sum_of_lt (show a + k < UInt64.size by omega)]
  exact read_eq m (a + k)

theorem store_of_le (m : Memory) (bytes : List UInt8) (h : a + k + bytes.length ≤ UInt64.size) :
    store m a k bytes = some (m.store (a + k) bytes) := by
  induction bytes generalizing m k with
  | nil => rfl
  | cons b bs ih =>
    rw [List.length_cons] at h
    rw [store, sum_of_lt (show a + k < UInt64.size by omega)]
    change (write m (a + k) b).bind _ = _
    rw [write_eq]
    exact ih (m.write (a + k) b) (k := k + 1) (by omega)

theorem copy_of_le (m : Memory) {bytes : List UInt8} (h : a + bytes.length ≤ 4096) :
    copy m a (a + bytes.length) bytes = some (m.store a bytes) := by
  rw [copy, if_pos ⟨by omega, h, by omega⟩]

theorem nextWord_of_le (h : a ≤ 0xFFF) : nextWord a = some (Memory.nextWord a) := by
  rw [nextWord, sum_of_lt (show a + 2 < UInt64.size by rw [UInt64.size]; omega)]
  change some (_ &&& 0xFFF) = _
  rw [and_mask]
  rfl

theorem push_eq (s : CallStack) (a : UInt16) : push s a = some (s.push? a) := by
  unfold push CallStack.push? CallStack.capacity
  by_cases h : s.depth < 16
  · rw [if_neg (Nat.not_le.mpr h), dif_pos h, dif_pos h,
      sum_of_lt (show s.depth + 1 < UInt64.size by rw [UInt64.size]; omega)]
    rfl
  · rw [if_pos (Nat.le_of_not_lt h), dif_neg h]

theorem pop_of_le {s : CallStack} (h : s.depth ≤ CallStack.capacity) : pop s = some s.pop? := by
  have h : s.depth ≤ 16 := h
  cases hd : s.depth with
  | zero => simp only [pop, CallStack.pop?, hd]
  | succ n =>
    simp only [pop, CallStack.pop?, hd, Vector.getElem?_eq_getElem (show n < 16 by omega)]
    rfl

theorem isDown_eq (p : Keypad) (id : UInt8) : isDown p id = some (p.isDown id) := by
  unfold isDown
  split
  case isTrue h =>
    have h : id.toNat < 16 := h
    rw [distance_of_lt h]
    rfl
  case isFalse h => rw [p.isDown_of_le (Nat.le_of_not_lt h)]

/-- Every byte points somewhere, also one that is no digit. -/
theorem glyphAddress_eq (digit : UInt8) : glyphAddress digit = some (Font.address digit) := by
  have hd := digit.toNat_lt
  have hproduct : digit.toNat * Font.glyphHeight < UInt16.size := by
    simp only [Font.glyphHeight, UInt16.size]
    omega
  have hsum : Font.start + digit.toNat * Font.glyphHeight < UInt16.size := by
    rwa [Font.start, Nat.zero_add]
  rw [glyphAddress, product_of_lt hproduct]
  change (sum UInt16.size Font.start _).bind _ = _
  rw [sum_of_lt hsum]
  rfl

end Checked

end Chip8
