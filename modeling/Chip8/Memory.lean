/-!
Main memory: 4096 bytes behind a twelve-bit bus. Any natural number is an address, and addresses
that agree modulo 4096 name the same cell.
-/

namespace Chip8

structure Memory where
  cells : Vector UInt8 4096

namespace Memory

def size : Nat := 4096

def programStart : Nat := 512

def programCapacity : Nat := size - programStart

def blank : Memory :=
  ⟨Vector.replicate 4096 0⟩

def read (m : Memory) (a : Nat) : UInt8 :=
  m.cells[a % 4096]

def write (m : Memory) (a : Nat) (b : UInt8) : Memory :=
  ⟨m.cells.set (a % 4096) b⟩

def fetch (m : Memory) (a n : Nat) : List UInt8 :=
  (List.range n).map fun k => m.read (a + k)

def store (m : Memory) (a : Nat) : List UInt8 → Memory
  | [] => m
  | b :: bs => (m.write a b).store (a + 1) bs

@[ext]
theorem ext {m m' : Memory} (h : ∀ a < 4096, m.read a = m'.read a) : m = m' := by
  obtain ⟨c⟩ := m
  obtain ⟨c'⟩ := m'
  congr 1
  refine Vector.ext fun a ha => ?_
  simpa only [read, Nat.mod_eq_of_lt ha] using h a ha

theorem read_congr (m : Memory) {a b : Nat} (h : a % 4096 = b % 4096) : m.read a = m.read b := by
  simp only [read, h]

@[simp]
theorem read_mod (m : Memory) (a : Nat) : m.read (a % 4096) = m.read a :=
  m.read_congr (Nat.mod_mod a 4096)

@[simp]
theorem read_blank (a : Nat) : blank.read a = 0 := by
  simp [read, blank]

theorem read_write (m : Memory) (a c : Nat) (b : UInt8) :
    (m.write a b).read c = if a % 4096 = c % 4096 then b else m.read c := by
  simp only [read, write, Vector.getElem_set]

/-- Cells that no byte goes to keep their contents. -/
theorem read_store_of_ne (m : Memory) (a c : Nat) (bs : List UInt8)
    (h : ∀ k < bs.length, (a + k) % 4096 ≠ c % 4096) : (m.store a bs).read c = m.read c := by
  induction bs generalizing m a with
  | nil => rfl
  | cons b bs ih =>
    have h0 : a % 4096 ≠ c % 4096 := h 0 (Nat.zero_lt_succ _)
    rw [store, ih, read_write, if_neg h0]
    intro k hk
    have := h (k + 1) (Nat.succ_lt_succ hk)
    rwa [show a + 1 + k = a + (k + 1) by omega]

/-- No more bytes than cells are all found where they were put. -/
theorem read_store (m : Memory) (a : Nat) (bs : List UInt8) (hbs : bs.length ≤ 4096)
    {k : Nat} (hk : k < bs.length) : (m.store a bs).read (a + k) = bs[k] := by
  induction bs generalizing m a k with
  | nil => exact absurd hk (Nat.not_lt_zero k)
  | cons b bs ih =>
    simp only [List.length_cons] at hbs hk
    cases k with
    | zero =>
      rw [store, read_store_of_ne, read_write, Nat.add_zero, if_pos rfl, List.getElem_cons_zero]
      · intro k hk
        omega
    | succ k =>
      rw [store, show a + (k + 1) = a + 1 + k by omega, ih _ _ (by omega) (by omega)]
      rfl

@[simp]
theorem length_fetch (m : Memory) (a n : Nat) : (m.fetch a n).length = n := by
  simp [fetch]

@[simp]
theorem getElem_fetch (m : Memory) (a n : Nat) {k : Nat} (h : k < (m.fetch a n).length) :
    (m.fetch a n)[k] = m.read (a + k) := by
  simp [fetch]

theorem getD_fetch (m : Memory) (a : Nat) {n k : Nat} (h : k < n) :
    (m.fetch a n).getD k 0 = m.read (a + k) := by
  have hk : k < (m.fetch a n).length := by rwa [length_fetch]
  rw [List.getD_eq_getElem?_getD, List.getElem?_eq_getElem hk, Option.getD_some, getElem_fetch]

/-- The address of the word after the one at `a`, and of the one that a skip passes over to. -/
def nextWord (a : Nat) : Nat :=
  (a + 2) % 4096

end Memory

end Chip8
