/-!
The bounded stack of return addresses: sixteen cells, of which the lowest `depth` are occupied.
Taking an address off leaves it behind in its cell.
-/

namespace Chip8

structure CallStack where
  cells : Vector UInt16 16 := Vector.replicate 16 0
  depth : Nat := 0
  deriving DecidableEq

namespace CallStack

def capacity : Nat := 16

/-- The outstanding return addresses, newest first. -/
def frames (s : CallStack) : List UInt16 :=
  (s.cells.toList.take s.depth).reverse

def push? (s : CallStack) (a : UInt16) : Option CallStack :=
  if h : s.depth < 16 then some ⟨s.cells.set s.depth a h, s.depth + 1⟩ else none

def pop? (s : CallStack) : Option (UInt16 × CallStack) :=
  match s.depth with
  | 0 => none
  | n + 1 => some (s.cells[n]?.getD 0, { s with depth := n })

theorem length_frames {s : CallStack} (hs : s.depth ≤ capacity) : s.frames.length = s.depth := by
  have hs : s.depth ≤ 16 := hs
  rw [frames, List.length_reverse, List.length_take, Vector.length_toList]
  omega

theorem push?_eq_none_iff {s : CallStack} {a : UInt16} :
    s.push? a = none ↔ capacity ≤ s.depth := by
  simp only [push?, dite_eq_right_iff, reduceCtorEq, imp_false, Nat.not_lt, capacity]

theorem depth_of_push? {s t : CallStack} {a : UInt16} (h : s.push? a = some t) :
    s.depth < capacity ∧ t.depth = s.depth + 1 := by
  simp only [push?] at h
  split at h
  case isTrue hs =>
    obtain rfl := Option.some.inj h
    exact ⟨hs, rfl⟩
  case isFalse => exact absurd h (Option.some_ne_none t).symm

/-- A push puts its address in front, whatever an earlier pop left in the cell. -/
theorem frames_of_push? {s t : CallStack} {a : UInt16} (h : s.push? a = some t) :
    t.frames = a :: s.frames := by
  simp only [push?] at h
  split at h
  case isTrue hs =>
    obtain rfl := Option.some.inj h
    have hl : s.depth < s.cells.toList.length := by
      rw [Vector.length_toList]
      exact hs
    have ht : (s.cells.toList.set s.depth a).take (s.depth + 1) =
        s.cells.toList.take s.depth ++ [a] := by
      rw [List.take_add_one, List.getElem?_set_self hl, List.take_set_of_le (Nat.le_refl _)]
      rfl
    simp only [frames, Vector.toList_set, ht, List.reverse_append]
    rfl
  case isFalse => exact absurd h (Option.some_ne_none t).symm

theorem pop?_eq_none_iff {s : CallStack} : s.pop? = none ↔ s.depth = 0 := by
  cases hd : s.depth <;> simp [pop?, hd]

theorem depth_of_pop? {s t : CallStack} {a : UInt16} (h : s.pop? = some (a, t)) :
    s.depth = t.depth + 1 := by
  cases hd : s.depth with
  | zero => simp [pop?, hd] at h
  | succ n =>
    simp only [pop?, hd, Option.some.injEq, Prod.mk.injEq] at h
    rw [← h.2]

/-- A pop gives the address in front and leaves those behind it. -/
theorem frames_of_pop? {s t : CallStack} {a : UInt16} (hs : s.depth ≤ capacity)
    (h : s.pop? = some (a, t)) : s.frames = a :: t.frames := by
  cases hd : s.depth with
  | zero => simp [pop?, hd] at h
  | succ n =>
    have hn : n < s.cells.toList.length := by
      have hs : s.depth ≤ 16 := hs
      rw [Vector.length_toList]
      omega
    simp only [pop?, hd, Option.some.injEq, Prod.mk.injEq] at h
    obtain ⟨rfl, rfl⟩ := h
    have hc : s.cells[n]?.getD 0 = s.cells.toList[n] := by
      rw [← Vector.getElem?_toList, List.getElem?_eq_getElem hn, Option.getD_some]
    rw [frames, hd, ← List.take_append_getElem hn, List.reverse_append, hc]
    rfl

end CallStack

end Chip8
