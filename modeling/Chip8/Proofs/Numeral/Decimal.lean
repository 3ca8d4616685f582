import Chip8.Numeral
import Mathlib.Data.Nat.Digits.Defs

/-!
Decimal numerals of words. One is read exactly if it consists of digits, at least one of them and
perhaps after a plus sign, and its number fits 64 bits.
-/

namespace Chip8.Numeral

variable {c : Char} {ds cs : List Char} {n a d : Nat}

/-- The number that decimal digits stand for, the most significant one first. -/
def decimalValue (ds : List Char) : Nat :=
  Nat.ofDigits 10 (ds.map fun c => c.toNat - 48).reverse

/-- Whether a text is a decimal numeral of a number that fits 64 bits. -/
structure IsWord64 (text : List Char) (n : Nat) : Prop where
  digits : ∃ ds, (text = ds ∨ text = '+' :: ds) ∧ ds ≠ [] ∧ (∀ c ∈ ds, c.isDigit) ∧
    decimalValue ds = n
  lt : n < 18446744073709551616

theorem isDigit_iff : c.isDigit ↔ 48 ≤ c.toNat ∧ c.toNat ≤ 57 := by
  simp only [Char.isDigit, Bool.and_eq_true, decide_eq_true_eq]
  rfl

/-- Letters stand for ten and more. -/
theorem digitValue?_eq_some_iff (hd : d < 10) :
    digitValue? c = some d ↔ c.isDigit ∧ c.toNat - 48 = d := by
  rw [isDigit_iff]
  simp only [digitValue?]
  split
  case isTrue h => simp [h]
  case isFalse h =>
    refine iff_of_false ?_ fun h' => h h'.1
    split
    case isTrue h' =>
      rw [Option.some.injEq]
      omega
    case isFalse =>
      split
      · rw [Option.some.injEq]
        omega
      · exact (Option.some_ne_none d).symm

theorem append?_eq_some_iff : append? 10 a c = some n ↔
    c.isDigit ∧ c.toNat - 48 + 10 * a = n := by
  rw [append?, Option.bind_eq_some_iff]
  constructor
  · rintro ⟨d, hd, h⟩
    split at h
    case isTrue hlt =>
      obtain ⟨hc, rfl⟩ := (digitValue?_eq_some_iff hlt).mp hd
      refine ⟨hc, ?_⟩
      rw [← Option.some.inj h]
      omega
    case isFalse => cases h
  · rintro ⟨hc, rfl⟩
    have hlt : c.toNat - 48 < 10 := by
      rw [isDigit_iff] at hc
      omega
    refine ⟨_, (digitValue?_eq_some_iff hlt).mpr ⟨hc, rfl⟩, ?_⟩
    rw [if_pos hlt, Nat.mul_comm, Nat.add_comm]

theorem foldlM_append?_eq_some_iff : ds.foldlM (append? 10) a = some n ↔
    (∀ c ∈ ds, c.isDigit) ∧ ds.foldl (fun n c => c.toNat - 48 + 10 * n) a = n := by
  induction ds generalizing a with
  | nil => simp
  | cons c ds ih =>
    rw [List.foldlM_cons, List.foldl_cons, List.forall_mem_cons]
    constructor
    · intro h
      obtain ⟨b, hb, hrest⟩ := Option.bind_eq_some_iff.mp h
      obtain ⟨hc, rfl⟩ := append?_eq_some_iff.mp hb
      obtain ⟨hds, rfl⟩ := ih.mp hrest
      exact ⟨⟨hc, hds⟩, rfl⟩
    · rintro ⟨⟨hc, hds⟩, rfl⟩
      exact Option.bind_eq_some_iff.mpr
        ⟨_, append?_eq_some_iff.mpr ⟨hc, rfl⟩, ih.mpr ⟨hds, rfl⟩⟩

theorem decimalValue_eq_foldl (ds : List Char) :
    decimalValue ds = ds.foldl (fun n c => c.toNat - 48 + 10 * n) 0 := by
  rw [decimalValue, Nat.ofDigits_eq_foldr, List.foldr_reverse, List.foldl_map]
  rfl

theorem read?_ten_eq_some_iff : read? 10 ds = some n ↔
    ds ≠ [] ∧ (∀ c ∈ ds, c.isDigit) ∧ decimalValue ds = n := by
  rw [read?, decimalValue_eq_foldl]
  split
  case isTrue h => simp [h]
  case isFalse h =>
    rw [foldlM_append?_eq_some_iff]
    exact (and_iff_right h).symm

/-- A plus sign is no digit, so it can stand in front only. -/
theorem word64?_eq_some_iff : word64? cs = some n ↔ IsWord64 cs n := by
  simp only [word64?]
  rw [Option.filter_eq_some_iff, decide_eq_true_eq]
  constructor
  · rintro ⟨hread, hlt⟩
    refine ⟨?_, hlt⟩
    split at hread
    case h_1 ds => exact ⟨ds, .inr rfl, read?_ten_eq_some_iff.mp hread⟩
    case h_2 => exact ⟨cs, .inl rfl, read?_ten_eq_some_iff.mp hread⟩
  · rintro ⟨⟨ds, rfl | rfl, hne, hds, hvalue⟩, hlt⟩
    · refine ⟨?_, hlt⟩
      split
      case h_1 =>
        have hplus := hds '+' (.head _)
        contradiction
      case h_2 => exact read?_ten_eq_some_iff.mpr ⟨hne, hds, hvalue⟩
    · exact ⟨read?_ten_eq_some_iff.mpr ⟨hne, hds, hvalue⟩, hlt⟩

end Chip8.Numeral
