import Chip8.Numeral

/-!
Numerals digit by digit. The last digit is the remainder by the base and the others are those of the
quotient, so a numeral of fixed width comes apart anywhere, and that of a word at its bytes.
-/

namespace Chip8.Numeral

variable {b n d : Nat}

theorem digitsBefore_append (b fuel n : Nat) (rest : List Char) :
    digitsBefore b fuel n rest = digitsBefore b fuel n [] ++ rest := by
  induction fuel generalizing n rest with
  | zero => rfl
  | succ fuel ih =>
    unfold digitsBefore
    split
    case isTrue => rfl
    case isFalse =>
      rw [ih, ih (n / b) [digit (n % b)], List.append_assoc]
      rfl

/-- Fuel beyond the number makes no difference. -/
theorem digitsBefore_eq (hb : 2 ≤ b) {fuel more : Nat} (h : n < fuel) (h' : n < more) :
    digitsBefore b fuel n [] = digitsBefore b more n [] := by
  induction fuel generalizing more n with
  | zero => exact absurd h (Nat.not_lt_zero n)
  | succ fuel ih =>
    cases more with
    | zero => exact absurd h' (Nat.not_lt_zero n)
    | succ more =>
      unfold digitsBefore
      split
      case isTrue => rfl
      case isFalse hn =>
        have hlt : n / b < n := Nat.div_lt_self (by omega) hb
        have hrest : digitsBefore b fuel (n / b) [] = digitsBefore b more (n / b) [] :=
          ih (by omega) (by omega)
        rw [digitsBefore_append, hrest, ← digitsBefore_append]

theorem digits_of_lt (h : n < b) : digits b n = [digit n] := by
  rw [digits, digitsBefore, if_pos h]

theorem digits_of_le (hb : 2 ≤ b) (h : b ≤ n) :
    digits b n = digits b (n / b) ++ [digit (n % b)] := by
  have hlt : n / b < n := Nat.div_lt_self (by omega) hb
  rw [digits, digitsBefore, if_neg (Nat.not_lt.mpr h), digitsBefore_append,
    digitsBefore_eq hb hlt (Nat.lt_succ_self _)]
  rfl

/-- One more digit at the end. -/
theorem padded_succ (hb : 2 ≤ b) {k : Nat} (hk : 1 ≤ k) (hd : d < b) :
    padded b (k + 1) (n * b + d) = padded b k n ++ [digit d] := by
  have hpos : 0 < b := by omega
  unfold padded
  by_cases hn : n = 0
  · have hzero : digits b 0 = ['0'] := digits_of_lt hpos
    have hzeros : List.replicate (k - 1) '0' ++ ['0'] = List.replicate k '0' := by
      rw [← List.replicate_succ', Nat.sub_add_cancel hk]
    rw [hn, Nat.zero_mul, Nat.zero_add, digits_of_lt hd, hzero, List.length_singleton,
      List.length_singleton, Nat.add_sub_cancel, hzeros]
  · have hle : b ≤ n * b := Nat.le_mul_of_pos_left b (Nat.pos_of_ne_zero hn)
    have hdiv : (n * b + d) / b = n := by
      rw [Nat.add_comm, Nat.add_mul_div_right d n hpos, Nat.div_eq_of_lt hd, Nat.zero_add]
    have hmod : (n * b + d) % b = d := by
      rw [Nat.add_comm, Nat.add_mul_mod_self_right, Nat.mod_eq_of_lt hd]
    rw [digits_of_le hb (Nat.le_add_right_of_le hle), hdiv, hmod, List.length_append,
      List.length_singleton, Nat.add_sub_add_right, List.append_assoc]

theorem padded_one (h : n < b) : padded b 1 n = [digit n] := by
  rw [padded, digits_of_lt h]
  rfl

theorem padded_byte (h : n < 256) : padded 16 2 n = [digit (n / 16), digit (n % 16)] := by
  have hhigh : n / 16 < 16 := by omega
  have hlow : n % 16 < 16 := by omega
  have h := @padded_succ 16 (n / 16) (n % 16) (by omega) 1 (by omega) hlow
  rw [Nat.div_add_mod', padded_one hhigh] at h
  exact h

/-- The numeral of a word is those of its bytes. -/
theorem padded_word (high : Nat) {low : Nat} (h : low < 256) :
    padded 16 4 (high * 256 + low) = padded 16 2 high ++ padded 16 2 low := by
  have hhigh : low / 16 < 16 := by omega
  have hlow : low % 16 < 16 := by omega
  have hsplit : high * 256 + low = (high * 16 + low / 16) * 16 + low % 16 := by omega
  rw [hsplit, padded_succ (by omega) (by omega) hlow, padded_succ (by omega) (by omega) hhigh,
    padded_byte h, List.append_assoc]
  rfl

theorem read?_padded_sixteen (width n : Nat) : read? 16 (padded 16 width n) = some n :=
  read?_padded (by decide) (by decide) width n

theorem length_padded_word (h : n < 65536) : (padded 16 4 n).length = 4 := by
  have hhigh : n / 256 < 256 := by omega
  have hlow : n % 256 < 256 := by omega
  rw [← Nat.div_add_mod' n 256, padded_word _ hlow, padded_byte hhigh, padded_byte hlow]
  rfl

theorem le_length_padded (b width n : Nat) : width ≤ (padded b width n).length := by
  rw [padded, List.length_append, List.length_replicate]
  omega

theorem length_digits_of_le (hb : 2 ≤ b) (h : b ≤ n) :
    (digits b n).length = (digits b (n / b)).length + 1 := by
  rw [digits_of_le hb h, List.length_append, List.length_singleton]

/-- Numbers beyond a word need more than four digits. -/
theorem length_padded_four_iff : (padded 16 4 n).length = 4 ↔ n < 65536 := by
  refine ⟨fun h => Nat.lt_of_not_le fun hn => ?_, length_padded_word⟩
  have hone : 0 < (digits 16 (n / 16 / 16 / 16 / 16)).length :=
    List.length_pos_iff.mpr (digits_ne_nil (by decide) _)
  rw [padded, List.length_append, List.length_replicate, length_digits_of_le (by decide) (by omega),
    length_digits_of_le (by decide) (by omega), length_digits_of_le (by decide) (by omega),
    length_digits_of_le (by decide) (by omega)] at h
  omega

private theorem mem_digitsBefore (hb : 0 < b) {fuel : Nat} {rest : List Char} {c : Char}
    (h : c ∈ digitsBefore b fuel n rest) : c ∈ rest ∨ ∃ d < b, c = digit d := by
  induction fuel generalizing n rest with
  | zero => exact .inl h
  | succ fuel ih =>
    unfold digitsBefore at h
    split at h
    case isTrue hn =>
      rcases List.mem_cons.mp h with rfl | hc
      · exact .inr ⟨n, hn, rfl⟩
      · exact .inl hc
    case isFalse =>
      rcases ih h with hc | hd
      · rcases List.mem_cons.mp hc with rfl | hc
        · exact .inr ⟨n % b, Nat.mod_lt n hb, rfl⟩
        · exact .inl hc
      · exact .inr hd

theorem exists_digit_of_mem_digits (hb : 0 < b) {c : Char} (h : c ∈ digits b n) :
    ∃ d < b, c = digit d :=
  (mem_digitsBefore hb h).resolve_left List.not_mem_nil

/-- The zeros in front are digits, too. -/
theorem exists_digit_of_mem_padded (hb : 0 < b) {width : Nat} {c : Char}
    (h : c ∈ padded b width n) : ∃ d < b, c = digit d := by
  rcases List.mem_append.mp h with hc | hc
  · rw [List.eq_of_mem_replicate hc]
    exact ⟨0, hb, rfl⟩
  · exact exists_digit_of_mem_digits hb hc

end Chip8.Numeral
