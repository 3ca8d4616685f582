/-!
Numerals in a base of at most sixteen, most significant digit first, written with capital letters
and read in either case.
-/

namespace Chip8.Numeral

/-- The character of a digit below sixteen. -/
def digit (d : Nat) : Char :=
  Char.ofNat (if d < 10 then 48 + d else 55 + d)

def digitValue? (c : Char) : Option Nat :=
  let n := c.toNat
  if 48 ≤ n ∧ n ≤ 57 then some (n - 48)
  else if 65 ≤ n ∧ n ≤ 70 then some (n - 55)
  else if 97 ≤ n ∧ n ≤ 102 then some (n - 87)
  else none

/-- Puts at most `fuel` digits of `n` before `rest`. -/
def digitsBefore (b : Nat) : Nat → Nat → List Char → List Char
  | 0, _, rest => rest
  | fuel + 1, n, rest =>
    if n < b then digit n :: rest
    else digitsBefore b fuel (n / b) (digit (n % b) :: rest)

/-- The shortest numeral of `n` in base `b`; a number has fewer digits than one more than itself. -/
def digits (b n : Nat) : List Char :=
  digitsBefore b (n + 1) n []

/-- The numeral of `n` with zeros in front up to the width. -/
def padded (b width n : Nat) : List Char :=
  List.replicate (width - (digits b n).length) '0' ++ digits b n

def append? (b n : Nat) (c : Char) : Option Nat :=
  (digitValue? c).bind fun d => if d < b then some (n * b + d) else none

/-- Reads a numeral of at least one digit. -/
def read? (b : Nat) (cs : List Char) : Option Nat :=
  if cs = [] then none else cs.foldlM (append? b) 0

def decimal (n : Nat) : String :=
  String.ofList (digits 10 n)

/-- The hexadecimal numeral of a number, at least `width` digits long. -/
def hex (width n : Nat) : String :=
  String.ofList (padded 16 width n)

/-- Reads an unsigned decimal number of at most 64 bits, with an optional plus sign. -/
def word64? (cs : List Char) : Option Nat :=
  let unsigned := match cs with
    | '+' :: rest => rest
    | cs => cs
  (read? 10 unsigned).filter (· < UInt64.size)

private theorem digitValue?_digit_fin : ∀ d : Fin 16, digitValue? (digit d) = some d.val := by
  decide

theorem digitValue?_digit {d : Nat} (h : d < 16) : digitValue? (digit d) = some d :=
  digitValue?_digit_fin ⟨d, h⟩

theorem append?_digit {b d : Nat} (hb : b ≤ 16) (hd : d < b) (n : Nat) :
    append? b n (digit d) = some (n * b + d) := by
  simp [append?, digitValue?_digit (Nat.lt_of_lt_of_le hd hb), hd]

private theorem foldlM_digitsBefore {b : Nat} (hb : 2 ≤ b) (hb' : b ≤ 16) {fuel n : Nat}
    (h : n < fuel) (rest : List Char) :
    (digitsBefore b fuel n rest).foldlM (append? b) 0 = rest.foldlM (append? b) n := by
  induction fuel generalizing n rest with
  | zero => exact absurd h (Nat.not_lt_zero n)
  | succ fuel ih =>
    rw [digitsBefore]
    split
    case isTrue hn => simp [append?_digit hb' hn]
    case isFalse hn =>
      have hlt : n / b < n := Nat.div_lt_self (by omega) hb
      rw [ih (by omega)]
      simp [append?_digit hb' (Nat.mod_lt n (by omega)), Nat.div_add_mod']

private theorem digitsBefore_ne_nil {b fuel n : Nat} {rest : List Char} (h : n < fuel)
    (hb : 2 ≤ b) :
    digitsBefore b fuel n rest ≠ [] := by
  induction fuel generalizing n rest with
  | zero => exact absurd h (Nat.not_lt_zero n)
  | succ fuel ih =>
    rw [digitsBefore]
    split
    case isTrue => exact List.cons_ne_nil _ _
    case isFalse hn =>
      have hlt : n / b < n := Nat.div_lt_self (by omega) hb
      exact ih (by omega)

theorem digits_ne_nil {b : Nat} (hb : 2 ≤ b) (n : Nat) : digits b n ≠ [] :=
  digitsBefore_ne_nil (Nat.lt_succ_self n) hb

/-- A numeral reads back as its number. -/
theorem read?_digits {b : Nat} (hb : 2 ≤ b) (hb' : b ≤ 16) (n : Nat) :
    read? b (digits b n) = some n := by
  rw [read?, if_neg (digits_ne_nil hb n), digits,
    foldlM_digitsBefore hb hb' (Nat.lt_succ_self n)]
  rfl

/-- Zeros in front do not change what is read. -/
theorem read?_padded {b : Nat} (hb : 2 ≤ b) (hb' : b ≤ 16) (width n : Nat) :
    read? b (padded b width n) = some n := by
  have hz (k : Nat) (cs : List Char) :
      (List.replicate k '0' ++ cs).foldlM (append? b) 0 = cs.foldlM (append? b) 0 := by
    induction k with
    | zero => rfl
    | succ k ih =>
      have h0 : append? b 0 '0' = some 0 :=
        append?_digit (d := 0) hb' (by omega) 0 |>.trans (by simp)
      simpa [List.replicate_succ, h0] using ih
  have hd := read?_digits hb hb' n
  have hne := digits_ne_nil hb n
  rw [read?, if_neg hne] at hd
  rw [read?, if_neg (by simp [padded, hne]), padded, hz, hd]

end Chip8.Numeral
