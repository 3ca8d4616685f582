import Chip8.Screen.Blit
import Mathlib.Algebra.BigOperators.Intervals

/-!
The compositor by multiplicities: a sprite inverts the pixels that an odd number of its set bits
land on, and erases where a bit lands on a lit pixel or on another bit's.
-/

namespace Chip8.Screen

open Finset

/-- Whether a sprite pixel at a position of the unbounded plane goes to the offset `d`. -/
def Lands (s : Screen) (p : Placement) (x y d : Nat) : Prop :=
  match p with
  | .linear => y * s.width + x = d ∧ d < s.width * s.height
  | .wrap => 0 < s.width ∧ 0 < s.height ∧ y % s.height * s.width + x % s.width = d

instance (s : Screen) (p : Placement) (x y d : Nat) : Decidable (s.Lands p x y d) :=
  match p with
  | .linear => inferInstanceAs (Decidable (_ ∧ _))
  | .wrap => inferInstanceAs (Decidable (_ ∧ _ ∧ _))

/-- How many set bits of a sprite with its top left corner at `(x, y)` go to the offset `d`; column
`c` of a row is bit `7 - c` of its byte. -/
def hits (s : Screen) (p : Placement) (x y : Nat) (rows : List UInt8) (d : Nat) : Nat :=
  #{rc ∈ range rows.length ×ˢ range 8 |
    (rows.getD rc.1 0).toNat.testBit (7 - rc.2) = true ∧ s.Lands p (x + rc.2) (y + rc.1) d}

theorem lt_of_lands {s : Screen} {p : Placement} {x y d : Nat} (h : s.Lands p x y d) :
    d < s.width * s.height := by
  cases p with
  | linear => exact h.2
  | wrap =>
    obtain ⟨hw, hh, rfl⟩ := h
    have hx : x % s.width < s.width := Nat.mod_lt x hw
    have hy : y % s.height + 1 ≤ s.height := Nat.mod_lt y hh
    calc
      y % s.height * s.width + x % s.width < y % s.height * s.width + s.width := by omega
      _ = (y % s.height + 1) * s.width := (Nat.succ_mul _ _).symm
      _ ≤ s.height * s.width := Nat.mul_le_mul_right _ hy
      _ = s.width * s.height := Nat.mul_comm _ _

theorem offset?_eq_some_iff {s : Screen} {p : Placement} {x y d : Nat} :
    s.offset? p x y = some d ↔ s.Lands p x y d := by
  cases p with
  | linear =>
    simp only [offset?, Option.ite_none_right_eq_some, Option.some.injEq, Lands]
    constructor
    · rintro ⟨hd, rfl⟩
      exact ⟨rfl, hd⟩
    · rintro ⟨rfl, hd⟩
      exact ⟨hd, rfl⟩
  | wrap =>
    simp only [offset?, Option.ite_none_left_eq_some, Option.some.injEq, Lands, not_or,
      Nat.pos_iff_ne_zero, and_assoc, Nat.add_comm]

private theorem countP_range (P : Nat → Prop) [DecidablePred P] (n : Nat) :
    (List.range n).countP (fun c => decide (P c)) = #{c ∈ range n | P c} := by
  rw [List.countP_eq_length_filter]
  rfl

theorem hits_cons (s : Screen) (p : Placement) (x y : Nat) (row : UInt8) (rows : List UInt8)
    (d : Nat) : s.hits p x y (row :: rows) d =
      #{c ∈ range 8 | row.toNat.testBit (7 - c) = true ∧ s.Lands p (x + c) y d} +
        s.hits p x (y + 1) rows d := by
  simp only [hits, card_filter, sum_product, List.length_cons]
  rw [sum_range_succ', Nat.add_comm]
  refine congrArg₂ (· + ·) rfl (sum_congr rfl fun r _ => sum_congr rfl fun c _ => ?_)
  rw [List.getD_cons_succ, show y + (r + 1) = y + 1 + r by omega]

/-- Each offset occurs among the targets as often as set bits go to it. -/
theorem count_targets (s : Screen) (p : Placement) (x y : Nat) (rows : List UInt8) (d : Nat) :
    (s.targets p x y rows).count d = s.hits p x y rows d := by
  induction rows generalizing y with
  | nil => rfl
  | cons row rows ih =>
    rw [hits_cons, ← ih, ← countP_range]
    simp only [targets, Sprite.positions, List.filterMap_append, List.count_append]
    congr 1
    rw [List.filterMap_map, List.count_filterMap, List.countP_filter]
    refine List.countP_congr fun c _ => ?_
    rw [Bool.and_eq_true, beq_iff_eq, decide_eq_true_eq, and_comm, ← offset?_eq_some_iff]
    rfl

theorem lt_of_mem_targets {s : Screen} {p : Placement} {x y d : Nat} {rows : List UInt8}
    (h : d ∈ s.targets p x y rows) : d < s.width * s.height := by
  obtain ⟨⟨a, b⟩, -, hd⟩ := List.mem_filterMap.mp h
  exact lt_of_lands (offset?_eq_some_iff.mp hd)

/-- Pixels are erased where an offset is lit to begin with, or comes a second time. -/
theorem erased_toggleAll_iff {s : Screen} {ds : List Nat}
    (hds : ∀ d ∈ ds, d < s.width * s.height) :
    (s.toggleAll ds).2 = true ↔ ∃ d ∈ ds, s.isLit d = true ∨ 2 ≤ ds.count d := by
  induction ds generalizing s with
  | nil => simp
  | cons d ds ih =>
    have hd : d < s.width * s.height := hds d (.head _)
    have hlit (e : Nat) : (s.toggle d).isLit e = (s.isLit e ^^ decide (d = e)) := by
      simp [isLit_toggle, hd]
    have hrest : ∀ e ∈ ds, e < (s.toggle d).width * (s.toggle d).height :=
      fun e he => hds e (.tail _ he)
    rw [toggleAll_cons, Bool.or_eq_true, ih hrest]
    constructor
    · rintro (h | ⟨e, he, h⟩)
      · exact ⟨d, .head _, .inl h⟩
      · by_cases hde : d = e
        · subst e
          have hc : 1 ≤ ds.count d := List.one_le_count_iff.mpr he
          refine ⟨d, .head _, .inr ?_⟩
          rw [List.count_cons_self]
          omega
        · refine ⟨e, .tail _ he, ?_⟩
          rw [hlit, decide_eq_false hde, Bool.xor_false] at h
          rwa [List.count_cons_of_ne hde]
    · rintro ⟨e, he, h⟩
      by_cases hde : d = e
      · subst e
        by_cases hl : s.isLit d = true
        · exact .inl hl
        · have htwo : 2 ≤ (d :: ds).count d := h.resolve_left hl
          rw [List.count_cons_self] at htwo
          have hm : d ∈ ds := List.one_le_count_iff.mp (Nat.le_of_succ_le_succ htwo)
          refine .inr ⟨d, hm, .inl ?_⟩
          rw [hlit, decide_eq_true rfl, eq_false_of_ne_true hl]
          rfl
      · have hm : e ∈ ds := (List.mem_cons.mp he).resolve_left (Ne.symm hde)
        refine .inr ⟨e, hm, ?_⟩
        rw [hlit, decide_eq_false hde, Bool.xor_false]
        rwa [List.count_cons_of_ne hde] at h

theorem isLit_blit (s : Screen) (p : Placement) (x y : Nat) (rows : List UInt8) {d : Nat}
    (hd : d < s.width * s.height) : (s.blit p x y rows).1.isLit d =
      (s.isLit d ^^ decide (s.hits p x y rows d % 2 = 1)) := by
  rw [blit, isLit_toggleAll _ _ hd, count_targets]
  rfl

theorem erased_blit_iff {s : Screen} {p : Placement} {x y : Nat} {rows : List UInt8} :
    (s.blit p x y rows).2 = true ↔ ∃ d, 1 ≤ s.hits p x y rows d ∧
      (s.isLit d = true ∨ 2 ≤ s.hits p x y rows d) := by
  rw [blit, erased_toggleAll_iff fun d hd => lt_of_mem_targets hd]
  simp only [← count_targets, List.one_le_count_iff]

theorem lt_of_hits {s : Screen} {p : Placement} {x y d : Nat} {rows : List UInt8}
    (h : 1 ≤ s.hits p x y rows d) : d < s.width * s.height := by
  rw [← count_targets] at h
  exact lt_of_mem_targets (List.one_le_count_iff.mp h)

/-- A blit inverts exactly the pixels that an odd number of set bits go to, and reports an erased
pixel exactly where a bit goes to a pixel that is lit or that another bit goes to. Where no two bits
share a pixel, that is where some pixel was lit before and is dark after. -/
theorem blit_by_hits (s : Screen) (p : Placement) (x y : Nat) (rows : List UInt8) :
    (s.blit p x y rows).1.width = s.width ∧ (s.blit p x y rows).1.height = s.height ∧
      (∀ d < s.width * s.height, (s.blit p x y rows).1.isLit d =
        (s.isLit d ^^ decide (s.hits p x y rows d % 2 = 1))) ∧
      ((s.blit p x y rows).2 = true ↔ ∃ d, 1 ≤ s.hits p x y rows d ∧
        (s.isLit d = true ∨ 2 ≤ s.hits p x y rows d)) ∧
      ((∀ d, s.hits p x y rows d ≤ 1) → ((s.blit p x y rows).2 = true ↔
        ∃ d, s.isLit d = true ∧ (s.blit p x y rows).1.isLit d = false)) := by
  have hpx : ∀ d < s.width * s.height, (s.blit p x y rows).1.isLit d =
      (s.isLit d ^^ decide (s.hits p x y rows d % 2 = 1)) := fun d hd => s.isLit_blit p x y rows hd
  have her : (s.blit p x y rows).2 = true ↔ ∃ d, 1 ≤ s.hits p x y rows d ∧
      (s.isLit d = true ∨ 2 ≤ s.hits p x y rows d) := erased_blit_iff
  refine ⟨width_toggleAll _ _, height_toggleAll _ _, hpx, her, fun h1 => her.trans ?_⟩
  constructor
  · rintro ⟨d, hd, hl⟩
    have hone : s.hits p x y rows d = 1 := Nat.le_antisymm (h1 d) hd
    have hlt : d < s.width * s.height := lt_of_hits hd
    have hl : s.isLit d = true := hl.resolve_right (by omega)
    refine ⟨d, hl, ?_⟩
    rw [hpx d hlt, hl, hone]
    rfl
  · rintro ⟨d, hl, hdark⟩
    have hlt : d < s.width * s.height := by
      refine Nat.lt_of_not_le fun hle => ?_
      rw [s.isLit_of_le hle] at hl
      cases hl
    rw [hpx d hlt, hl, Bool.true_xor, Bool.not_eq_false', decide_eq_true_eq] at hdark
    exact ⟨d, by omega, .inl hl⟩

/-- On a screen three pixels wide the bits of one row meet each other; on one as wide as the sprite
they do not. -/
theorem blit_by_hits_at_two_widths : ((dark 3 2).blit .wrap 1 1 [0xFF]).2 = true ∧
    (((dark 8 1).blit .linear 4 0 [0xFF]).2 = true ↔
      ∃ d, (dark 8 1).isLit d = true ∧ ((dark 8 1).blit .linear 4 0 [0xFF]).1.isLit d = false) := by
  constructor
  · obtain ⟨-, -, -, he, -⟩ := blit_by_hits (dark 3 2) .wrap 1 1 [0xFF]
    exact he.mpr ⟨3, by decide, .inr (by decide)⟩
  · obtain ⟨-, -, -, -, h1⟩ := blit_by_hits (dark 8 1) .linear 4 0 [0xFF]
    refine h1 fun d => ?_
    rw [← count_targets]
    exact List.nodup_iff_count_le_one.mp (by decide) d

end Chip8.Screen
