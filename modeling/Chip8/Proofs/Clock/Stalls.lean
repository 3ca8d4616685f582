import Chip8.Proofs.Clock.Drift

/-!
One poll. It gives out the whole intervals that have elapsed, up to the backlog, and keeps the rest
of an interval unless it drops a stall. This fails for those stalls only that pass for none, because
what 64 bits hold of their intervals is no more than the backlog.
-/

namespace Chip8.Clock

variable {c : Clock} {now : Int}

/-- That a poll gives out the whole intervals elapsed, but no more than the backlog, and that it
leaves the rest of an interval, or no time at all where there were more. -/
structure PollsExactly (c : Clock) (now : Int) : Prop where
  ticks_eq : (c.poll now).1 = min (c.elapsed now / c.interval) c.backlog
  last_eq : c.backlog < c.elapsed now / c.interval → (c.poll now).2.last = now
  rest_eq : c.elapsed now / c.interval ≤ c.backlog →
    now - (c.poll now).2.last = (now - c.last) % c.interval
  last_le : (c.poll now).2.last ≤ now
  rest_lt : now - (c.poll now).2.last < c.interval

theorem Reachable.pollsExactly_of_keepsUp (h : Reachable c) (hn : c.interval ≠ 0)
    (ht : c.last ≤ now) (hk : c.KeepsUp now) : c.PollsExactly now := by
  have hb := h.backlog_bounds.2
  have hperiods := periods_of_keepsUp hb hk
  have hle : c.elapsed now / c.interval ≤ c.backlog := hk
  have hticks : (c.poll now).1 = c.elapsed now / c.interval := by
    rw [poll_of_le hn hb (by rwa [hperiods]), hperiods]
  obtain ⟨hlast, hpast, hrest⟩ := h.poll_of_keepsUp hn hk ht
  have helapsed := elapsed_of_le ht
  have hdiv := Nat.div_add_mod (c.elapsed now) c.interval
  have hmod : (now - c.last) % (c.interval : Int) = (c.elapsed now % c.interval : Nat) := by
    rw [← helapsed]
    rfl
  rw [hticks] at hlast
  constructor
  · rw [hticks, Nat.min_eq_left hle]
  · intro hstall
    omega
  · intro _
    rw [hmod, hlast]
    omega
  · exact hpast
  · omega

theorem pollsExactly_of_stall (hn : c.interval ≠ 0) (hs : c.backlog < c.periods now) :
    c.PollsExactly now := by
  have hperiods : c.periods now ≤ c.elapsed now / c.interval := Nat.mod_le _ _
  have hpoll := poll_of_stall hn hs
  have hlast : (c.poll now).2.last = now := by rw [hpoll]
  constructor
  · rw [hpoll, Nat.min_eq_right (by omega)]
  · exact fun _ => hlast
  · intro hle
    omega
  · exact Int.le_of_eq hlast
  · omega

/-- A stall that passes for none keeps at least as much time as 64 bits count intervals. -/
theorem Reachable.poll_of_hidden_stall (h : Reachable c) (hn : c.interval ≠ 0)
    (ht : c.last ≤ now) (hk : ¬ c.KeepsUp now) (hs : ¬ c.backlog < c.periods now) :
    (c.poll now).1 = c.elapsed now / c.interval % UInt64.size ∧
      (c.interval * UInt64.size : Nat) ≤ now - (c.poll now).2.last := by
  have hpoll := poll_of_le hn h.backlog_bounds.2 (Nat.le_of_not_lt hs)
  have hstall : c.backlog < c.elapsed now / c.interval := Nat.lt_of_not_le hk
  have hword := Nat.div_add_mod (c.elapsed now / c.interval) UInt64.size
  have helapsed := elapsed_of_le ht
  rw [hpoll]
  refine ⟨rfl, ?_⟩
  -- The number of intervals does not fit, or it would be the one compared with the backlog.
  have hwords : 1 ≤ c.elapsed now / c.interval / UInt64.size := by
    refine Nat.pos_of_ne_zero fun hzero => hs ?_
    rw [hzero] at hword
    unfold periods
    omega
  have hmul : UInt64.size + c.periods now ≤ c.elapsed now / c.interval := by
    have hone := Nat.mul_le_mul_left UInt64.size hwords
    unfold periods
    omega
  have htime : c.interval * UInt64.size + c.interval * c.periods now ≤ c.elapsed now :=
    calc
      c.interval * UInt64.size + c.interval * c.periods now =
          c.interval * (UInt64.size + c.periods now) := (Nat.mul_add _ _ _).symm
      _ ≤ c.interval * (c.elapsed now / c.interval) := Nat.mul_le_mul_left _ hmul
      _ ≤ c.elapsed now := Nat.mul_div_le _ _
  dsimp only
  omega

/-- A poll is exact unless more intervals than the backlog have elapsed while what 64 bits hold of
their number is no more than the backlog. Then it gives out as many as 64 bits hold, and leaves at
least as many intervals as 64 bits count. So a poll is exact wherever the intervals fit 64 bits. -/
theorem polls_exactly_iff (hc : Reachable c) (hn : c.interval ≠ 0) (ht : c.last ≤ now) :
    (c.PollsExactly now ↔ c.elapsed now / c.interval ≤ c.backlog ∨
      c.backlog < c.elapsed now / c.interval % UInt64.size) ∧
    (c.elapsed now / c.interval < UInt64.size → c.PollsExactly now) ∧
    (¬ c.PollsExactly now →
      (c.poll now).1 = c.elapsed now / c.interval % UInt64.size ∧
        (c.interval * UInt64.size : Nat) ≤ now - (c.poll now).2.last) := by
  have hkeeps : c.KeepsUp now → c.PollsExactly now := hc.pollsExactly_of_keepsUp hn ht
  have hstall : c.backlog < c.periods now → c.PollsExactly now := pollsExactly_of_stall hn
  have hhidden : ¬ (c.KeepsUp now ∨ c.backlog < c.periods now) →
      (c.poll now).1 = c.elapsed now / c.interval % UInt64.size ∧
        (c.interval * UInt64.size : Nat) ≤ now - (c.poll now).2.last := fun h => by
    obtain ⟨hk, hs⟩ := not_or.mp h
    exact hc.poll_of_hidden_stall hn ht hk hs
  constructor
  · constructor
    · intro hexact
      have hrest := hexact.rest_lt
      have hsize : c.interval ≤ c.interval * UInt64.size := Nat.le_mul_of_pos_right _ (by decide)
      refine Decidable.byContradiction fun hneither => ?_
      have hleft := (hhidden hneither).2
      omega
    · intro h
      exact h.elim hkeeps hstall
  constructor
  · intro hlt
    have hperiods : c.periods now = c.elapsed now / c.interval := Nat.mod_eq_of_lt hlt
    by_cases hk : c.KeepsUp now
    · exact hkeeps hk
    · refine hstall ?_
      rw [hperiods]
      exact Nat.lt_of_not_le hk
  · intro hnot
    exact hhidden fun h => hnot (h.elim hkeeps hstall)

/-- A stall of five intervals more than 64 bits count is told by the five where the backlog is
four. -/
theorem polls_exactly_iff_past_word :
    ((ofInterval 1 0).withBacklog 4).PollsExactly 18446744073709551621 ∧
      ((ofInterval 1 0).withBacklog 4).poll 18446744073709551621 =
        (4, ⟨1, 18446744073709551621, 4⟩) := by
  have hc : Reachable ((ofInterval 1 0).withBacklog 4) := .request (.limit 4) (.ofInterval 1 0)
  have hexact := (@polls_exactly_iff _ 18446744073709551621 hc (by decide) (by decide)).1
  exact ⟨hexact.mpr (by decide), by decide⟩

/-- A stall of as many intervals as 64 bits count passes for no time at all. -/
theorem not_polls_exactly_at_word :
    (ofInterval 1 0).poll 18446744073709551616 = (0, ofInterval 1 0) ∧
      ¬ (ofInterval 1 0).PollsExactly 18446744073709551616 := by
  have hpoll : (ofInterval 1 0).poll 18446744073709551616 = (0, ofInterval 1 0) := by decide
  refine ⟨hpoll, fun hexact => ?_⟩
  have hticks := hexact.ticks_eq
  rw [hpoll] at hticks
  exact absurd hticks (by decide)

end Chip8.Clock
