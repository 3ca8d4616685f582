import Chip8.Clock
import Mathlib.Algebra.GroupWithZero.Nat

/-!
Clocks over time. However and whenever it is polled, and whatever its backlog is set to, a clock
gives out no more ticks than the time that it has passed over holds.
-/

namespace Chip8.Clock

variable {c : Clock} {now : Int}

/-- What is done to a clock over time. -/
inductive Request
  | poll (now : Int)
  | limit (backlog : Nat)
  deriving DecidableEq

def handle (c : Clock) : Request → Clock
  | .poll now => (c.poll now).2
  | .limit n => c.withBacklog n

def after (c : Clock) (requests : List Request) : Clock :=
  requests.foldl handle c

/-- The ticks that each poll gives, in order. -/
def ticks (c : Clock) : List Request → List Nat
  | [] => []
  | .poll now :: rest => (c.poll now).1 :: (c.poll now).2.ticks rest
  | .limit n :: rest => (c.withBacklog n).ticks rest

/-- The later of two times. -/
def later (t u : Int) : Int :=
  if t < u then u else t

/-- The latest of a time and the times of all polls. -/
def latest (t : Int) : List Request → Int
  | [] => t
  | .poll now :: rest => latest (later t now) rest
  | .limit _ :: rest => latest t rest

/-- Whether `P` holds of clock and time at every poll. -/
def AtPolls (P : Clock → Int → Prop) (c : Clock) : List Request → Prop
  | [] => True
  | .poll now :: rest => P c now ∧ (c.poll now).2.AtPolls P rest
  | .limit n :: rest => (c.withBacklog n).AtPolls P rest

instance decidableAtPolls {P : Clock → Int → Prop} [∀ c now, Decidable (P c now)] :
    ∀ (c : Clock) (requests : List Request), Decidable (c.AtPolls P requests)
  | _, [] => .isTrue trivial
  | c, .poll now :: rest =>
    have : Decidable ((c.poll now).2.AtPolls P rest) := decidableAtPolls (c.poll now).2 rest
    inferInstanceAs (Decidable (P c now ∧ (c.poll now).2.AtPolls P rest))
  | c, .limit n :: rest => decidableAtPolls (c.withBacklog n) rest

/-- Clocks that requests lead to from a new one. -/
inductive Reachable : Clock → Prop
  | ofInterval (nanos : Nat) (now : Int) : Reachable (ofInterval nanos now)
  | request {c : Clock} (r : Request) (h : Reachable c) : Reachable (c.handle r)

theorem poll_of_unlimited (hn : c.interval = 0) : c.poll now = (1, { c with last := now }) := by
  rw [poll, if_pos hn]

theorem poll_of_stall (hn : c.interval ≠ 0) (h : c.backlog < c.periods now) :
    c.poll now = (c.backlog, { c with last := now }) := by
  rw [poll, if_neg hn]
  exact if_pos h

/-- Numbers of intervals up to the backlog survive the cast to 32 bits. -/
theorem periods_mod (hb : c.backlog < UInt32.size) (h : c.periods now ≤ c.backlog) :
    c.periods now % UInt32.size = c.periods now :=
  Nat.mod_eq_of_lt (Nat.lt_of_le_of_lt h hb)

theorem poll_of_le (hn : c.interval ≠ 0) (hb : c.backlog < UInt32.size)
    (h : c.periods now ≤ c.backlog) : c.poll now =
      (c.periods now, { c with last := c.last + ((c.interval * c.periods now : Nat) : Int) }) := by
  have hmod := periods_mod hb h
  rw [poll, if_neg hn]
  dsimp only
  rw [if_neg (Nat.not_lt.mpr h), hmod]

@[simp]
theorem interval_poll (c : Clock) (now : Int) : (c.poll now).2.interval = c.interval := by
  unfold poll
  dsimp only
  split
  case isTrue => rfl
  case isFalse => split <;> rfl

@[simp]
theorem backlog_poll (c : Clock) (now : Int) : (c.poll now).2.backlog = c.backlog := by
  unfold poll
  dsimp only
  split
  case isTrue => rfl
  case isFalse => split <;> rfl

theorem elapsed_of_le (ht : c.last ≤ now) : (c.elapsed now : Int) = now - c.last := by
  unfold elapsed
  omega

/-- Intervals lost in 64 bits only make the product smaller. -/
theorem interval_mul_periods_le (c : Clock) (now : Int) :
    c.interval * c.periods now ≤ c.elapsed now := by
  have hmod : c.periods now ≤ c.elapsed now / c.interval := Nat.mod_le _ _
  have hmul := Nat.mul_le_mul_left c.interval hmod
  have hdiv := Nat.mul_div_le (c.elapsed now) c.interval
  omega

theorem after_nil (c : Clock) : c.after [] = c := rfl

theorem after_poll (c : Clock) (now : Int) (rest : List Request) :
    c.after (.poll now :: rest) = (c.poll now).2.after rest := rfl

theorem Reachable.after (h : Reachable c) (requests : List Request) :
    Reachable (c.after requests) := by
  induction requests generalizing c with
  | nil => exact h
  | cons r rest ih => exact ih (.request r h)

theorem Reachable.backlog_bounds (h : Reachable c) : 1 ≤ c.backlog ∧ c.backlog < UInt32.size := by
  induction h with
  | ofInterval nanos now =>
    show 1 ≤ standardBacklog ∧ standardBacklog < UInt32.size
    decide
  | @request c r _ ih =>
    cases r with
    | poll now => rwa [handle, backlog_poll]
    | limit n =>
      simp only [handle, withBacklog, UInt32.size]
      split
      case isTrue => omega
      case isFalse => split <;> omega

/-- What one poll keeps to: ticks and time go forward together, no further than the present. -/
structure Advances (c : Clock) (now : Int) : Prop where
  last_le : c.last ≤ (c.poll now).2.last
  le_present : (c.poll now).2.last ≤ later c.last now
  ticks_le : (c.interval * (c.poll now).1 : Nat) ≤ (c.poll now).2.last - c.last
  ticks_eq : c.periods now ≤ c.backlog →
    (c.interval * (c.poll now).1 : Nat) = (c.poll now).2.last - c.last

theorem Reachable.advances (h : Reachable c) (hn : c.interval ≠ 0) (now : Int) :
    c.Advances now := by
  have hb := h.backlog_bounds.2
  have hproduct := c.interval_mul_periods_le now
  by_cases hs : c.backlog < c.periods now
  · -- The backlog that is given out takes less time than what the stall passes over.
    have hpos : 0 < c.interval * c.periods now := by
      have hp : 0 < c.periods now := by omega
      exact Nat.mul_pos (Nat.pos_of_ne_zero hn) hp
    have hless : c.interval * c.backlog ≤ c.interval * c.periods now :=
      Nat.mul_le_mul_left _ (Nat.le_of_lt hs)
    have helapsed : (c.elapsed now : Int) = now - c.last := by
      unfold elapsed at hproduct ⊢
      omega
    have hpoll := poll_of_stall hn hs
    constructor
    · rw [hpoll]
      dsimp only
      omega
    · have hlater : later c.last now = now := if_pos (by omega)
      rw [hpoll]
      exact Int.le_of_eq hlater.symm
    · rw [hpoll]
      dsimp only
      omega
    · intro hle
      omega
  · have hpoll := poll_of_le hn hb (Nat.le_of_not_lt hs)
    constructor
    · rw [hpoll]
      dsimp only
      omega
    · rw [hpoll]
      unfold elapsed at hproduct
      unfold later
      dsimp only
      split <;> omega
    · rw [hpoll]
      dsimp only
      omega
    · intro
      rw [hpoll]
      dsimp only
      omega

theorem latest_mono {t u : Int} (h : t ≤ u) (requests : List Request) :
    latest t requests ≤ latest u requests := by
  induction requests generalizing t u with
  | nil => exact h
  | cons r rest ih =>
    cases r with
    | poll now =>
      simp only [latest]
      apply ih
      unfold later
      split <;> split <;> omega
    | limit n => exact ih h

/-- What requests keep to: ticks and time go forward together, no further than the latest poll. -/
structure KeepsTime (c : Clock) (requests : List Request) : Prop where
  last_le : c.last ≤ (c.after requests).last
  le_latest : (c.after requests).last ≤ latest c.last requests
  ticks_le : (c.interval * (c.ticks requests).sum : Nat) ≤ (c.after requests).last - c.last
  ticks_eq : c.AtPolls (fun c now => c.periods now ≤ c.backlog) requests →
    (c.interval * (c.ticks requests).sum : Nat) = (c.after requests).last - c.last

theorem Reachable.keepsTime (h : Reachable c) (hn : c.interval ≠ 0) (requests : List Request) :
    c.KeepsTime requests := by
  induction requests generalizing c with
  | nil =>
    constructor
    · exact Int.le_refl _
    · exact Int.le_refl _
    · simp [ticks, after_nil]
    · simp [ticks, after_nil]
  | cons r rest ih =>
    have hrest := ih (.request r h)
    cases r with
    | poll now =>
      have hpoll := h.advances hn now
      have hrest : (c.poll now).2.KeepsTime rest := hrest (by rwa [handle, interval_poll])
      obtain ⟨hlast, hpresent, hle, heq⟩ := hpoll
      obtain ⟨hlast', hlatest, hle', heq'⟩ := hrest
      have hmono := latest_mono hpresent rest
      have hpresent' : latest (later c.last now) rest = latest c.last (.poll now :: rest) := rfl
      rw [interval_poll] at hle' heq'
      have hsum : c.interval * (c.ticks (.poll now :: rest)).sum =
          c.interval * (c.poll now).1 + c.interval * ((c.poll now).2.ticks rest).sum := by
        rw [ticks, List.sum_cons, Nat.mul_add]
      constructor
      · rw [after_poll]
        omega
      · rw [after_poll]
        omega
      · rw [after_poll, hsum]
        omega
      · intro hsteady
        have hnow := heq hsteady.1
        have hlater := heq' hsteady.2
        rw [after_poll, hsum]
        omega
    | limit n =>
      have hrest : (c.withBacklog n).KeepsTime rest := hrest hn
      exact { hrest with }

/-- The numbers that a poll works with fit their types. -/
structure Fits (c : Clock) (now : Int) : Prop where
  ticks_le : (c.poll now).1 ≤ c.backlog
  mod_eq : c.periods now ≤ c.backlog → c.periods now % UInt32.size = c.periods now
  mul_le : c.interval * c.periods now ≤ c.elapsed now
  add_le : c.last + (c.interval * c.periods now : Nat) ≤ later c.last now

theorem Reachable.fits (h : Reachable c) (hn : c.interval ≠ 0) (now : Int) : c.Fits now := by
  have hb := h.backlog_bounds.2
  have hproduct := c.interval_mul_periods_le now
  constructor
  · by_cases hs : c.backlog < c.periods now
    · have hpoll := poll_of_stall hn hs
      exact Nat.le_of_eq (congrArg Prod.fst hpoll)
    · have hle := Nat.le_of_not_lt hs
      rwa [poll_of_le hn hb hle]
  · exact periods_mod hb
  · exact hproduct
  · unfold elapsed at hproduct
    unfold later
    split <;> omega

theorem Reachable.atPolls {P : Clock → Int → Prop}
    (hP : ∀ {c}, Reachable c → c.interval ≠ 0 → ∀ now, P c now) (h : Reachable c)
    (hn : c.interval ≠ 0) (requests : List Request) : c.AtPolls P requests := by
  induction requests generalizing c with
  | nil => trivial
  | cons r rest ih =>
    have hrest := ih (.request r h)
    cases r with
    | poll now => exact ⟨hP h hn now, hrest (by rwa [handle, interval_poll])⟩
    | limit n => exact hrest hn

theorem ticks_of_unlimited (hn : c.interval = 0) {requests : List Request} {n : Nat}
    (h : n ∈ c.ticks requests) : n = 1 := by
  induction requests generalizing c with
  | nil => cases h
  | cons r rest ih =>
    cases r with
    | poll now =>
      rw [ticks, List.mem_cons] at h
      rcases h with rfl | h
      · rw [poll_of_unlimited hn]
      · exact ih (by rwa [interval_poll]) h
    | limit k =>
      have hn : (c.withBacklog k).interval = 0 := hn
      exact ih hn h

/-- A clock with an interval never runs fast: its time only goes forward, never past the latest
poll, and holds all the ticks given out, exactly so unless a stall was dropped. No poll overflows
on the way. A clock without an interval gives one tick for each poll. -/
theorem never_runs_fast (hc : Reachable c) (requests : List Request) :
    (c.interval ≠ 0 → c.KeepsTime requests ∧ c.AtPolls Fits requests) ∧
    (c.interval = 0 → ∀ n ∈ c.ticks requests, n = 1) ∧
    1 ≤ (c.after requests).backlog ∧ (c.after requests).backlog ≤ 4294967295 := by
  have hb := (hc.after requests).backlog_bounds
  refine ⟨fun hn => ⟨hc.keepsTime hn requests, hc.atPolls Reachable.fits hn requests⟩, ?_, hb.1, ?_⟩
  · intro hn n
    exact ticks_of_unlimited hn
  · exact Nat.le_of_lt_succ hb.2

/-- Polls before and after a stall, one of them back in time, with the backlog set twice. -/
theorem never_runs_fast_after_stall :
    (ofInterval 10 0).ticks [.poll 25, .limit 2, .poll 100, .poll 40, .limit 0, .poll 111] =
      [2, 2, 0, 1] ∧
    (ofInterval 10 0).KeepsTime [.poll 25, .limit 2, .poll 100, .poll 40, .limit 0, .poll 111] ∧
    (ofInterval 10 0).AtPolls Fits
      [.poll 25, .limit 2, .poll 100, .poll 40, .limit 0, .poll 111] := by
  have hfast := never_runs_fast (.ofInterval 10 0)
    [.poll 25, .limit 2, .poll 100, .poll 40, .limit 0, .poll 111]
  exact ⟨by decide, hfast.1 (by decide)⟩

end Chip8.Clock
