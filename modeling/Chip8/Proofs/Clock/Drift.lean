import Chip8.Proofs.Clock.Polling

/-!
Drift. While no poll comes later than the backlog allows, the ticks given out are the whole
intervals that have passed, however many polls they are spread over.
-/

namespace Chip8.Clock

variable {c d : Clock} {now t : Int} {times : List Int}

/-- The requests that poll at given times. -/
def polls (times : List Int) : List Request :=
  times.map .poll

/-- Whether no more whole intervals have elapsed than one poll can give out. -/
def KeepsUp (c : Clock) (now : Int) : Prop :=
  c.elapsed now / c.interval ≤ c.backlog

instance : Decidable (c.KeepsUp now) :=
  inferInstanceAs (Decidable (_ ≤ _))

/-- That polls come in order and keep up. -/
structure Steady (c : Clock) (times : List Int) : Prop where
  ordered : (c.last :: times).Pairwise (· ≤ ·)
  keepsUp : c.AtPolls KeepsUp (polls times)

instance : Decidable (c.Steady times) :=
  decidable_of_iff ((c.last :: times).Pairwise (· ≤ ·) ∧ c.AtPolls KeepsUp (polls times))
    ⟨fun h => ⟨h.1, h.2⟩, fun h => ⟨h.ordered, h.keepsUp⟩⟩

theorem periods_of_keepsUp (hb : c.backlog < UInt32.size) (hk : c.KeepsUp now) :
    c.periods now = c.elapsed now / c.interval := by
  unfold KeepsUp at hk
  unfold UInt32.size at hb
  apply Nat.mod_eq_of_lt
  unfold UInt64.size
  omega

/-- A poll that keeps up gives out all whole intervals and leaves less than one. -/
theorem Reachable.poll_of_keepsUp (h : Reachable c) (hn : c.interval ≠ 0) (hk : c.KeepsUp now)
    (ht : c.last ≤ now) :
    (c.poll now).2.last = c.last + (c.interval * (c.poll now).1 : Nat) ∧
      (c.poll now).2.last ≤ now ∧ now < (c.poll now).2.last + c.interval := by
  have hb := h.backlog_bounds.2
  have hperiods := periods_of_keepsUp hb hk
  have hle : c.periods now ≤ c.backlog := by
    rw [hperiods]
    exact hk
  have hdiv := Nat.div_add_mod (c.elapsed now) c.interval
  have hmod := Nat.mod_lt (c.elapsed now) (Nat.pos_of_ne_zero hn)
  have helapsed := elapsed_of_le ht
  rw [poll_of_le hn hb hle, hperiods]
  refine ⟨rfl, ?_, ?_⟩
  · dsimp only
    omega
  · dsimp only
    omega

/-- Each poll carries the rest of an interval over to the next: `t` is the time of the last poll,
less than an interval past the time that ticks have been given out for. -/
private theorem ticks_polls (h : Reachable c) (hn : c.interval ≠ 0)
    (hk : c.AtPolls KeepsUp (polls times)) (ho : (t :: times).Pairwise (· ≤ ·))
    (ht : c.last ≤ t) (hr : t < c.last + c.interval) :
    ((c.ticks (polls times)).sum : Int) = (times.getLastD t - c.last) / c.interval ∧
      (c.after (polls times)).last = c.last + (c.interval * (c.ticks (polls times)).sum : Nat) := by
  induction times generalizing c t with
  | nil =>
    have hzero : (t - c.last) / (c.interval : Int) = 0 := by
      apply Int.ediv_eq_zero_of_lt <;> omega
    constructor
    · exact hzero.symm
    · simp [polls, ticks, after_nil]
  | cons now rest ih =>
    obtain ⟨hnow, hlater⟩ := hk
    have hle : t ≤ now := List.rel_of_pairwise_cons ho (.head _)
    have hpos : (c.interval : Int) ≠ 0 := by omega
    obtain ⟨hlast, hpast, hrest⟩ := h.poll_of_keepsUp hn hnow (Int.le_trans ht hle)
    obtain ⟨hsum, hafter⟩ := ih (.request (.poll now) h) (by rwa [handle, interval_poll]) hlater
      ho.of_cons hpast (by rwa [handle, interval_poll])
    have hticks : (c.ticks (polls (now :: rest))).sum =
        (c.poll now).1 + ((c.poll now).2.ticks (polls rest)).sum := List.sum_cons
    rw [handle, interval_poll] at hsum hafter
    constructor
    · have hshift : rest.getLastD now - c.last =
          rest.getLastD now - (c.poll now).2.last + c.interval * ((c.poll now).1 : Int) := by
        push_cast at hlast
        omega
      rw [List.getLastD_cons, hticks, hshift, Int.add_mul_ediv_left _ _ hpos, ← hsum]
      push_cast
      omega
    · have hmul := Nat.mul_add c.interval (c.poll now).1 ((c.poll now).2.ticks (polls rest)).sum
      have hcons : c.after (polls (now :: rest)) = (c.poll now).2.after (polls rest) := rfl
      rw [hcons, hafter, hticks, hmul]
      omega

theorem Steady.ticks (hs : c.Steady times) (h : Reachable c) (hn : c.interval ≠ 0) :
    ((c.ticks (polls times)).sum : Int) = (times.getLastD c.last - c.last) / c.interval ∧
      (c.after (polls times)).last = c.last + (c.interval * (c.ticks (polls times)).sum : Nat) := by
  have hnow : c.last < c.last + c.interval := by omega
  exact ticks_polls h hn hs.keepsUp hs.ordered (Int.le_refl _) hnow

/-- Exactly the frequencies from one tick a second to one a nanosecond have an interval. -/
theorem interval_ofFrequency_ne_zero_iff {hz : Nat} :
    (ofFrequency hz now).interval ≠ 0 ↔ 1 ≤ hz ∧ hz ≤ Frequency.second := by
  show Frequency.second / hz ≠ 0 ↔ _
  rw [Nat.div_ne_zero_iff]
  omega

/-- An interval is cut down to whole nanoseconds, so that in whole seconds a frequency has room for
all its ticks. -/
theorem rate_mul_le_div {hz s : Nat} {length : Int} (hi : Frequency.interval hz ≠ 0)
    (hl : (s * Frequency.second : Nat) ≤ length) :
    ((hz * s : Nat) : Int) ≤ length / (Frequency.interval hz : Int) := by
  have hdiv : Frequency.interval hz * hz ≤ Frequency.second := Nat.div_mul_le_self _ _
  have hticks : hz * s * Frequency.interval hz ≤ s * Frequency.second :=
    calc
      hz * s * Frequency.interval hz = s * (Frequency.interval hz * hz) := by
        rw [Nat.mul_comm hz s, Nat.mul_assoc, Nat.mul_comm hz]
      _ ≤ s * Frequency.second := Nat.mul_le_mul_left s hdiv
  apply Int.le_ediv_of_mul_le
  · omega
  · calc
      ((hz * s : Nat) : Int) * (Frequency.interval hz : Int) =
          ((hz * s * Frequency.interval hz : Nat) : Int) := by push_cast; rfl
      _ ≤ (s * Frequency.second : Nat) := Int.ofNat_le.mpr hticks
      _ ≤ length := hl

/-- Polls that keep up give out the whole intervals between the first moment and the last poll, and
the clock stands where these end. So two ways to poll up to the same time give as many ticks and
leave clocks that stand alike, and a clock of a given frequency gives at least that many ticks for
each second. -/
theorem polling_does_not_drift (hc : Reachable c) (hn : c.interval ≠ 0) (hs : c.Steady times) :
    ((c.ticks (polls times)).sum : Int) = (times.getLastD c.last - c.last) / c.interval ∧
    (c.after (polls times)).last = c.last + (c.interval * (c.ticks (polls times)).sum : Nat) ∧
    (∀ d other, Reachable d → d.interval = c.interval → d.last = c.last → d.Steady other →
      other.getLastD c.last = times.getLastD c.last →
      (d.ticks (polls other)).sum = (c.ticks (polls times)).sum ∧
        (d.after (polls other)).last = (c.after (polls times)).last) ∧
    (∀ hz s : Nat, c.interval = (ofFrequency hz c.last).interval →
      c.last + (s * Frequency.second : Nat) ≤ times.getLastD c.last →
      hz * s ≤ (c.ticks (polls times)).sum) ∧
    ∀ hz now, (ofFrequency hz now).interval ≠ 0 ↔ 1 ≤ hz ∧ hz ≤ 1000000000 := by
  obtain ⟨hsum, hlast⟩ := hs.ticks hc hn
  refine ⟨hsum, hlast, ?_, ?_, fun hz now => interval_ofFrequency_ne_zero_iff⟩
  · intro d other hd hi hl ho hend
    obtain ⟨hsum', hlast'⟩ := ho.ticks hd (by rwa [hi])
    rw [hi, hl, hend, ← hsum] at hsum'
    have hsame : (d.ticks (polls other)).sum = (c.ticks (polls times)).sum := Int.ofNat_inj.mp hsum'
    refine ⟨hsame, ?_⟩
    rw [hlast', hlast, hi, hl, hsame]
  · intro hz s hi hend
    have hi : c.interval = Frequency.interval hz := hi
    have hrate := @rate_mul_le_div hz s (times.getLastD c.last - c.last) (by rwa [← hi]) (by omega)
    rw [← hi, ← hsum] at hrate
    exact Int.ofNat_le.mp hrate

/-- A clock of three ticks a second, polled three times and once in two seconds. -/
theorem polling_does_not_drift_over_two_seconds :
    ((ofFrequency 3 0).ticks (polls [500000000, 1200000000, 2000000000])) = [1, 2, 3] ∧
    ((ofFrequency 3 0).after (polls [500000000, 1200000000, 2000000000])).last = 1999999998 ∧
    ((ofFrequency 3 0).ticks (polls [2000000000])).sum =
      ((ofFrequency 3 0).ticks (polls [500000000, 1200000000, 2000000000])).sum ∧
    3 * 2 ≤ ((ofFrequency 3 0).ticks (polls [500000000, 1200000000, 2000000000])).sum := by
  have hc : Reachable (ofFrequency 3 0) := .ofInterval (Frequency.interval 3) 0
  have hs : (ofFrequency 3 0).Steady [500000000, 1200000000, 2000000000] := by decide
  have hs' : (ofFrequency 3 0).Steady [2000000000] := by decide
  obtain ⟨-, -, hsame, hrate, -⟩ := polling_does_not_drift hc (by decide) hs
  refine ⟨by decide, by decide, (hsame _ _ hc rfl rfl hs' rfl).1, hrate 3 2 rfl (by decide)⟩

end Chip8.Clock
