/-!
Clocks that turn the passage of time into ticks at a fixed rate. Times and intervals are counted in
nanoseconds; the clock remembers up to when ticks have been given out.
-/

namespace Chip8

namespace Frequency

/-- Nanoseconds in a second. -/
def second : Nat := 1000000000

/-- Ticks a second of the delay and sound timers. -/
def timers : Nat := 60

/-- Instructions a second unless the settings say otherwise. -/
def standard : Nat := 700

/-- Whole nanoseconds between two ticks at a frequency; zero for no limit. -/
def interval (hz : Nat) : Nat :=
  second / hz

end Frequency

structure Clock where
  interval : Nat
  last : Int := 0
  backlog : Nat := 16
  deriving DecidableEq

namespace Clock

/-- The most ticks that one poll of a new clock gives. -/
def standardBacklog : Nat := 16

def ofInterval (nanos : Nat) (now : Int) : Clock :=
  ⟨nanos, now, standardBacklog⟩

def ofFrequency (hz : Nat) (now : Int) : Clock :=
  ofInterval (Frequency.interval hz) now

def timers (now : Int) : Clock :=
  ofFrequency Frequency.timers now

/-- Limits the ticks that one poll gives; the limit is at least 1 and fits 32 bits. -/
def withBacklog (c : Clock) (n : Nat) : Clock :=
  { c with backlog := if n = 0 then 1 else if n < UInt32.size then n else UInt32.size - 1 }

/-- Time since the last tick given out, none if that lies ahead. -/
def elapsed (c : Clock) (now : Int) : Nat :=
  (now - c.last).toNat

/-- The whole intervals elapsed, counted in 64 bits. -/
def periods (c : Clock) (now : Int) : Nat :=
  c.elapsed now / c.interval % UInt64.size

/-- Gives out the ticks that are due. A stall longer than the backlog is dropped; otherwise the
remainder of an interval is kept. Without an interval every poll gives one tick. -/
def poll (c : Clock) (now : Int) : Nat × Clock :=
  if c.interval = 0 then (1, { c with last := now })
  else
    let n := c.periods now
    if c.backlog < n then (c.backlog, { c with last := now })
    else (n, { c with last := c.last + ((c.interval * (n % UInt32.size) : Nat) : Int) })

def untilNext (c : Clock) (now : Int) : Nat :=
  c.interval - c.elapsed now

end Clock

end Chip8
