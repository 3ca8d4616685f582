import Chip8.Clock
import Chip8.Document.Draft
import Chip8.FramePrinter
import Chip8.Machine.Execute
import Chip8.Report

/-!
Runs of programs in a terminal. A session is fed with the ticks of two clocks, one for the timers
and one for the instructions, and gathers the text to print until it ends.
-/

namespace Chip8

namespace Settings

def ofBytes (bytes : List UInt8) : Except Problem Settings :=
  match (String.fromUTF8? ⟨bytes.toArray⟩).bind (Document.ofText? depth) with
  | some d => ofDocument .text d
  | none => .error .unreadable

end Settings

/-- The settings of a run: the defaults or those of the config file, then the options. A directory
counts as a file that holds no settings. -/
def RunOptions.settings (o : RunOptions) (files : Files) : Except Trouble Settings :=
  match o.config with
  | none => .ok (o.override {})
  | some name =>
    match files name with
    | .error .directory => .error (.settings .unreadable)
    | .error problem => .error (.file problem)
    | .ok bytes =>
      match Settings.ofBytes bytes with
      | .error problem => .error (.settings problem)
      | .ok s => .ok (o.override s)

inductive Ending
  | limit
  | keyWait
  | fault (cause : Failure)
  deriving DecidableEq

structure Session where
  machine : Machine
  limit : Option Nat := none
  steps : Nat := 0
  printer : FramePrinter := {}
  ending : Option Ending := none

namespace Session

/-- Reads settings and program, in this order, and makes a machine ready to run it. -/
def start (o : RunOptions) (files : Files) (entropy : Generator) : Except Trouble Session :=
  match o.settings files with
  | .error t => .error t
  | .ok settings =>
    match files o.program with
    | .error problem => .error (.file problem)
    | .ok program =>
      match Machine.create settings entropy with
      | .error cause => .error (.machine cause)
      | .ok blank =>
        let loaded := blank.load program
        match loaded.result with
        | .error cause => .error (.machine cause)
        | .ok () => .ok { machine := loaded.machine, limit := o.steps }

/-- Takes a step unless the session is over or has reached its limit. -/
def advance (s : Session) : Session :=
  if s.ending.isSome then s
  else if s.limit.any (· ≤ s.steps) then { s with ending := some .limit }
  else
    let o := s.machine.step
    let s := { s with machine := o.machine, steps := s.steps + 1 }
    match o.result with
    | .ok .draw => { s with printer := (s.printer.present s.machine.screen none).1 }
    | .ok .keyWait => { s with ending := some .keyWait }
    | .ok _ => s
    | .error cause => { s with ending := some (.fault cause) }

/-- Takes the ticks that the clocks of timers and instructions give at one time. -/
def poll (s : Session) (timerTicks stepTicks : Nat) : Session :=
  if s.ending.isSome then s
  else
    Nat.repeat advance stepTicks
      { s with machine := Nat.repeat Machine.tick timerTicks s.machine }

/-- What a session that is over leaves behind: the last screen follows the frames, except after a
fault. -/
def report? (s : Session) : Option Report :=
  match s.ending with
  | none => none
  | some (.fault cause) => some (.ofTrouble s.printer.written (.machine cause))
  | some .limit | some .keyWait => some ⟨0, s.printer.written ++ s.machine.screen.text, ""⟩

end Session

/-- A session with the clocks of its instructions and timers. -/
structure PacedSession where
  session : Session
  steps : Clock
  timers : Clock

namespace PacedSession

/-- Starts both clocks; the settings have the rate of the instructions. -/
def ofSession (s : Session) (stepsNow timersNow : Int) : PacedSession where
  session := s
  steps := .ofFrequency s.machine.settings.effectiveFrequency stepsNow
  timers := .timers timersNow

/-- Feeds the session with the ticks that its clocks give, each at its own time. -/
def turn (p : PacedSession) (timersNow stepsNow : Int) : PacedSession :=
  let timers := p.timers.poll timersNow
  let steps := p.steps.poll stepsNow
  ⟨p.session.poll timers.1 steps.1, steps.2, timers.2⟩

/-- Takes away the text that has been printed. -/
def drain (p : PacedSession) : PacedSession :=
  { p with session.printer.written := "" }

end PacedSession

end Chip8
