import Chip8.Numeral
import Chip8.Settings

/-!
The command line: what it asks for, and the settings that its options override.
-/

namespace Chip8

structure RunOptions where
  program : String
  config : Option String := none
  frequency : Option Nat := none
  steps : Option Nat := none
  seed : Option Nat := none
  wrap : Bool := false
  deriving DecidableEq

namespace RunOptions

/-- Sets an option that takes a value; none if there is no such option or the value is no number
where one is needed. -/
def set? (o : RunOptions) (name value : String) : Option RunOptions :=
  if name = "--config" then some { o with config := some value }
  else if name = "--hz" then
    (Numeral.word64? value.toList).map fun n => { o with frequency := some n }
  else if name = "--steps" then
    (Numeral.word64? value.toList).map fun n => { o with steps := some n }
  else if name = "--seed" then
    (Numeral.word64? value.toList).map fun n => { o with seed := some n }
  else none

/-- Reads options from left to right; a later one replaces an earlier one of its kind. -/
def read? (o : RunOptions) : List String → Option RunOptions
  | [] => some o
  | name :: rest =>
    if name = "--wrap" then read? { o with wrap := true } rest
    else match rest with
      | [] => none
      | value :: rest => (o.set? name value).bind fun o => o.read? rest

def override (o : RunOptions) (s : Settings) : Settings :=
  { s with
    frequency := o.frequency <|> s.frequency
    seed := o.seed.map UInt64.ofNat <|> s.seed
    placement := if o.wrap then .wrap else s.placement }

end RunOptions

inductive Command
  | run (options : RunOptions)
  | list (program : String)
  deriving DecidableEq

namespace Command

/-- The command that the arguments ask for; none for bad usage. What follows the file to list is
ignored. -/
def ofArguments? : List String → Option Command
  | verb :: program :: rest =>
    if verb = "run" then (RunOptions.read? { program } rest).map .run
    else if verb = "dump" then some (.list program)
    else none
  | _ => none

def version : String := "0.4.0"

def usage : String := "
usage: chip8 CMD FILE [OPTIONS]

commands:
    run     Run the target ROM file
    dump    Print the instructions of the target ROM file

options (run):
    --config FILE   Load machine settings from a YAML file
    --hz N          Instructions per second, 0 runs unthrottled
    --steps N       Stop after N instructions
    --seed N        Seed for the random number generator
    --wrap          Wrap sprites around the screen edges

examples:
    chip8 run maze.rom --hz 500
    chip8 run breakout.rom --config chip8.yaml
    chip8 dump breakout.rom

Set RUST_LOG=debug for more output.
"

end Command

end Chip8
