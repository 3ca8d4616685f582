import Chip8.Command
import Chip8.Failure
import Chip8.Listing
import Chip8.Settings.Reading

/-!
What a command leaves behind, and what keeps it from success.
-/

namespace Chip8

inductive FileProblem
  | missing
  | denied
  | directory
  /-- Something on the way to it is not a directory. -/
  | notDirectory
  | longName
  | other (text : String)
  deriving DecidableEq

def FileProblem.message : FileProblem → String
  | .missing => "No such file or directory (os error 2)"
  | .denied => "Permission denied (os error 13)"
  | .directory => "Is a directory (os error 21)"
  | .notDirectory => "Not a directory (os error 20)"
  | .longName => "File name too long (os error 36)"
  | .other text => text

/-- What ends a command without success. -/
inductive Trouble
  | machine (cause : Failure)
  | file (problem : FileProblem)
  | settings (problem : Settings.Problem)
  deriving DecidableEq

def Trouble.reason : Trouble → String
  | .machine cause => cause.message
  | .file problem => problem.message
  | .settings problem => "invalid config: " ++ problem.message

def Trouble.message (t : Trouble) : String :=
  "application error: " ++ t.reason

/-- The contents of files by name. -/
abbrev Files := String → Except FileProblem (List UInt8)

/-- What a command leaves behind. -/
structure Report where
  exit : UInt32
  out : String
  err : String
  deriving DecidableEq, Inhabited

namespace Report

def usage : Report :=
  ⟨64, "Chip8 v" ++ Command.version ++ "\n" ++ Command.usage ++ "\n", ""⟩

def ofTrouble (out : String) (t : Trouble) : Report :=
  ⟨1, out, t.message ++ "\n"⟩

def listing (files : Files) (program : String) : Report :=
  match files program with
  | .ok bytes => ⟨0, Listing.text bytes, ""⟩
  | .error problem => ofTrouble "" (.file problem)

end Report

end Chip8
