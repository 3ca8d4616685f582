import Chip8.Session

/-!
The program: reads files, feeds a session with real time and prints what it gathers.
-/

namespace Chip8.Terminal

def readFile (name : String) : IO (Except FileProblem (List UInt8)) := do
  try
    let bytes ← IO.FS.readBinFile name
    return .ok bytes.toList
  catch
    | .noFileOrDirectory .. => return .error .missing
    | .permissionDenied .. => return .error .denied
    | .inappropriateType _ 21 _ => return .error .directory
    | .inappropriateType .. => return .error .notDirectory
    | .invalidArgument .. => return .error .longName
    | e => return .error (.other (toString e))

def readFiles (names : List String) : IO Files := do
  let contents ← names.mapM fun name => do return (name, ← readFile name)
  return fun name => (contents.lookup name).getD (.error .missing)

/-- A generator that starts from random bytes of the system. -/
def entropy : IO Generator := do
  let bytes ← IO.getRandomBytes 8
  return .ofSeed (UInt64.ofNat (bytes.foldl (fun n b => n * 256 + b.toNat) 0))

def now : IO Int := do
  return Int.ofNat (← IO.monoNanosNow)

def print (text : String) : IO Unit := do
  let out ← IO.getStdout
  out.putStr text
  out.flush

partial def await (c : Clock) : IO Unit := do
  let left := c.untilNext (← now)
  unless left = 0 do
    IO.sleep (UInt32.ofNat (left / 1000000))
    await c

/-- Prints the frames of a session as they come, until it is over. -/
partial def play (p : PacedSession) : IO Report := do
  let p := p.turn (← now) (← now)
  match p.session.report? with
  | some report => return report
  | none =>
    print p.session.printer.written
    await p.steps
    play p.drain

def run (o : RunOptions) : IO Report := do
  let files ← readFiles (o.config.toList ++ [o.program])
  match Session.start o files (← entropy) with
  | .error t => return .ofTrouble "" t
  | .ok s => play (.ofSession s (← now) (← now))

end Chip8.Terminal

def main (args : List String) : IO UInt32 := do
  let report ← match Chip8.Command.ofArguments? args with
    | none => pure Chip8.Report.usage
    | some (.list program) =>
      let files ← Chip8.Terminal.readFiles [program]
      pure (Chip8.Report.listing files program)
    | some (.run o) => Chip8.Terminal.run o
  Chip8.Terminal.print report.out
  (← IO.getStderr).putStr report.err
  return report.exit
