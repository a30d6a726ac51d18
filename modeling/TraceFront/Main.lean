import TraceFront.Cli.Run

/-!
# The program

Reads the file that the command line names, if it names one, and prints the outcome.
-/

namespace TraceFront.Cli

/-- the fault behind a number of the system, which may have been negated on the way here -/
def faultOfNumber (n : UInt32) (words : String) : FileFault :=
  .refused (.ofNumber (if n < 0x80000000 then n else 0 - n).toNat words.capitalize)

def faultOfError (e : IO.Error) : FileFault :=
  match e with
  | .noFileOrDirectory _ _ _ => .missing
  | .permissionDenied _ n words => faultOfNumber n words
  | .inappropriateType _ n words => faultOfNumber n words
  | .invalidArgument _ n words => faultOfNumber n words
  | .resourceExhausted _ n words => faultOfNumber n words
  | .otherError n words => faultOfNumber n words
  | e => .refused (.other 0 e.toString)

def readFile (path : String) : IO (Except FileFault String) := do
  try
    return textOfBytes (← IO.FS.readBinFile path)
  catch e =>
    return .error (faultOfError e)

def execute (args : List String) : IO UInt32 := do
  let stderr ← IO.getStderr
  let command := Command.ofArgs args
  let file ← match command.path? with
    | some path => readFile path
    | none => pure (.error .missing)
  let outcome := command.outcome (← stderr.isTty) file
  IO.print outcome.stdout
  IO.eprint outcome.stderr
  return outcome.exit.toUInt32

end TraceFront.Cli

def main (args : List String) : IO UInt32 := TraceFront.Cli.execute args
