import HandlerScript.Command

/-!
# The executable

Reads the script that the arguments name and prints the outcome.
-/

namespace HandlerScript

/-- What the script holds, or why there is none. A path leads where the file system says. -/
def readScript (options : Options) : IO (Except ReadError String) := do
  try
    if options.readsStdin then
      return decodeText (← (← IO.getStdin).readBinToEnd)
    else
      return decodeText (← IO.FS.readBinFile options.script)
  catch
    | .noFileOrDirectory .. => return .error .missing
    | .inappropriateType _ 20 _ => return .error .notDirectory
    | .inappropriateType _ 21 _ => return .error .isDirectory
    | .invalidArgument _ 36 _ => return .error .nameTooLong
    | error => return .error (.other (toString error))

/-- The outcome for a list of arguments. Without a script in them nothing is read. -/
def execute (arguments : List String) : IO Outcome := do
  let contents ←
    match Options.ofArguments arguments with
    | none => pure (.error .missing)
    | some options => readScript options
  return run arguments fun _ => contents

end HandlerScript

/-- Prints the outcome and exits with its code. -/
def main (arguments : List String) : IO UInt32 := do
  let outcome ← HandlerScript.execute arguments
  IO.print outcome.stdout
  IO.eprint outcome.stderr
  return outcome.exitCode.toUInt32
