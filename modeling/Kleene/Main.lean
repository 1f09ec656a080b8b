import Kleene.CommandLine.Run

/-!
# The program

Reads the configuration file if there is one, runs, and prints.
-/

open Kleene.CommandLine

/-- The text of a file, or why there is none. -/
def fileText (name : String) : IO (Except FileError String) := do
  try
    return .ok (← IO.FS.readFile name)
  catch
    | .noFileOrDirectory .. => return .error .notFound
    | e => return .error (.other (toString e))

def main (args : List String) : IO UInt32 := do
  let file ←
    match Request.ofArguments args with
    | .ok (.run a) => a.config.mapM fileText
    | _ => pure none
  let outcome := run (fun _ => file.getD (.error .notFound)) args
  IO.print outcome.out
  IO.eprint outcome.err
  return outcome.code.toUInt32
