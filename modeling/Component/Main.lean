/-
The command itself: reads the component, prints the outcome.
-/
import Component.CommandLine.Outcome

namespace Component.CommandLine

/-- The content of a file, if it can be read. -/
def readContent (path : Text) : IO (Option ByteArray) := do
  try
    return some (← IO.FS.readBinFile (String.ofList path))
  catch _ =>
    return none

end Component.CommandLine

open Component CommandLine

def main (arguments : List String) : IO UInt32 := do
  let arguments := arguments.map String.toList
  let content ←
    match readArguments arguments with
    | .ok (.compile s) => readContent s.input
    | _ => pure none
  let outcome := run (fun _ => content) arguments
  for line in outcome.report Diagnostic.message do
    IO.eprintln (String.ofList line)
  IO.print (String.ofList outcome.output)
  return outcome.status.toUInt32
