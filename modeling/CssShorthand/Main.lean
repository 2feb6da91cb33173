/-
  THE PROGRAM: reads the command line and the block, and writes the answer.
-/
import CssShorthand.CommandLine.Response

open CssShorthand CommandLine

/-- All lines of a stream. -/
partial def readAll (input : IO.FS.Stream) (read : String) : IO String := do
  let line ← input.getLine
  if line.isEmpty then return read
  readAll input (read ++ line)

/-- The block of the input: the text of a file with its line ends unified, or the standard input as it
    is for `-`. -/
def readBlock (input : Text) : IO Text := do
  if input = ['-'] then
    return (← readAll (← IO.getStdin) "").toList
  else
    return Text.unifyLineEnds (← IO.FS.readFile (Text.toString input)).toList

def main (arguments : List String) : IO UInt32 := do
  match Invocation.ofArguments (arguments.map (·.toList)) with
  | .help =>
    IO.print Switch.documentation
    return 0
  | .version =>
    IO.print versionText
    return 0
  | .misuse =>
    IO.eprint (programName ++ ": error: see " ++ programName ++ " --help\n")
    return 2
  | .run input options =>
    let response := options.respond (← readBlock input)
    IO.eprint response.errors
    IO.print (Text.toString response.output)
    return UInt32.ofNat response.exitCode
