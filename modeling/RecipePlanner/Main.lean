import RecipePlanner.Interchange.Files
import RecipePlanner.Report

/-!
# The command line

`planner <folder> <item> [route] [item=key]` prints the report on an item. The data come from
standard input as one JSON object that maps paths below the folder to the texts of files. The exit
status is 0 if there is a report, 1 if the data cannot be loaded or no release has a catalogue, and
2 if no item is asked for.
-/

namespace RecipePlanner.Main

/-- All that is left of a stream. -/
partial def readAll (stream : IO.FS.Stream) (read : String) : IO String := do
  let line ← stream.getLine
  if line.isEmpty then pure read else readAll stream (read ++ line)

/-- Why there is no report, as far as it is told. -/
def explain : Report.Failure → String
  | .noRequest => "usage: planner <folder> <item> [route] [item=key]"
  | .noRelease => "no release has a catalogue"
  | .data fault => (fault.message?).getD "the data cannot be loaded"

/-- Prints a report or why there is none, and gives the exit status. -/
def conclude : Except Report.Failure (List String) → IO UInt32
  | .ok lines => do
    IO.print (Report.printed lines)
    pure 0
  | .error failure => do
    IO.eprintln (explain failure)
    pure (UInt32.ofNat failure.status)

/-- Reads the data and prints the report that the arguments ask for. -/
def run : List String → IO UInt32
  | [] => conclude (.error .noRequest)
  | base :: request => do
    let text ← readAll (← IO.getStdin) ""
    match (Json.parse? text).bind (FileTree.ofJson? base) with
    | some files => conclude (Report.ofArguments files base request)
    | none =>
      IO.eprintln "the data are no JSON object of files"
      pure 1

end RecipePlanner.Main

/-- The program. -/
def main (arguments : List String) : IO UInt32 := RecipePlanner.Main.run arguments
