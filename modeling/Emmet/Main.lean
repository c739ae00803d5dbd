import Emmet.CommandLine.Run

/-!
# The command line program

Reads the files that the arguments name, runs the program on them and prints its outcome.
-/

namespace Emmet

/-- Reads a file. -/
def readText (path : String) : IO (Except ReadError String) := do
  try
    let bytes ← IO.FS.readBinFile path
    match String.fromUTF8? bytes with
    | some text => return .ok text
    | none => return .error .invalidData
  catch e =>
    match e with
    | .inappropriateType .. => return .error .isADirectory
    | _ => return .error .notFound

/-- The file system that has some files with what reading them gave. -/
def fileSystemOf (files : List (String × Except ReadError String)) : FileSystem where
  kind path := if (files.lookup path).isSome then .other else .missing
  read path := (files.lookup path).getD (.error .notFound)
  home := none

/-- Runs the program and gives its exit code. -/
def start (args : List String) : IO UInt32 := do
  let files ← (CommandLine.filesOf args).mapM fun path => return (path, ← readText path)
  let ending := CommandLine.runArguments (fileSystemOf files) args
  IO.print ending.outcome.output
  let stderr ← IO.getStderr
  for notice in ending.notices do
    stderr.putStrLn notice.line
  if ending.misused then
    stderr.putStr (CommandLine.linesOf CommandLine.usage)
  if let some (what, why) := ending.outcome.problem then
    stderr.putStrLn ("error: " ++ what ++ ": " ++ why)
  return ending.outcome.code.toNat.toUInt32

end Emmet

/-- The program. -/
def main (args : List String) : IO UInt32 := Emmet.start args
