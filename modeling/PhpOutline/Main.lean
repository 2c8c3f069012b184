import PhpOutline.Command

/-!
# Command line

Reads the files that the arguments name, runs the command on them, and prints what it says.
-/

namespace PhpOutline

/-- What a file on disk holds. -/
def readContent (name : String) : IO FileContent := do
  try
    return .ofBytes (← IO.FS.readBinFile name)
  catch
    | .noFileOrDirectory .. => return .missing
    | e => return .unreadable (toString e)

/-- How the command is called. -/
def usage : String := "usage: phpoutline (list | describe | check) [--code] [--strict] FILE..."

end PhpOutline

open PhpOutline

/-- Runs the command: exit code 0 when all went well, 1 when a file failed, 2 for bad arguments. -/
def main (args : List String) : IO UInt32 := do
  match Command.ofArguments? args with
  | none =>
    IO.eprintln usage
    return 2
  | some command =>
    let mut failed := false
    for name in command.files do
      let output := command.runFile name (← readContent name)
      for line in output.out do IO.println line
      for line in output.err do IO.eprintln line
      failed := failed || output.failed
    return if failed then 1 else 0
