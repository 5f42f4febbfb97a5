import TypeHint.CommandLine.Run

/-!
# The command line program

Results go to standard output.  Exit codes: 0 for an answer, 1 for a failure, 2 for arguments that
are no request, 101 for a contradiction of the type algebra.
-/

namespace TypeHint.CommandLine

/-- nothing if the file cannot be read -/
def readManifest (path : String) : IO (Option String) :=
  try some <$> IO.FS.readFile path catch _ => pure none

/-- runs a command, prints its answer and returns the exit code -/
def answer (path : Option String) (command : Command) : IO UInt32 := do
  let contents ← path.elim (pure none) readManifest
  match execute path contents command with
  | .ok text =>
    IO.println text
    return 0
  | .error (.contradiction c) =>
    IO.eprintln c.message
    return 101
  | .error failure =>
    IO.eprintln ("error: " ++ failure.message)
    return 1

end TypeHint.CommandLine

open TypeHint.CommandLine in
def main (args : List String) : IO UInt32 := do
  match Request.ofArguments? (← IO.getEnv "DOCTY_SYMBOLS") args with
  | none =>
    IO.eprintln usageText
    return 2
  | some .help =>
    IO.println usageText
    return 0
  | some .version =>
    IO.println versionText
    return 0
  | some (.run path command) => answer path command
