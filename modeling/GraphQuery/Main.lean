import GraphQuery.CommandLine

namespace GraphQuery

/-! The program: reads the files that are named, runs the command and prints. -/

namespace Program

def fileProblem : IO.Error → String
  | .noFileOrDirectory .. => CommandLine.PathFault.missing.message
  | .inappropriateType _ code details => s!"{details} (os error {code})"
  | other => toString other

def readFile (path : String) : IO (Except String String) := do
  try
    return .ok (← IO.FS.readFile path)
  catch problem =>
    return .error (fileProblem problem)

def readAll (paths : List String) : IO (List (String × Except String String)) :=
  paths.mapM fun path => do return (path, ← readFile path)

def filesOf (invocation : CommandLine.Invocation) : List String :=
  match invocation.command with
  | .check paths _ => paths
  | .inspect path _ => [path]
  | .version => []

def print (output : CommandLine.Output) : IO Unit := do
  for line in output.stdout do IO.println line
  for line in output.stderr do IO.eprintln line

def usage : String :=
  "Usage: " ++ CommandLine.programName ++
    " [-v] [-q] check [--max-depth N] FILE... | inspect [--format pretty|json] FILE | version"

def start (arguments : List String) : IO UInt32 := do
  match CommandLine.Invocation.read arguments with
  | .error .programVersion =>
      IO.println (CommandLine.programName ++ " " ++ CommandLine.programVersion)
      return 0
  | .error .help =>
      IO.println usage
      return 0
  | .error refusal =>
      IO.eprintln usage
      return refusal.exitCode.toUInt32
  | .ok invocation =>
      let texts ← readAll (filesOf invocation)
      let files (path : String) : Except String String :=
        (Entries.get? path texts).getD (.error CommandLine.PathFault.missing.message)
      match CommandLine.run files invocation with
      | .finished exitCode output =>
          print output
          return exitCode.toUInt32
      | .unreadable message output =>
          print output
          IO.eprintln ("Error: " ++ message)
          return 1

end Program

end GraphQuery

def main (arguments : List String) : IO UInt32 := GraphQuery.Program.start arguments
