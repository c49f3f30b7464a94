import GraphQuery.CommandLine.Arguments
import GraphQuery.CommandLine.Directory
import GraphQuery.Inspection
import GraphQuery.Json.Printer

namespace GraphQuery.CommandLine

/-! The commands, as functions from the texts of files to what is printed. -/

structure Output where
  stdout : List String
  stderr : List String

namespace Output

def silent : Output := ⟨[], []⟩

def out (lines : List String) : Output := ⟨lines, []⟩

def err (lines : List String) : Output := ⟨[], lines⟩

def append (first second : Output) : Output :=
  ⟨first.stdout ++ second.stdout, first.stderr ++ second.stderr⟩

end Output

inductive Outcome where
  | finished (exitCode : Nat) (output : Output)
  /-- A file could not be read; the output is what was written before. -/
  | unreadable (message : String) (output : Output)

abbrev Files := String → Except String String

def Directory.toFiles (directory : Directory) : Files := fun path =>
  (directory.read path).mapError PathFault.message

def programName : String := "ruql"

def programVersion : String := "0.1.0"

/-! ## Check -/

def reportVerdict (verbose : Bool) (file : String) : Verdict → Bool × Output
  | .valid _ _ => (false, if verbose then .out ["OK " ++ file] else .silent)
  | .malformed error => (true, .err ["Error " ++ file, "  --> " ++ error.message])
  | .invalid problems =>
      (true, .err (("Error " ++ file) :: problems.map fun problem => "  --> " ++ problem.message))

/-- Check files in order, up to the first that cannot be read. Gives the number
of files that failed. -/
def checkEach (files : Files) (maxDepth : Option Nat) (verbose : Bool) :
    List String → Nat → Output → Except (String × Output) (Nat × Output)
  | [], failed, output => .ok (failed, output)
  | file :: rest, failed, output =>
      let output := if verbose then output.append (.out ["Checking " ++ file]) else output
      match files file with
      | .error message => .error (message, output)
      | .ok source =>
          let (fails, report) := reportVerdict verbose file (checkSource source maxDepth)
          checkEach files maxDepth verbose rest (if fails then failed + 1 else failed)
            (output.append report)

def check (files : Files) (paths : List String) (maxDepth : Option Nat)
    (verbose quiet : Bool) : Outcome :=
  match checkEach files maxDepth verbose paths 0 .silent with
  | .error (message, output) => .unreadable message output
  | .ok (0, output) =>
      .finished 0 (if quiet then output
        else output.append (.out [s!"Success: {paths.length} file(s) checked"]))
  | .ok (failed, output) =>
      .finished 1 (output.append (.err [s!"Failed: {failed} of {paths.length} file(s) failed"]))

/-! ## Inspect -/

def inspect (files : Files) (path : String) (format : Format) : Outcome :=
  match files path with
  | .error message => .unreadable message .silent
  | .ok source =>
      match Document.parse source with
      | .error error => .finished 1 (.err ["Error " ++ path, "  --> " ++ error.message])
      | .ok document =>
          let summary := document.summarize
          .finished 0 (.out (match format with
            | .json => [Json.renderIndented 0 summary.toJson]
            | .pretty => summary.render))

/-! ## All commands -/

def run (files : Files) (invocation : Invocation) : Outcome :=
  match invocation.command with
  | .check paths maxDepth => check files paths maxDepth invocation.verbose invocation.quiet
  | .inspect path format => inspect files path format
  | .version => .finished 0 (.out [programName ++ " " ++ programVersion])

end GraphQuery.CommandLine
