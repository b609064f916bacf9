import CurveSearch.CommandLine.Execution
import CurveSearch.Json.Bytes

/-!
# The program

Reads the configuration file that the arguments name, runs the command line, prints its result and
makes its files. Failures go to the error output, with exit code two for arguments that make no
request.
-/

namespace CurveSearch.CommandLine

/-- The contents of the configuration file that a request names, if there is such a file. -/
def readConfiguration (args : List String) : IO (String → Option String) := do
  match Request.ofArguments args with
  | .ok (.search _ { config := some path, .. }) =>
      try
        let bytes ← IO.FS.readBinFile path
        pure fun name ↦ if name = path then some (Json.ofBytes bytes) else none
      catch _ => pure fun _ ↦ none
  | _ => pure fun _ ↦ none

def takeStep : Files.Step → IO Unit
  | .makeFolder name => IO.FS.createDirAll name
  | .write name text => IO.FS.writeFile name text

/-- Takes steps on the disk in order, up to one that cannot be taken. -/
def takeSteps : List Files.Step → IO (Except Failure Unit)
  | [] => pure (.ok ())
  | step :: rest => do
      try
        takeStep step
        takeSteps rest
      catch _ => pure (.error (.filing step))

def runOnDisk (args : List String) : IO (Except Failure Unit) := do
  let revision := (← IO.getEnv "GIT_COMMIT").getD "unknown"
  match run ⟨← readConfiguration args, revision⟩ args with
  | .ok output =>
      IO.print output.printed
      takeSteps output.steps
  | .error failure => pure (.error failure)

end CurveSearch.CommandLine

open CurveSearch CommandLine

def main (args : List String) : IO UInt32 := do
  match ← runOnDisk args with
  | .ok () => pure 0
  | .error (.usage .help) =>
      IO.println (UsageError.message .help)
      pure 0
  | .error failure =>
      IO.eprintln ("Error: " ++ failure.message)
      pure (match failure with
        | .usage _ => 2
        | _ => 1)
