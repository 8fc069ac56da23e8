import EventScript.Command.Execution

/-!
# The program

Reads the files that a command line names, and prints and writes what it does.
-/

namespace EventScript.Program

def fileError : IO.Error → FileError
  | .noFileOrDirectory .. => .notFound
  | .inappropriateType .. => .isDirectory
  | _ => .notText

def readText (path : String) : IO (Except FileError String) := do
  try
    match String.fromUTF8? (← IO.FS.readBinFile path) with
    | some text => return .ok text
    | none => return .error .notText
  catch e => return .error (fileError e)

def readInputs (args : List String) : IO (List (String × Except FileError String)) :=
  match Invocation.ofArgs? args with
  | none => return []
  | some inv => (inv.config.toList ++ [inv.command.script]).mapM fun p => return (p, ← readText p)

def perform (o : Outcome) : IO UInt32 := do
  try
    for (path, bytes) in o.writes do
      IO.FS.writeBinFile path bytes.toByteArray
  catch e =>
    IO.eprintln ("Error: I/O error: " ++ (fileError e).message)
    return 1
  IO.print o.stdout
  IO.eprint o.stderr
  return o.exit.toUInt32

end EventScript.Program

open EventScript in
def main (args : List String) : IO UInt32 := do
  let inputs ← Program.readInputs args
  let files : Files := ⟨fun p => (inputs.lookup p).getD (.error .notFound), fun _ => none⟩
  match runCommandLine args files (1 <<< 60) with
  | some o => Program.perform o
  | none => return 1
