import EventScript.Compile
import EventScript.Instance.Events
import EventScript.Module.Json

/-!
# Commands

What the command line can do, and what can go wrong with it.
-/

namespace EventScript

inductive Command where
  | check (script : String)
  | compile (script : String) (out : Option String)
  | disasm (script : String)
  /-- Enters the default state, delivers events and prints the calls of library functions. -/
  | run (script : String) (events : List String)
  /-- Does the same with a migration into a new instance at every checkpoint. -/
  | migrate (script : String) (events : List String) (stream : Option String)
  deriving DecidableEq, Inhabited

structure Invocation where
  command : Command
  config : Option String
  memoryLimit : Option Int32
  deriving DecidableEq, Inhabited

namespace Command

def script : Command → String
  | check script | disasm script => script
  | compile script _ => script
  | run script _ => script
  | migrate script _ _ => script

end Command

inductive CommandError where
  | compile (errors : List Diagnostic)
  | module (cause : ModuleError)
  | runtime (cause : PlacedFault)
  | migration (cause : StreamError)
  | settings (cause : SettingsError)
  | file (cause : FileError)
  | unknownEvent (name : String)
  | eventArgs (name : String) (expected found : Nat)
  | argument (cause : Fault)

def CommandError.message : CommandError → String
  | compile errors => Diagnostic.report errors
  | module cause => cause.message
  | runtime cause => "Runtime fault: " ++ cause.message
  | migration cause => cause.message
  | settings cause => "Settings error: " ++ cause.message
  | file cause => "I/O error: " ++ cause.message
  | unknownEvent name => "unknown event " ++ name
  | eventArgs name expected found =>
    name ++ " takes " ++ toString expected ++ " argument(s), got " ++ toString found
  | argument cause => cause.message

structure Outcome where
  exit : UInt8 := 0
  stdout : String := ""
  stderr : String := ""
  writes : List (String × List UInt8) := []

namespace Outcome

def failed (e : CommandError) (stdout : String) : Outcome :=
  { exit := 1, stdout, stderr := "Error: " ++ e.message ++ "\n" }

def misused : Outcome := { exit := 2, stderr := "error: invalid command line\n" }

end Outcome

end EventScript
