import EventScript.Event
import EventScript.Snapshot.Tag
import EventScript.Status
import EventScript.Word

/-!
# Errors of snapshot streams
-/

namespace EventScript

/-- The name of a type in a message about a conversion; `undef` has no type. -/
def sourceName (source : Option Ty) : String := (source.map Ty.name).getD "undef"

def castMessage (source : Option Ty) (target : Ty) : String :=
  "cannot cast " ++ sourceName source ++ " to " ++ target.name

inductive FrameError where
  | unknownReceiver (id : Int32)
  | functionRange (index : Int)
  | pastEnd (pc : Nat) (function : String)
  | localCount (function : String) (expected found : Nat)
  | apiRange (index : Nat)
  | notInnermost (function : String)
  | malformedCall (function : String)
  deriving DecidableEq

def FrameError.message : FrameError → String
  | unknownReceiver id => "unknown receiver " ++ toString id.toInt
  | functionRange index => "function " ++ toString index ++ " out of range"
  | pastEnd pc function => "pc " ++ toString pc ++ " past end of " ++ function
  | localCount function expected found =>
    function ++ " has " ++ toString expected ++ " locals, stream has " ++ toString found
  | apiRange index => "API function " ++ toString index ++ " out of range"
  | notInnermost function => function ++ " call must be the innermost frame"
  | malformedCall function => "malformed " ++ function ++ " call"

inductive StateRole where
  | current
  | pending
  | target
  deriving DecidableEq

def StateRole.label : StateRole → String
  | current => "state"
  | pending => "pending state"
  | target => "transition target"

/-- Contents that no instance writes, or an instance that cannot be written or read. -/
inductive ContentError where
  | invalidText
  | negativeCount (n : Int32)
  | unknownEvent (ordinal : Int32)
  | arrayKey (source : Option Ty)
  | stateRange (role : StateRole) (n : Int32)
  | disposedSource
  | globalCount (expected found : Nat)
  | globalType (name : String) (expected found : Ty)
  | noFrames (event : Event)
  | trailing
  | disposed
  | busy (status : Status)
  deriving DecidableEq

def ContentError.message : ContentError → String
  | invalidText => "string is not UTF-8"
  | negativeCount n => "negative count " ++ toString n.toInt
  | unknownEvent ordinal => "unknown event code " ++ toString ordinal.toInt
  | arrayKey source => "array entry: " ++ castMessage source .object
  | stateRange role n => role.label ++ " " ++ toString n.toInt ++ " out of range"
  | disposedSource => "stream was taken from a disposed instance"
  | globalCount expected found =>
    "module has " ++ toString expected ++ " globals, stream has " ++ toString found
  | globalType name expected found =>
    "global " ++ name ++ " should be " ++ expected.name ++ ", stream has " ++ found.name
  | noFrames event => event.name ++ " handler has no frames"
  | trailing => "trailing bytes after stream"
  | disposed => "cannot migrate a disposed instance"
  | busy status => "cannot migrate into a " ++ status.name ++ " instance"

def streamVersion : UInt8 := 1

inductive StreamError where
  | version (found : UInt8)
  | otherModule (expected found : String)
  /-- A tag that was not expected; any value was if `expected` is nothing. -/
  | tag (found : UInt8) (expected : Option Tag)
  | truncated
  | frame (index : Nat) (cause : FrameError)
  | content (cause : ContentError)
  | refused (reason : String)
  deriving DecidableEq

def StreamError.message : StreamError → String
  | version found =>
    "incoming migration version " ++ toString found.toNat ++ " but accept only " ++
      toString streamVersion.toNat
  | otherModule expected found => "stream was written by " ++ found ++ ", not " ++ expected
  | tag found expected =>
    "bad tag " ++ toString found.toNat ++ ", expected " ++ (expected.map Tag.label).getD "a value"
  | truncated => "migration stream truncated"
  | frame index cause => "bad frame " ++ toString index ++ ": " ++ cause.message
  | content cause => "corrupt migration stream: " ++ cause.message
  | refused reason => "migration I/O error: " ++ reason

end EventScript
