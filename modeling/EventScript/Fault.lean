import EventScript.Module
import EventScript.Snapshot.Error

/-!
# Faults

What stops a handler against the script's will. A fault that code raises has the place of the
instruction that raised it.
-/

namespace EventScript

/-- What a host call can ask for in place of an answer, against which a script cannot do
anything. -/
inductive Signal where
  | reset
  | terminate
  deriving DecidableEq, Inhabited

def Signal.label : Signal → String
  | reset => "Reset"
  | terminate => "Terminate"

/-- What a compiler never emits. -/
inductive Corruption where
  | underflow
  | localRange (slot : UInt16)
  | globalRange (index : UInt16)
  | constantRange (index : UInt16)
  | functionRange (index : UInt16)
  | apiRange (index : UInt16)
  | pastEnd (function : String) (pc : Nat)
  | apiWithoutCaller
  | component (c : Component) (ty : Ty)
  | negation (ty : Ty)
  | initSuspended
  | initSignal (signal : Signal)
  deriving DecidableEq

def Corruption.message : Corruption → String
  | underflow => "operand stack underflow"
  | localRange slot => "local " ++ toString slot.toNat ++ " out of range"
  | globalRange index => "global " ++ toString index.toNat ++ " out of range"
  | constantRange index => "constant " ++ toString index.toNat ++ " out of range"
  | functionRange index => "function " ++ toString index.toNat ++ " out of range"
  | apiRange index => "API function " ++ toString index.toNat ++ " out of range"
  | pastEnd function pc => function ++ ": pc " ++ toString pc ++ " past end"
  | apiWithoutCaller => "API frame without caller"
  | component c ty => "no component " ++ c.label ++ " on " ++ ty.name
  | negation ty => "cannot negate " ++ ty.name
  | initSuspended => "initializer suspended"
  | initSignal signal => "initializer raised " ++ signal.label

inductive ArgsError where
  | count (expected found : Nat)
  | type (index : Nat) (expected found : Ty)
  deriving DecidableEq

def ArgsError.message : ArgsError → String
  | count expected found =>
    "expected " ++ toString expected ++ " argument(s), got " ++ toString found
  | type index expected found =>
    "argument " ++ toString index ++ " should be " ++ expected.name ++ ", got " ++ found.name

inductive Operation where
  | start
  | resume
  deriving DecidableEq

def Operation.name : Operation → String
  | start => "start"
  | resume => "resume"

/-- What stops a handler, or keeps it from starting. -/
inductive Fault where
  | memoryLimit (usage limit : Int32)
  | handlerActive
  | noneEvent
  | unknownEvent (name : String)
  | badEventArgs (event : Event) (cause : ArgsError)
  /-- A handler that runs during a change of state asked for another one. -/
  | nestedTransition (event : Event)
  /-- A conversion that is not possible; `undef` has no type. -/
  | badCast (source : Option Ty) (target : Ty)
  | divisionByZero
  | callDepth (limit : Nat)
  | host (function message : String)
  | invalidStatus (operation : Operation) (status : Status)
  | corrupt (cause : Corruption)
  | migration (cause : StreamError)
  deriving DecidableEq

def Fault.message : Fault → String
  | memoryLimit usage limit =>
    "memory usage " ++ toString usage.toInt ++ " exceeds limit " ++ toString limit.toInt
  | handlerActive => "event handler already active"
  | noneEvent => "cannot start the None event"
  | unknownEvent name => "unknown event " ++ name
  | badEventArgs event cause => "bad arguments for " ++ event.name ++ ": " ++ cause.message
  | nestedTransition event => event.name ++ "() transitioned state"
  | badCast source target => castMessage source target
  | divisionByZero => "math error: division by zero"
  | callDepth limit => "call depth exceeds " ++ toString limit
  | host function message => function ++ ": " ++ message
  | invalidStatus operation status => "cannot " ++ operation.name ++ " while " ++ status.name
  | corrupt cause => "corrupt bytecode: " ++ cause.message
  | migration cause => "migration failed: " ++ cause.message

structure CodePlace where
  function : String
  place : Place
  deriving DecidableEq

structure PlacedFault where
  fault : Fault
  place : Option CodePlace := none
  deriving DecidableEq

instance : Coe Fault PlacedFault := ⟨fun f => ⟨f, none⟩⟩

def PlacedFault.message (f : PlacedFault) : String :=
  match f.place with
  | none => f.fault.message
  | some p =>
    f.fault.message ++ " (" ++ p.function ++ " line " ++ toString p.place.line.toNat ++ ":" ++
      toString p.place.column.toNat ++ ")"

end EventScript
