import EventScript.Instance.Requests
import EventScript.Settings

/-!
# Instances

An instance is a running copy of a module. It is in one of the states of the script and handles
one event at a time.
-/

namespace EventScript

structure Instance where
  module : Module
  machine : Machine
  state : Int32
  event : Event
  eventArgs : List Value
  status : Status
  phase : Phase
  alwaysSuspend : Bool
  requests : Requests
  deriving Inhabited

abbrev Settings.machine (settings : Settings) (m : Module) : Machine :=
  Machine.new m settings.memoryLimit settings.maxCallDepth

namespace Instance

/-- Makes an instance. It is idle in the default state, which has not been entered yet. -/
def new (m : Module) (settings : Settings) (fuel : Nat) : Option (Except PlacedFault Instance) :=
  ((settings.machine m).boot Host.null.bareEnv m fuel ()).map fun (result, machine, _) =>
    match result with
    | .error e => .error e.toFault
    | .ok () => .ok {
        module := m
        machine
        state := 0
        event := .none
        eventArgs := []
        status := .idle
        phase := .handler
        alwaysSuspend := settings.alwaysSuspend
        requests := {} }

def stateIndex? (i : Instance) : Option Nat :=
  if i.state < 0 then none else some i.state.toInt.toNat

def stateName? (i : Instance) : Option String := i.stateIndex?.bind fun n => i.module.states[n]?

def global? (i : Instance) (name : String) : Option Value := do
  i.machine.globals[← i.module.globals.findIdx? (·.name == name)]?

def isAtRest (i : Instance) : Bool := i.status == .idle || i.status == .suspended

def requestSuspend (i : Instance) : Instance := { i with requests := i.requests.post .suspend }

/-! ## Handlers -/

/-- The instance when its machine has run. -/
abbrev ran (i : Instance) (machine : Machine) (requests : Requests) : Instance :=
  { i with machine, requests }

/-- Calls the handler of an event in the current state; there may be none. -/
def begin (i : Instance) (event : Event) (args : List Value) : Except Fault Bool × Instance :=
  match i.stateIndex?.bind fun n => i.module.handler? n event with
  | none => (.ok false, i)
  | some handler =>
    let i := { i with event, eventArgs := args }
    match i.machine.enter i.module handler args with
    | .error f => (.error f, i)
    | .ok machine => (.ok true, { i with machine, status := .running })

def finish (i : Instance) : Instance :=
  { i with event := .none, eventArgs := [], phase := .handler, status := .idle }

/-- Drops the running handler, and computes the memory in use anew. -/
def abort (i : Instance) : Instance :=
  { i with machine := { i.machine with
      frames := [], pending := none, memUsage := i.machine.baseline i.module } }.finish

/-! ## Disposal -/

def disposedState : Int32 := 12345678

def disposedNumber : Int32 := 69696969

def disposedText : String := "DISPOSED SCRIPT"

/-- The value of a global variable that marks an instance that has been disposed of. -/
def disposedValue : Ty → Value
  | .integer | .bool => .integer disposedNumber
  | .float => .float (.ofInt32 disposedNumber)
  | .string => .string disposedText
  | .key => .key disposedText
  | ty => .default ty

/-- Marks the values of global variables; values beyond the slots stay. -/
def disposeGlobals : List GlobalSlot → List Value → List Value
  | g :: gs, _ :: vs => disposedValue g.ty :: disposeGlobals gs vs
  | _, vs => vs

def dispose (i : Instance) : Instance :=
  { i with
    machine := { i.machine with
      frames := [], pending := none
      globals := disposeGlobals i.module.globals i.machine.globals }
    state := disposedState
    event := .garbage
    eventArgs := []
    status := .disposed }

end Instance

end EventScript
