import EventScript.Fault
import EventScript.Value

/-!
# The machine

The state of running code: global variables, the frames of the active calls and the memory in
use. All of it is data, so a handler that has stopped can be continued later or elsewhere.
-/

namespace EventScript

/-- Whose code a frame runs. -/
inductive Receiver where
  | script
  | api
  deriving DecidableEq, Inhabited

structure Frame where
  receiver : Receiver
  function : UInt16
  pc : Nat
  locals : List Value
  /-- The operands, top first. -/
  operands : List Value
  deriving Inhabited

namespace Frame

def push (f : Frame) (v : Value) : Frame := { f with operands := v :: f.operands }

def waiting (function : UInt16) (args : List Value) : Frame := ⟨.api, function, 0, args, []⟩

end Frame

structure Machine where
  globals : List Value
  frames : List Frame
  memUsage : Int32
  memLimit : Int32
  /-- The state that the script has asked for. -/
  pending : Option UInt16
  maxCallDepth : Nat
  deriving Inhabited

namespace Machine

def defaults (m : Module) : List Value := m.globals.map fun g => .default g.ty

def new (m : Module) (memLimit : Int32) (maxCallDepth : Nat) : Machine :=
  ⟨defaults m, [], 0, memLimit, none, maxCallDepth⟩

def rewound (s : Machine) (m : Module) : Machine := new m s.memLimit s.maxCallDepth

/-- The values of a frame's variables: the arguments, and `undef` for the others. -/
def fillLocals (count : Nat) (args : List Value) : List Value :=
  args.take count ++ List.replicate (count - args.length) .undefined

def enter (s : Machine) (m : Module) (index : UInt16) (args : List Value) : Except Fault Machine :=
  match m.function? index with
  | none => .error (.corrupt (.functionRange index))
  | some f =>
    if s.maxCallDepth ≤ s.frames.length then .error (.callDepth s.maxCallDepth)
    else
      let frame : Frame := ⟨.script, index, 0, fillLocals f.localCount.toNat args, []⟩
      .ok { s with frames := frame :: s.frames }

def addGlobal (total : Int32) (g : GlobalSlot × Value) : Int32 :=
  Word.addSat (Word.addSat total g.1.ty.staticSize) g.2.dynSize

def baseline (s : Machine) (m : Module) : Int32 := (m.globals.zip s.globals).foldl addGlobal 0

/-- The place of the instruction that the innermost frame ran last. -/
def place? (s : Machine) (m : Module) : Option CodePlace :=
  match s.frames with
  | [] => none
  | f :: _ =>
    match f.receiver with
    | .script => (m.function? f.function).map fun g => ⟨g.name, (g.lines[f.pc - 1]?).getD ⟨0, 0⟩⟩
    | .api => (ApiFunction.get? f.function).map fun g => ⟨g.name, ⟨0, 0⟩⟩

def setTop (s : Machine) (f : Frame) : Machine := { s with frames := f :: s.frames.tail }

def charge (s : Machine) (amount : Int32) : Machine :=
  { s with memUsage := Word.addSat s.memUsage amount }

def release (s : Machine) (amount : Int32) : Machine :=
  { s with memUsage := Word.subSat s.memUsage amount }

end Machine

end EventScript
