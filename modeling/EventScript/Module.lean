import EventScript.Api
import EventScript.Constant
import EventScript.Event
import EventScript.Operator

/-!
# Compiled modules

A module is the code of one script: its constants, the slots of its global variables, its
functions and the table that says which function handles an event in a state. The operands of a
binary operator are pushed right first, so the left one is on top when it runs.
-/

namespace EventScript

/-- A variable as an instruction names it. -/
inductive VarRef where
  | localVar (slot : UInt16)
  | globalVar (index : UInt16)
  deriving DecidableEq, Inhabited

inductive Op where
  | pushConst (index : UInt16)
  | pushDefault (ty : Ty)
  | pushUndefined
  | pop
  | dup
  | loadLocal (slot : UInt16)
  | storeLocal (slot : UInt16)
  | loadGlobal (index : UInt16)
  | storeGlobal (index : UInt16)
  | cast (ty : Ty)
  | castSecond (ty : Ty)
  | binary (eval : BinEval)
  | neg
  | bitNot
  | not
  | isType (ty : Ty)
  | makeList (count : UInt16)
  | makeVector
  | makeRotation
  | getField (c : Component)
  | setField (c : Component)
  | arrayGet
  /-- Writes the value on top for the key below it, and leaves the value. -/
  | arraySet (var : VarRef)
  | arrayCount
  | arrayKey
  | arrayValue
  | jump (target : UInt32)
  | jumpIfFalse (target : UInt32)
  | jumpIfTrue (target : UInt32)
  | jumpIfNoStateChange (target : UInt32)
  | call (function : UInt16)
  | callApi (function : UInt16)
  | ret
  | memStatic (amount : Int32)
  | memIncr (var : VarRef)
  | memDecr (var : VarRef)
  | checkRun
  | setState (state : UInt16)
  deriving DecidableEq, Inhabited

inductive FunctionKind where
  | script
  | handler (state : UInt16) (event : Event)
  | init
  deriving DecidableEq, Inhabited

structure Place where
  line : UInt32
  column : UInt32
  deriving DecidableEq, Inhabited

structure Function where
  name : String
  kind : FunctionKind
  params : List Ty
  ret : Ty
  /-- The number of slots: parameters, declared variables and temporaries. -/
  localCount : UInt16
  ops : Array Op
  lines : Array Place
  deriving DecidableEq, Inhabited

structure GlobalSlot where
  name : String
  ty : Ty
  deriving DecidableEq, Inhabited

structure Module where
  version : UInt32
  name : String
  fingerprint : UInt64
  arrays : Bool
  constants : Array Constant
  globals : List GlobalSlot
  init : UInt16
  functions : Array Function
  /-- The names of the states; the default state is the first. -/
  states : List String
  /-- A row for each state and in it a column for each event. -/
  dispatch : List (List (Option UInt16))
  deriving DecidableEq, Inhabited

def moduleVersion : UInt32 := 1

/-- The 64-bit hash of a text: for each byte, exclusive or and then multiplication by a prime. -/
def fingerprint (source : String) : UInt64 :=
  source.toUTF8.toList.foldl (fun h b => (h ^^^ b.toUInt64) * 0x100000001b3) 0xcbf29ce484222325

namespace Module

def function? (m : Module) (index : UInt16) : Option Function := m.functions[index.toNat]?

def constant? (m : Module) (index : UInt16) : Option Constant := m.constants[index.toNat]?

def state? (m : Module) (index : UInt16) : Option String := m.states[index.toNat]?

def handler? (m : Module) (state : Nat) (event : Event) : Option UInt16 := do
  let column ← event.column?
  let row ← m.dispatch[state]?
  let cell ← row[column]?
  cell

def fingerprintText (m : Module) : String := Word.hex 16 m.fingerprint.toNat

end Module

inductive ModuleError where
  | unreadable
  | version (found : UInt32)
  | initRange
  | stateCount
  | rowWidth
  | handlerRange
  | lineCount (function : String)
  deriving DecidableEq

def ModuleError.message : ModuleError → String
  | unreadable => "module JSON error"
  | version found =>
    "module version " ++ toString found.toNat ++ " but this engine runs version " ++
      toString moduleVersion.toNat
  | initRange => "malformed module: initializer index out of range"
  | stateCount => "malformed module: dispatch table does not match states"
  | rowWidth => "malformed module: dispatch row has wrong width"
  | handlerRange => "malformed module: handler index out of range"
  | lineCount function => "malformed module: " ++ function ++ ": line table length"

namespace Module

def checkRow (m : Module) (row : List (Option UInt16)) : Except ModuleError Unit :=
  if row.length ≠ Event.tableWidth then .error .rowWidth
  else if row.any fun cell => cell.any fun f => (m.function? f).isNone then .error .handlerRange
  else .ok ()

def checkLines (f : Function) : Except ModuleError Unit :=
  if f.lines.size = f.ops.size then .ok () else .error (.lineCount f.name)

def validate (m : Module) : Except ModuleError Unit := do
  if (m.function? m.init).isNone then throw .initRange
  if m.states.isEmpty || m.dispatch.length ≠ m.states.length then throw .stateCount
  m.dispatch.forM m.checkRow
  m.functions.toList.forM checkLines

end Module

end EventScript
