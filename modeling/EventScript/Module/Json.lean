import EventScript.Json.Decode
import EventScript.Module.Listing

/-!
# Modules as text

How modules are put together from the parts of a format. `Module.toText` writes a module as a
document and `Module.ofText` reads one. Before it is accepted, a module is checked for its version
and its shape.
-/

namespace EventScript

variable (F : Format)

/-! ## Parts -/

namespace Ty

def toJson (t : Ty) : F.Doc := F.text t.name

def ofJson? (j : F.Doc) : Option Ty := F.name? ofName? j

end Ty

namespace Event

/-- The name in documents. Those for which there is no handler have names too. -/
def word : Event → String
  | none => "none"
  | garbage => "garbage"
  | e => e.name

def toJson (e : Event) : F.Doc := F.text e.word

def ofJson? (j : F.Doc) : Option Event := F.name? (fun s => all.find? (·.word == s)) j

end Event

namespace Constant

def toJson : Constant → F.Doc
  | integer n => F.tagged "Integer" (F.integer n.toInt)
  | float d => F.tagged "Float" (F.double d)
  | string s => F.tagged "String" (F.text s)
  | key s => F.tagged "Key" (F.text s)
  | vector v => F.tagged "Vector" (F.array (v.toList.map F.double))
  | rotation q => F.tagged "Rotation" (F.array (q.toList.map F.double))

def vector? (j : F.Doc) : Option Vec3 := do
  match ← F.list? F.double? j with
  | [x, y, z] => return ⟨x, y, z⟩
  | _ => none

def rotation? (j : F.Doc) : Option Quat := do
  match ← F.list? F.double? j with
  | [x, y, z, s] => return ⟨x, y, z, s⟩
  | _ => none

def ofJson? (j : F.Doc) : Option Constant := do
  let (name, contents) ← F.variant? j
  match name with
  | "Integer" => F.holding? integer F.int32? contents
  | "Float" => F.holding? float F.double? contents
  | "String" => F.holding? string F.text? contents
  | "Key" => F.holding? key F.text? contents
  | "Vector" => F.holding? vector (vector? F) contents
  | "Rotation" => F.holding? rotation (rotation? F) contents
  | _ => none

end Constant

namespace VarRef

def toJson : VarRef → F.Doc
  | localVar slot => F.tagged "Local" (F.nat slot.toNat)
  | globalVar index => F.tagged "Global" (F.nat index.toNat)

def ofJson? (j : F.Doc) : Option VarRef := do
  let (name, contents) ← F.variant? j
  match name with
  | "Local" => F.holding? localVar F.uint16? contents
  | "Global" => F.holding? globalVar F.uint16? contents
  | _ => none

end VarRef

namespace Op

def contents? : Op → Option F.Doc
  | pushConst i | loadLocal i | storeLocal i | loadGlobal i | storeGlobal i | makeList i | call i
  | callApi i | setState i => some (F.nat i.toNat)
  | pushDefault t | cast t | castSecond t | isType t => some (t.toJson F)
  | binary e => some (F.text e.name)
  | getField c | setField c => some (F.text c.label)
  | arraySet v | memIncr v | memDecr v => some (v.toJson F)
  | jump n | jumpIfFalse n | jumpIfTrue n | jumpIfNoStateChange n => some (F.nat n.toNat)
  | memStatic n => some (F.integer n.toInt)
  | _ => none

def toJson (op : Op) : F.Doc :=
  match op.contents? F with
  | some j => F.tagged op.label j
  | none => F.text op.label

def eval? (j : F.Doc) : Option BinEval := F.name? BinEval.ofName? j

def component? (j : F.Doc) : Option Component := F.name? Component.ofLabel? j

def ofJson? (j : F.Doc) : Option Op := do
  let (name, contents) ← F.variant? j
  match name with
  | "PushConst" => F.holding? pushConst F.uint16? contents
  | "PushDefault" => F.holding? pushDefault (Ty.ofJson? F) contents
  | "PushUndef" => F.plain? pushUndefined contents
  | "Pop" => F.plain? pop contents
  | "Dup" => F.plain? dup contents
  | "LoadLocal" => F.holding? loadLocal F.uint16? contents
  | "StoreLocal" => F.holding? storeLocal F.uint16? contents
  | "LoadGlobal" => F.holding? loadGlobal F.uint16? contents
  | "StoreGlobal" => F.holding? storeGlobal F.uint16? contents
  | "Cast" => F.holding? cast (Ty.ofJson? F) contents
  | "CastSecond" => F.holding? castSecond (Ty.ofJson? F) contents
  | "Binary" => F.holding? binary (eval? F) contents
  | "Neg" => F.plain? neg contents
  | "BitNot" => F.plain? bitNot contents
  | "Not" => F.plain? not contents
  | "IsType" => F.holding? isType (Ty.ofJson? F) contents
  | "MakeList" => F.holding? makeList F.uint16? contents
  | "MakeVector" => F.plain? makeVector contents
  | "MakeRotation" => F.plain? makeRotation contents
  | "GetField" => F.holding? getField (component? F) contents
  | "SetField" => F.holding? setField (component? F) contents
  | "ArrayGet" => F.plain? arrayGet contents
  | "ArraySet" => F.holding? arraySet (VarRef.ofJson? F) contents
  | "ArrayCount" => F.plain? arrayCount contents
  | "ArrayKey" => F.plain? arrayKey contents
  | "ArrayValue" => F.plain? arrayValue contents
  | "Jump" => F.holding? jump F.uint32? contents
  | "JumpIfFalse" => F.holding? jumpIfFalse F.uint32? contents
  | "JumpIfTrue" => F.holding? jumpIfTrue F.uint32? contents
  | "JumpIfNoStateChange" => F.holding? jumpIfNoStateChange F.uint32? contents
  | "Call" => F.holding? call F.uint16? contents
  | "CallApi" => F.holding? callApi F.uint16? contents
  | "Return" => F.plain? ret contents
  | "MemStatic" => F.holding? memStatic F.int32? contents
  | "MemIncr" => F.holding? memIncr (VarRef.ofJson? F) contents
  | "MemDecr" => F.holding? memDecr (VarRef.ofJson? F) contents
  | "CheckRun" => F.plain? checkRun contents
  | "SetState" => F.holding? setState F.uint16? contents
  | _ => none

end Op

namespace FunctionKind

def toJson : FunctionKind → F.Doc
  | script => F.text "Script"
  | handler state event =>
    F.tagged "Handler" (F.record [("state", F.nat state.toNat), ("event", event.toJson F)])
  | init => F.text "Init"

def handler? (j : F.Doc) : Option FunctionKind := do
  match ← F.record? ["state", "event"] j with
  | [state, event] => return handler (← F.uint16? state) (← Event.ofJson? F event)
  | _ => none

def ofJson? (j : F.Doc) : Option FunctionKind := do
  let (name, contents) ← F.variant? j
  match name with
  | "Script" => F.plain? script contents
  | "Handler" => F.holding? id (handler? F) contents
  | "Init" => F.plain? init contents
  | _ => none

end FunctionKind

namespace Place

def toJson (p : Place) : F.Doc := F.array [F.nat p.line.toNat, F.nat p.column.toNat]

def ofJson? (j : F.Doc) : Option Place := do
  match ← F.list? F.uint32? j with
  | [line, column] => return ⟨line, column⟩
  | _ => none

end Place

namespace Function

def toJson (f : Function) : F.Doc :=
  F.record [
    ("name", F.text f.name),
    ("kind", f.kind.toJson F),
    ("params", F.array (f.params.map (Ty.toJson F))),
    ("ret", f.ret.toJson F),
    ("local_count", F.nat f.localCount.toNat),
    ("ops", F.array (f.ops.toList.map (Op.toJson F))),
    ("lines", F.array (f.lines.toList.map (Place.toJson F)))]

def ofJson? (j : F.Doc) : Option Function := do
  match ← F.record? ["name", "kind", "params", "ret", "local_count", "ops", "lines"] j with
  | [name, kind, params, ret, count, ops, lines] =>
    return {
      name := ← F.text? name
      kind := ← FunctionKind.ofJson? F kind
      params := ← F.list? (Ty.ofJson? F) params
      ret := ← Ty.ofJson? F ret
      localCount := ← F.uint16? count
      ops := (← F.list? (Op.ofJson? F) ops).toArray
      lines := (← F.list? (Place.ofJson? F) lines).toArray }
  | _ => none

end Function

namespace GlobalSlot

def toJson (g : GlobalSlot) : F.Doc := F.record [("name", F.text g.name), ("ty", g.ty.toJson F)]

def ofJson? (j : F.Doc) : Option GlobalSlot := do
  match ← F.record? ["name", "ty"] j with
  | [name, ty] => return ⟨← F.text? name, ← Ty.ofJson? F ty⟩
  | _ => none

end GlobalSlot

namespace Module

/-! ## Modules -/

def cellToJson : Option UInt16 → F.Doc
  | some f => F.nat f.toNat
  | none => F.null

def toJson (m : Module) : F.Doc :=
  F.record [
    ("version", F.nat m.version.toNat),
    ("name", F.text m.name),
    ("fingerprint", F.nat m.fingerprint.toNat),
    ("arrays_enabled", F.bool m.arrays),
    ("constants", F.array (m.constants.toList.map (Constant.toJson F))),
    ("globals", F.array (m.globals.map (GlobalSlot.toJson F))),
    ("init", F.nat m.init.toNat),
    ("functions", F.array (m.functions.toList.map (Function.toJson F))),
    ("states", F.array (m.states.map F.text)),
    ("dispatch", F.array (m.dispatch.map fun row => F.array (row.map (cellToJson F))))]

def fieldNames : List String :=
  ["version", "name", "fingerprint", "arrays_enabled", "constants", "globals", "init", "functions",
    "states", "dispatch"]

def ofJson? (j : F.Doc) : Option Module := do
  match ← F.record? fieldNames j with
  | [version, name, hash, arrays, constants, globals, init, functions, states, dispatch] =>
    return {
      version := ← F.uint32? version
      name := ← F.text? name
      fingerprint := ← F.uint64? hash
      arrays := ← F.bool? arrays
      constants := (← F.list? (Constant.ofJson? F) constants).toArray
      globals := ← F.list? (GlobalSlot.ofJson? F) globals
      init := ← F.uint16? init
      functions := (← F.list? (Function.ofJson? F) functions).toArray
      states := ← F.list? F.text? states
      dispatch := ← F.list? (F.list? (F.optional? F.uint16?)) dispatch }
  | _ => none

end Module

namespace Format

def store (m : Module) : String := F.print (m.toJson F)

def load (text : String) : Except ModuleError Module :=
  match (F.read? text).bind (Module.ofJson? F) with
  | none => .error .unreadable
  | some m =>
    if m.version ≠ moduleVersion then .error (.version m.version)
    else
      match m.validate with
      | .ok () => .ok m
      | .error e => .error e

end Format

namespace Module

def toText (m : Module) : String := Json.format.store m

def ofText (text : String) : Except ModuleError Module := Json.format.load text

end Module

end EventScript
