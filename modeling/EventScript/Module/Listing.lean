import EventScript.Module

/-!
# Listings of modules

`Module.listing` shows every function of a module with one line for each instruction.
-/

namespace EventScript

namespace VarRef

def describe : VarRef → String
  | localVar slot => "Local(" ++ toString slot.toNat ++ ")"
  | globalVar index => "Global(" ++ toString index.toNat ++ ")"

end VarRef

namespace Op

def label : Op → String
  | pushConst _ => "PushConst"
  | pushDefault _ => "PushDefault"
  | pushUndefined => "PushUndef"
  | pop => "Pop"
  | dup => "Dup"
  | loadLocal _ => "LoadLocal"
  | storeLocal _ => "StoreLocal"
  | loadGlobal _ => "LoadGlobal"
  | storeGlobal _ => "StoreGlobal"
  | cast _ => "Cast"
  | castSecond _ => "CastSecond"
  | binary _ => "Binary"
  | neg => "Neg"
  | bitNot => "BitNot"
  | not => "Not"
  | isType _ => "IsType"
  | makeList _ => "MakeList"
  | makeVector => "MakeVector"
  | makeRotation => "MakeRotation"
  | getField _ => "GetField"
  | setField _ => "SetField"
  | arrayGet => "ArrayGet"
  | arraySet _ => "ArraySet"
  | arrayCount => "ArrayCount"
  | arrayKey => "ArrayKey"
  | arrayValue => "ArrayValue"
  | jump _ => "Jump"
  | jumpIfFalse _ => "JumpIfFalse"
  | jumpIfTrue _ => "JumpIfTrue"
  | jumpIfNoStateChange _ => "JumpIfNoStateChange"
  | call _ => "Call"
  | callApi _ => "CallApi"
  | ret => "Return"
  | memStatic _ => "MemStatic"
  | memIncr _ => "MemIncr"
  | memDecr _ => "MemDecr"
  | checkRun => "CheckRun"
  | setState _ => "SetState"

def argument? : Op → Option String
  | pushConst i | loadLocal i | storeLocal i | loadGlobal i | storeGlobal i | makeList i | call i
  | callApi i | setState i => some (toString i.toNat)
  | pushDefault t | cast t | castSecond t | isType t => some t.label
  | binary e => some e.name
  | getField c | setField c => some c.label
  | arraySet v | memIncr v | memDecr v => some v.describe
  | jump n | jumpIfFalse n | jumpIfTrue n | jumpIfNoStateChange n => some (toString n.toNat)
  | memStatic n => some (toString n.toInt)
  | _ => none

def describe (op : Op) : String :=
  match op.argument? with
  | some a => op.label ++ "(" ++ a ++ ")"
  | none => op.label

end Op

namespace Module

def unresolved (index : UInt16) : String := "#" ++ toString index.toNat

def describe (m : Module) (op : Op) : String :=
  match op with
  | .pushConst i => op.label ++ " " ++ ((m.constant? i).map Constant.describe).getD (unresolved i)
  | .call i => op.label ++ " " ++ ((m.function? i).map Function.name).getD (unresolved i)
  | .callApi i => op.label ++ " " ++ ((ApiFunction.get? i).map ApiFunction.name).getD (unresolved i)
  | .loadGlobal i | .storeGlobal i =>
    op.describe ++ " (" ++ ((m.globals[i.toNat]?).map GlobalSlot.name).getD "?" ++ ")"
  | .setState i => op.label ++ " " ++ (m.state? i).getD "?"
  | _ => op.describe

def padLeft (width n : Nat) : String :=
  let digits := toString n
  String.ofList (List.replicate (width - digits.length) ' ') ++ digits

def listingLine (m : Module) (f : Function) (op : Op) (pc : Nat) : String :=
  let line := (f.lines[pc]?.map fun p => p.line.toNat).getD 0
  "  " ++ padLeft 4 pc ++ "  [" ++ padLeft 3 line ++ "]  " ++ m.describe op ++ "\n"

def listingFunction (m : Module) (f : Function) (index : Nat) : String :=
  "\n" ++ toString index ++ ": " ++ f.name ++ " (" ++ toString f.localCount.toNat ++ " locals)\n" ++
    String.join (f.ops.toList.zipIdx.map fun (op, pc) => m.listingLine f op pc)

def listing (m : Module) : String :=
  "; module " ++ m.name ++ " v" ++ toString m.version.toNat ++ " fingerprint " ++
    m.fingerprintText ++ "\n" ++
    String.join (m.globals.zipIdx.map fun (g, i) =>
      "; global " ++ toString i ++ ": " ++ g.ty.name ++ " " ++ g.name ++ "\n") ++
    String.join (m.functions.toList.zipIdx.map fun (f, i) => m.listingFunction f i)

end Module

end EventScript
