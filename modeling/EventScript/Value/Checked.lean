import EventScript.Fault
import EventScript.Value.Cast
import EventScript.Value.Operation

/-!
# Operations that can fault

Conversions, operators and accesses to arrays and components, with the fault that each raises
where it has no value.
-/

namespace EventScript

namespace Value

def cast (v : Value) (ty : Ty) : Except Fault Value :=
  match v.cast? ty with
  | some r => .ok r
  | none => .error (.badCast v.ty? ty)

def negate (v : Value) : Except Fault Value :=
  match v.negate? with
  | some r => .ok r
  | none => .error (.corrupt (.negation v.ty))

def component (v : Value) (c : Component) : Except Fault Value :=
  match v.component? c with
  | some d => .ok (.float d)
  | none => .error (.corrupt (.component c v.ty))

def setComponent (v : Value) (c : Component) (d : Double) : Except Fault Value :=
  match v.setComponent? c d with
  | some r => .ok r
  | none => .error (.corrupt (.component c v.ty))

def entries : Value → Except Fault Entries
  | .array entries => .ok entries
  | v => .error (.badCast (some v.ty) .array)

end Value

def BinEval.result (eval : BinEval) (l r : Value) : Except Fault Value :=
  match eval.result? l r with
  | some v => .ok v
  | none => .error .divisionByZero

def ArrayKey.ofValue (v : Value) : Except Fault ArrayKey :=
  match ArrayKey.ofValue? v with
  | some k => .ok k
  | none => .error (.badCast v.ty? .object)

namespace Entries

def getValue (entries : Entries) (k : Value) : Except Fault Value := do
  return entries.get (← ArrayKey.ofValue k)

def setValue (entries : Entries) (k v : Value) : Except Fault Entries := do
  return entries.set (← ArrayKey.ofValue k) v

end Entries

end EventScript
