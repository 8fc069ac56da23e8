import EventScript.Host
import EventScript.Machine
import EventScript.Value.Checked

/-!
# One instruction

`Machine.step` runs one instruction, or finishes a call that was suspended. What surrounds the
machine is an `Env`: it answers the calls of library functions and says at each checkpoint whether
to stop there. A step that faults leaves the operands that it had not taken yet.
-/

namespace EventScript

/-- What surrounds a machine, with states `ω`. -/
structure Env (ω : Type) where
  call : ApiFunction → List Value → ω → Except Interrupt Value × ω
  resume : ApiFunction → List Value → ω → Except Interrupt Value × ω
  poll : ω → Bool × ω

inductive Halt where
  | completed (value : Value)
  | suspended
  | fault (fault : Fault)
  | signal (signal : Signal)

inductive Step (ω : Type) where
  | next (s : Machine) (w : ω)
  | halt (why : Halt) (s : Machine) (w : ω)

/-- The operands after an instruction, or the fault and the operands that it leaves. -/
abbrev Operands := Except (Fault × List Value) (List Value)

namespace Operands

def underflow (stack : List Value) : Operands := .error (.corrupt .underflow, stack)

def pushResult (rest : List Value) : Except Fault Value → Operands
  | .ok v => .ok (v :: rest)
  | .error e => .error (e, rest)

def unary (f : Value → Except Fault Value) : List Value → Operands
  | [] => underflow []
  | v :: rest => pushResult rest (f v)

/-- Replaces the two values on top; the first argument is the top one. -/
def binary (f : Value → Value → Except Fault Value) : List Value → Operands
  | a :: b :: rest => pushResult rest (f a b)
  | _ => underflow []

def below (f : Value → Except Fault Value) : List Value → Operands
  | a :: b :: rest =>
    match f b with
    | .ok r => .ok (a :: r :: rest)
    | .error e => .error (e, rest)
  | _ => underflow []

/-- The values on top in the order in which they were pushed, and the operands below them. -/
def split? (n : Nat) (stack : List Value) : Option (List Value × List Value) :=
  if n ≤ stack.length then some ((stack.take n).reverse, stack.drop n) else none

def gather (n : Nat) (f : List Value → Value) (stack : List Value) : Operands :=
  match split? n stack with
  | some (args, rest) => .ok (f args :: rest)
  | none => underflow stack

def toVector (args : List Value) : Value :=
  match args.map Value.asFloat with
  | [x, y, z] => .vector ⟨x, y, z⟩
  | _ => .vector .zero

def toRotation (args : List Value) : Value :=
  match args.map Value.asFloat with
  | [x, y, z, s] => .rotation ⟨x, y, z, s⟩
  | _ => .rotation .identity

end Operands

/-- The type of a value is the given one, which is never so for `undef`. -/
def Value.isOf (v : Value) (ty : Ty) : Bool := !v.isUndefined && v.ty == ty

/-- What an instruction that uses nothing but the operands makes of them. -/
def Op.operate? : Op → Option (List Value → Operands)
  | .pushDefault ty => some fun stack => .ok (.default ty :: stack)
  | .pushUndefined => some fun stack => .ok (.undefined :: stack)
  | .pop => some fun
    | [] => Operands.underflow []
    | _ :: rest => .ok rest
  | .dup => some fun
    | [] => Operands.underflow []
    | v :: rest => .ok (v :: v :: rest)
  | .cast ty => some (Operands.unary (·.cast ty))
  | .castSecond ty => some (Operands.below (·.cast ty))
  | .binary eval => some (Operands.binary eval.result)
  | .neg => some (Operands.unary Value.negate)
  | .bitNot => some (Operands.unary fun v => .ok (.integer (~~~ v.asInt)))
  | .not => some (Operands.unary fun v => .ok (.bool (!v.truthy)))
  | .isType ty => some (Operands.unary fun v => .ok (.bool (v.isOf ty)))
  | .makeList n => some (Operands.gather n.toNat .list)
  | .makeVector => some (Operands.gather 3 Operands.toVector)
  | .makeRotation => some (Operands.gather 4 Operands.toRotation)
  | .getField c => some (Operands.unary (·.component c))
  | .setField c => some (Operands.binary fun d v => v.setComponent c d.asFloat)
  | .arrayGet => some (Operands.binary fun k v => do (← v.entries).getValue k)
  | .arrayCount => some (Operands.unary fun v => do
      return .integer (Word.clamp (← v.entries).length))
  | .arrayKey => some (Operands.binary fun n v => do return (← v.entries).keyAt n.asInt)
  | .arrayValue => some (Operands.binary fun n v => do return (← v.entries).valueAt n.asInt)
  | _ => none

namespace Machine

variable {ω : Type}

/-! ## Variables -/

/-- The fault of an instruction that names a variable that is not there. -/
def missing : VarRef → Fault
  | .localVar slot => .corrupt (.localRange slot)
  | .globalVar index => .corrupt (.globalRange index)

def var? (s : Machine) (f : Frame) : VarRef → Option Value
  | .localVar slot => f.locals[slot.toNat]?
  | .globalVar index => s.globals[index.toNat]?

/-- Gives a variable of the innermost frame or of the script another value. -/
def setVar (s : Machine) (f : Frame) (var : VarRef) (v : Value) : Machine :=
  match var with
  | .localVar slot => s.setTop { f with locals := f.locals.set slot.toNat v }
  | .globalVar index => { s.setTop f with globals := s.globals.set index.toNat v }

/-! ## Parts of instructions -/

def go (s : Machine) (f : Frame) (w : ω) : Step ω := .next (s.setTop f) w

def stop (s : Machine) (f : Frame) (e : Fault) (w : ω) : Step ω := .halt (.fault e) (s.setTop f) w

def replace (s : Machine) (f : Frame) (r : Operands) (w : ω) : Step ω :=
  match r with
  | .ok stack => go s { f with operands := stack } w
  | .error (e, stack) => stop s { f with operands := stack } e w

def load (s : Machine) (f : Frame) (v? : Option Value) (e : Fault) (w : ω) : Step ω :=
  match v? with
  | some v => go s (f.push v) w
  | none => stop s f e w

def store (s : Machine) (f : Frame) (var : VarRef) (w : ω) : Step ω :=
  match f.operands with
  | [] => stop s f (.corrupt .underflow) w
  | v :: rest =>
    let f := { f with operands := rest }
    match s.var? f var with
    | some _ => .next (s.setVar f var v) w
    | none => stop s f (missing var) w

def storeElement (s : Machine) (f : Frame) (var : VarRef) (w : ω) : Step ω :=
  match f.operands with
  | v :: k :: rest =>
    let f := { f with operands := v :: rest }
    match s.var? f var with
    | none => stop s f (missing var) w
    | some a =>
      match (do (← a.entries).setValue k v) with
      | .ok entries => .next (s.setVar f var (.array entries)) w
      | .error e => stop s f e w
  | _ => stop s { f with operands := [] } (.corrupt .underflow) w

/-- Jumps if the value on top, which is popped, passes a test. -/
def branch (s : Machine) (f : Frame) (test : Value → Bool) (target : UInt32) (w : ω) : Step ω :=
  match f.operands with
  | [] => stop s f (.corrupt .underflow) w
  | v :: rest => go s { f with operands := rest, pc := if test v then target.toNat else f.pc } w

def callFunction (m : Module) (s : Machine) (f : Frame) (index : UInt16) (w : ω) : Step ω :=
  match m.function? index with
  | none => stop s f (.corrupt (.functionRange index)) w
  | some g =>
    match Operands.split? g.params.length f.operands with
    | none => stop s f (.corrupt .underflow) w
    | some (args, rest) =>
      let f := { f with operands := rest }
      match (s.setTop f).enter m index args with
      | .ok s => .next s w
      | .error e => stop s f e w

/-- Ends a library call that has no answer; `s` is the machine without a frame for the call. -/
def interrupt (s : Machine) (i : Interrupt) (index : UInt16) (args : List Value) (name : String)
    (w : ω) : Step ω :=
  match i with
  | .failed message => .halt (.fault (.host name message)) s w
  | .signal signal => .halt (.signal signal) s w
  | .suspend => .halt .suspended { s with frames := .waiting index args :: s.frames } w

def answered (g : ApiFunction) (v : Value) (f : Frame) : Frame :=
  if g.ret = .void then f else f.push v

def callApi (env : Env ω) (s : Machine) (f : Frame) (index : UInt16) (w : ω) : Step ω :=
  match ApiFunction.get? index with
  | none => stop s f (.corrupt (.apiRange index)) w
  | some g =>
    match Operands.split? g.params.length f.operands with
    | none => stop s f (.corrupt .underflow) w
    | some (args, rest) =>
      let f := { f with operands := rest }
      match env.call g args w with
      | (.ok v, w) => go s (answered g v f) w
      | (.error i, w) => interrupt (s.setTop f) i index args g.name w

/-- Finishes a library call that was suspended; `callers` are the frames below its frame. -/
def resumeApi (env : Env ω) (s : Machine) (f : Frame) (callers : List Frame) (w : ω) : Step ω :=
  let s := { s with frames := callers }
  match ApiFunction.get? f.function with
  | none => .halt (.fault (.corrupt (.apiRange f.function))) s w
  | some g =>
    match env.resume g f.locals w with
    | (.ok v, w) =>
      match callers with
      | [] => .halt (.fault (.corrupt .apiWithoutCaller)) s w
      | caller :: _ => go s (answered g v caller) w
    | (.error i, w) => interrupt s i f.function f.locals g.name w

def leave (s : Machine) (f : Frame) (ret : Ty) (w : ω) : Step ω :=
  let s := { s with frames := s.frames.tail }
  match (if ret = .void then some .undefined else f.operands.head?) with
  | none => .halt (.fault (.corrupt .underflow)) s w
  | some v =>
    match s.frames with
    | [] => .halt (.completed v) s w
    | caller :: _ => go s (if ret = .void then caller else caller.push v) w

def check (env : Env ω) (s : Machine) (w : ω) : Step ω :=
  if s.memLimit < s.memUsage then .halt (.fault (.memoryLimit s.memUsage s.memLimit)) s w
  else
    match env.poll w with
    | (true, w) => .halt .suspended s w
    | (false, w) => .next s w

/-! ## Instructions -/

/-- Runs an instruction; `f` is the innermost frame, which has gone past it, and `ret` the type of
the function that the instruction is in. -/
def exec (env : Env ω) (m : Module) (ret : Ty) (op : Op) (f : Frame) (s : Machine) (w : ω) :
    Step ω :=
  match op with
  | .ret => leave (s.setTop f) f ret w
  | .checkRun => check env (s.setTop f) w
  | .pushConst i => load s f ((m.constant? i).map .ofConstant) (.corrupt (.constantRange i)) w
  | .loadLocal slot => load s f (s.var? f (.localVar slot)) (missing (.localVar slot)) w
  | .storeLocal slot => store s f (.localVar slot) w
  | .loadGlobal i => load s f (s.var? f (.globalVar i)) (missing (.globalVar i)) w
  | .storeGlobal i => store s f (.globalVar i) w
  | .arraySet var => storeElement s f var w
  | .jump target => go s { f with pc := target.toNat } w
  | .jumpIfFalse target => branch s f (fun v => !v.truthy) target w
  | .jumpIfTrue target => branch s f Value.truthy target w
  | .jumpIfNoStateChange target =>
    go s (if s.pending.isNone then { f with pc := target.toNat } else f) w
  | .call index => callFunction m s f index w
  | .callApi index => callApi env s f index w
  | .memStatic n => .next ((s.setTop f).charge n) w
  | .memIncr var =>
    match s.var? f var with
    | some v => .next ((s.setTop f).charge v.dynSize) w
    | none => stop s f (missing var) w
  | .memDecr var =>
    match s.var? f var with
    | some v => .next ((s.setTop f).release v.dynSize) w
    | none => stop s f (missing var) w
  | .setState state => .next { s.setTop f with pending := some state } w
  | op =>
    match op.operate? with
    | some g => replace s f (g f.operands) w
    | none => go s f w

def step (env : Env ω) (m : Module) (s : Machine) (w : ω) : Step ω :=
  match s.frames with
  | [] => .halt (.completed .undefined) s w
  | f :: callers =>
    match f.receiver with
    | .api => resumeApi env s f callers w
    | .script =>
      match m.function? f.function with
      | none => .halt (.fault (.corrupt (.functionRange f.function))) s w
      | some g =>
        match g.ops[f.pc]? with
        | none => .halt (.fault (.corrupt (.pastEnd g.name f.pc))) s w
        | some op => exec env m g.ret op { f with pc := f.pc + 1 } s w

end Machine

end EventScript
