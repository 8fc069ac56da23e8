import EventScript.Diagnostic
import EventScript.Module

/-!
# Generation of code

`Gen` builds the code of one function. An action returns the code that it stands for beside its
value, and code is only ever put together, never changed: where a jump comes before the code that
it skips, the code is generated first (`skipping`). An action that fails says why; everything else
that it did to the state stays, and the code is lost with the statement.
-/

namespace EventScript.Compile

structure LocalVar where
  slot : UInt16
  ty : Ty
  deriving DecidableEq, Inhabited

structure GlobalVar where
  index : UInt16
  ty : Ty
  deriving DecidableEq, Inhabited

structure Signature where
  index : UInt16
  params : List Ty
  ret : Ty
  deriving DecidableEq, Inhabited

/-- The variables of a block, or of the parameter list. -/
structure Scope where
  block : Option Nat
  /-- The variables that have been declared, the last first. -/
  visible : List (String × LocalVar)
  pending : List (String × LocalVar)
  owned : List LocalVar
  staticSize : Int32
  deriving Inhabited

def Scope.empty (block : Option Nat) : Scope := ⟨block, [], [], [], 0⟩

def Scope.dynamicSlots (scope : Scope) : List UInt16 :=
  (scope.owned.filter (·.ty.hasDynamicSize)).map LocalVar.slot

/-- A label: the innermost block around it, and whether a later jump goes to it. -/
structure Label where
  name : String
  block : Nat
  checkpoint : Bool
  deriving DecidableEq, Inhabited

structure Names where
  lines : LineTable
  globals : List (String × GlobalVar)
  states : List (String × UInt16)
  functions : List (String × Signature)

structure Context where
  names : Names
  ret : Ty
  /-- The cost of a frame with the parameters and the variables of the body. -/
  frameStatic : Int32
  labels : List Label
  /-- In the initializer, the number of globals that have their values. -/
  globalLimit : Option Nat

structure State where
  constants : List Constant
  localCount : Nat
  /-- The open scopes, the innermost first. -/
  scopes : List Scope
  place : Place
  pc : Nat
  marks : List (String × Nat)
  errors : List Diagnostic
  deriving Inhabited

inductive Instr where
  | op (op : Op) (place : Place)
  | jumpTo (label : String) (place : Place)
  deriving DecidableEq, Inhabited

abbrev Code := List Instr

inductive Outcome (α : Type) where
  | done (value : α) (code : Code) (state : State)
  | failed (error : Diagnostic) (state : State)

def Gen (α : Type) : Type := Context → State → Outcome α

namespace Gen

protected def pure (a : α) : Gen α := fun _ s => .done a [] s

protected def bind (x : Gen α) (f : α → Gen β) : Gen β := fun c s =>
  match x c s with
  | .done a code s =>
    match f a c s with
    | .done b rest s => .done b (code ++ rest) s
    | .failed e s => .failed e s
  | .failed e s => .failed e s

instance : Monad Gen where
  pure := Gen.pure
  bind := Gen.bind

def context : Gen Context := fun c s => .done c [] s

def state : Gen State := fun _ s => .done s [] s

def modify (f : State → State) : Gen Unit := fun _ s => .done () [] (f s)

def fail (e : SemanticError) (span : Span) : Gen α := fun _ s =>
  .failed { cause := .semantic e, span } s

def record (d : Diagnostic) : Gen Unit := modify fun s => { s with errors := d :: s.errors }

/-- Runs an action and gives its error as a value; a failed action has no code. -/
def attempt (x : Gen α) : Gen (Except Diagnostic α) := fun c s =>
  match x c s with
  | .done a code s => .done (.ok a) code s
  | .failed e s' => .done (.error e) [] { s' with pc := s.pc }

def ofExcept : Except Diagnostic α → Gen α
  | .ok a => pure a
  | .error e => fun _ s => .failed e s

/-- Runs an action; an error is recorded and costs only the action. -/
def report (x : Gen Unit) : Gen Unit := do
  match ← attempt x with
  | .ok () => pure ()
  | .error e => record e

/-! ## Code -/

def emit (op : Op) : Gen Unit := fun _ s => .done () [.op op s.place] { s with pc := s.pc + 1 }

def emitJumpTo (label : String) : Gen Unit := fun _ s =>
  .done () [.jumpTo label s.place] { s with pc := s.pc + 1 }

/-- Leaves room for an instruction and gives the place that it comes from. -/
def reserve : Gen Place := fun _ s => .done s.place [] { s with pc := s.pc + 1 }

def capture (x : Gen α) : Gen (α × Code) := fun c s =>
  match x c s with
  | .done a code s => .done (a, code) [] s
  | .failed e s => .failed e s

def fill (code : Code) : Gen Unit := fun _ s => .done () code s

def here : Gen UInt32 := do
  let pc := (← state).pc
  if pc < 0x100000000 then pure (UInt32.ofNat pc) else fail .functionTooLarge ⟨0, 0⟩

def skipping (jump : UInt32 → Op) (body : Gen Unit) : Gen Unit := do
  let place ← reserve
  let (_, code) ← capture body
  let target ← here
  fill (.op (jump target) place :: code)

/-- Two pieces of code, of which the first is skipped by the jump and the second by the first. -/
def choosing (jump : UInt32 → Op) (first second : Gen Unit) : Gen Unit := do
  let place ← reserve
  let (_, code) ← capture first
  let back ← reserve
  let middle ← here
  let (_, rest) ← capture second
  let target ← here
  fill (.op (jump middle) place :: (code ++ .op (.jump target) back :: rest))

def setPlace (span : Span) : Gen Unit := do
  let p := (← context).names.lines.position span.start
  let narrow (n : Nat) : UInt32 := UInt32.ofNat (min n 0xffffffff)
  modify fun s => { s with place := ⟨narrow p.line, narrow p.column⟩ }

/-! ## Constants and variables -/

def constantIndex (v : Constant) (span : Span) : Gen UInt16 := do
  let s ← state
  let at? := s.constants.findIdx? (· == v)
  match Word.index? (at?.getD s.constants.length) with
  | none => fail .tooManyConstants span
  | some i =>
    if at?.isNone then modify fun s => { s with constants := s.constants ++ [v] }
    pure i

def emitConstant (v : Constant) (span : Span) : Gen Unit := do
  emit (.pushConst (← constantIndex v span))

def maxLocals : Nat := 65535

def newSlot (span : Span) : Gen UInt16 := do
  let n := (← state).localCount
  if n < maxLocals then
    modify fun s => { s with localCount := n + 1 }
    pure (UInt16.ofNat n)
  else
    fail .tooManyLocals span

def coerce (source target : Ty) (explicit : Bool) (span : Span) : Gen Unit :=
  if source = target then pure ()
  else if source = .void then fail .noValue span
  else if source.canCast target explicit then emit (.cast target)
  else if explicit then fail (.cannotCast source target) span
  else fail (.cannotConvert source target) span

def load : VarRef → Gen Unit
  | .localVar slot => emit (.loadLocal slot)
  | .globalVar index => emit (.loadGlobal index)

def storeOnly : VarRef → Gen Unit
  | .localVar slot => emit (.storeLocal slot)
  | .globalVar index => emit (.storeGlobal index)

/-- Stores the value on top and keeps account of the contents of the variable. -/
def store (var : VarRef) (ty : Ty) : Gen Unit := do
  if ty.hasDynamicSize then emit (.memDecr var)
  storeOnly var
  if ty.hasDynamicSize then emit (.memIncr var)

inductive Meaning where
  | var (var : VarRef) (ty : Ty)
  | constant (value : Constant)

def localOf? (name : String) (scopes : List Scope) : Option LocalVar :=
  scopes.findSome? fun scope => scope.visible.lookup name

def globalOf? (c : Context) (name : String) : Option GlobalVar :=
  (c.names.globals.lookup name).filter fun g => c.globalLimit.all fun limit => g.index.toNat < limit

/-- What a name stands for: a local variable, a global one or a constant. -/
def meaningOf? (c : Context) (s : State) (name : String) : Option Meaning :=
  match localOf? name s.scopes with
  | some v => some (.var (.localVar v.slot) v.ty)
  | none =>
    match globalOf? c name with
    | some g => some (.var (.globalVar g.index) g.ty)
    | none => (Constant.ofName? name).map .constant

def meaning? (name : String) : Gen (Option Meaning) := do
  return meaningOf? (← context) (← state) name

def varOf (name : String) (span : Span) : Gen (VarRef × Ty) := do
  match ← meaning? name with
  | some (.var var ty) => pure (var, ty)
  | some (.constant _) => fail (.assignToConstant name) span
  | none => fail (.undefinedVariable name) span

/-! ## Scopes -/

def releaseSlots (slots : List UInt16) : Gen Unit :=
  slots.forM fun slot => emit (.memDecr (.localVar slot))

def leaveScope (scope : Scope) : Gen Unit := do
  releaseSlots scope.dynamicSlots
  if scope.staticSize ≠ 0 then emit (.memStatic (-scope.staticSize))

/-- Takes off the cost of all scopes, the innermost first, and of the frame. -/
def leaveFrame : Gen Unit := do
  let scopes := (← state).scopes
  let inner := scopes.take (scopes.length - 2)
  let outer := scopes.drop (scopes.length - 2)
  inner.forM leaveScope
  releaseSlots (outer.flatMap Scope.dynamicSlots)
  emit (.memStatic (-(← context).frameStatic))

def returnDefault : Gen Unit := do
  let ret := (← context).ret
  if ret ≠ .void then emit (.pushDefault ret)
  leaveFrame
  emit .ret

end Gen

end EventScript.Compile
