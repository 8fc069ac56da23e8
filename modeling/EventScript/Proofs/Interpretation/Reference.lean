import EventScript.Machine.Step
import EventScript.Proofs.Syntax

/-!
# Interpretation of scripts

What a script means, read off its tree: there are no slots, no operand stack and no jumps.

1. `Store`: the variables by name. Those of a block have their default values from the start and can
   be used once their declaration has been passed; a name is that of the innermost such variable,
   then of a global one, then of a constant.
2. `eval` and `exec`: expressions and statements. Types are those of the values: an operator is found
   by its operands, and a value is converted to the type of the place that it is put in.
3. `call`: functions. A loop need not end and a function can call itself, so there is a bound on the
   turns of loops and the depth of calls; everything else is structural.

An interpretation is `stuck` where the tree has no meaning, as with a name that stands for nothing.
-/

namespace EventScript

namespace Interp

/-! ## Variables -/

structure Cell where
  ty : Ty
  value : Value

abbrev Vars := List (String × Cell)

/-- Gives the first variable of a name another value. -/
def Vars.set (name : String) (v : Value) : Vars → Vars
  | [] => []
  | p :: vars => if p.1 == name then (p.1, ⟨p.2.ty, v⟩) :: vars else p :: Vars.set name v vars

def Vars.values (vars : Vars) : List Value := vars.map (·.2.value)

/-- The variables of a block, or the parameters of a function. -/
structure Scope where
  /-- Those whose declaration has been passed, the last first. -/
  declared : Vars
  /-- Those whose declaration is still to come, in the order of the text. -/
  waiting : Vars

/-- What a script reads and writes, with states of the surroundings `ω`. -/
structure Store (ω : Type) where
  globals : Vars
  /-- The blocks around the statement that is interpreted, the innermost first. -/
  scopes : List Scope
  world : ω

/-- The variable of a name in the innermost block that has one. -/
def localCell? (name : String) (scopes : List Scope) : Option Cell :=
  scopes.findSome? fun scope => scope.declared.lookup name

/-- Gives the variable of a name in the innermost block that has one another value. -/
def setLocal? (name : String) (v : Value) : List Scope → Option (List Scope)
  | [] => none
  | scope :: scopes =>
    if (scope.declared.lookup name).isSome then
      some ({ scope with declared := scope.declared.set name v } :: scopes)
    else (setLocal? name v scopes).map (scope :: ·)

namespace Store

variable {ω : Type}

def cell? (σ : Store ω) (name : String) : Option Cell :=
  (localCell? name σ.scopes).or (σ.globals.lookup name)

def assign? (σ : Store ω) (name : String) (v : Value) : Option (Store ω) :=
  match setLocal? name v σ.scopes with
  | some scopes => some { σ with scopes }
  | none =>
    if (σ.globals.lookup name).isSome then some { σ with globals := σ.globals.set name v } else none

end Store

/-- Why the handling of an event is abandoned. -/
inductive Reason where
  | fault (fault : Fault)
  | signal (signal : Signal)
  /-- A call of the library is to be finished later. -/
  | suspended
  /-- Another state was asked for. -/
  | changed (state : Nat)

/-- Why an interpretation does not go on. -/
inductive Stop (ω : Type) where
  | abandoned (why : Reason) (globals : Vars) (world : ω)
  /-- The bound on turns and calls is used up. -/
  | exhausted
  /-- The tree has no meaning. -/
  | stuck

end Interp

abbrev Interp (ω : Type) : Type → Type := StateT (Interp.Store ω) (Except (Interp.Stop ω))

namespace Interp

variable {ω α : Type}

/-! ## Steps of an interpretation -/

def stuck : Interp ω α := fun _ => .error .stuck

def exhausted : Interp ω α := fun _ => .error .exhausted

def abandon (why : Reason) : Interp ω α := fun σ => .error (.abandoned why σ.globals σ.world)

def lift : Except Fault α → Interp ω α
  | .ok a => pure a
  | .error f => abandon (.fault f)

def cell (name : String) : Interp ω Cell := fun σ =>
  match σ.cell? name with
  | some x => .ok (x, σ)
  | none => .error .stuck

def read (name : String) : Interp ω Value := fun σ =>
  match σ.cell? name with
  | some x => .ok (x.value, σ)
  | none =>
    match Constant.ofName? name with
    | some c => .ok (.ofConstant c, σ)
    | none => .error .stuck

def assign (name : String) (v : Value) : Interp ω Unit := fun σ =>
  match σ.assign? name v with
  | some σ => .ok ((), σ)
  | none => .error .stuck

def enter (vars : Vars) : Interp ω Unit := fun σ =>
  .ok ((), { σ with scopes := ⟨[], vars⟩ :: σ.scopes })

def leave : Interp ω Unit := fun σ => .ok ((), { σ with scopes := σ.scopes.tail })

/-- Takes a variable of the innermost block from those whose declaration is still to come. -/
def take (name : String) : Interp ω Cell := fun σ =>
  match σ.scopes with
  | [] => .error .stuck
  | scope :: rest =>
    match scope.waiting.lookup name with
    | some x =>
      .ok (x, { σ with
        scopes := { scope with waiting := scope.waiting.filter (·.1 ≠ name) } :: rest })
    | none => .error .stuck

/-- Makes a variable of the innermost block one that can be used. -/
def reveal (name : String) (x : Cell) : Interp ω Unit := fun σ =>
  match σ.scopes with
  | [] => .error .stuck
  | scope :: rest =>
    .ok ((), { σ with scopes := { scope with declared := (name, x) :: scope.declared } :: rest })

def library (env : Env ω) (f : ApiFunction) (args : List Value) : Interp ω (Option Value) :=
  fun σ =>
    match env.call f args σ.world with
    | (.ok v, w) => .ok (if f.ret = .void then none else some v, { σ with world := w })
    | (.error (.failed message), w) =>
      .error (.abandoned (.fault (.host f.name message)) σ.globals w)
    | (.error (.signal x), w) => .error (.abandoned (.signal x) σ.globals w)
    | (.error .suspend, w) => .error (.abandoned .suspended σ.globals w)

/-! ## Operations -/

def operand : Option Value → Interp ω Value
  | some v => pure v
  | none => stuck

def convert (ty : Ty) (v : Value) : Interp ω Value :=
  if v.ty = ty then pure v else lift (v.cast ty)

/-- The value that an operand has to have, as one of a type. -/
def operandAs (ty : Ty) : Option Value → Interp ω Value
  | some v => convert ty v
  | none => stuck

def combine (op : BinOp) (l r : Value) : Interp ω Value :=
  match op.lookup? l.ty r.ty with
  | none => stuck
  | some e => do
    let r ← convert e.right r
    let l ← convert e.left l
    lift (e.eval.result l r)

def unary (op : UnaryOp) (v : Value) : Interp ω Value :=
  match op with
  | .neg => lift v.negate
  | .bitNot => do
    let n ← convert .integer v
    pure (.integer (~~~ n.asInt))
  | .not => pure (.bool (!v.truthy))

def component (field : String) : Interp ω Component :=
  match Component.ofName? field with
  | some c => pure c
  | none => stuck

def item (v : Value) : Interp ω Value := if v.ty = .bool then convert .integer v else pure v

/-- The value that an assignment gives to a variable. -/
def renewed (op : Option BinOp) (old : Cell) (r : Option Value) : Interp ω Value :=
  match op with
  | none => operandAs old.ty r
  | some op => operand r >>= combine op old.value

/-- The float that an assignment gives to a component of a variable. -/
def renewedComponent (op : Option BinOp) (name : String) (c : Component) (r : Option Value) :
    Interp ω Value :=
  match op with
  | none => operandAs .float r
  | some op => do
    let old ← cell name
    let x ← lift (old.value.component c)
    operand r >>= combine op x

/-- An assignment to a variable, or to a component of one. The value is evaluated first. -/
def assignTo (op : Option BinOp) (target : Expr) (value : Interp ω (Option Value)) :
    Interp ω Value :=
  match target with
  | .name name _ => do
    let r ← value
    let v ← renewed op (← cell name) r
    assign name v
    pure v
  | .field (.name name _) field _ => do
    let r ← value
    let c ← component field
    let d ← renewedComponent op name c r
    let old ← cell name
    assign name (← lift (old.value.setComponent c d.asFloat))
    pure d
  | _ => stuck

/-- The one that a step adds or subtracts. -/
def one? : Ty → Option Value
  | .integer => some (.integer 1)
  | .float => some (.float .one)
  | _ => none

/-- A step of a variable, with the value before it or after it. -/
def bump (target : Expr) (up before : Bool) : Interp ω Value :=
  match target with
  | .name name _ => do
    let old ← cell name
    match one? old.ty with
    | none => stuck
    | some one => do
      let v ← combine (if up then .add else .sub) old.value one
      assign name v
      pure (if before then old.value else v)
  | _ => stuck

/-! ## Expressions -/

/-- What the meaning of the code of a function depends on. -/
structure Setting (ω : Type) where
  env : Env ω
  script : Script
  /-- The return type of the function. -/
  ret : Ty
  /-- The bound on the turns of a loop. -/
  turns : Nat
  /-- The meaning of calls of functions of the script. -/
  call : FuncDecl → List Value → Interp ω (Option Value)

mutual

/-- The value of an expression; none for a call that returns none. -/
def eval (I : Setting ω) : Expr → Interp ω (Option Value)
  | .integer n _ => pure (some (.integer n))
  | .float d _ => pure (some (.float d))
  | .string s _ => pure (some (.string s))
  | .name name _ => do
    return some (← read name)
  | .list items _ => do
    return some (.list (← evalItems I items))
  | .vector x y z _ => do
    let x ← operandAs .float (← eval I x)
    let y ← operandAs .float (← eval I y)
    let z ← operandAs .float (← eval I z)
    return some (.vector ⟨x.asFloat, y.asFloat, z.asFloat⟩)
  | .rotation x y z s _ => do
    let x ← operandAs .float (← eval I x)
    let y ← operandAs .float (← eval I y)
    let z ← operandAs .float (← eval I z)
    let s ← operandAs .float (← eval I s)
    return some (.rotation ⟨x.asFloat, y.asFloat, z.asFloat, s.asFloat⟩)
  | .cast ty e _ => do
    return some (← operandAs ty (← eval I e))
  | .call name args _ =>
    match I.script.functions.find? (·.name == name) with
    | some f => do
      I.call f (← evalArgs I (f.params.map Param.ty) args)
    | none =>
      match ApiFunction.find? name with
      | some (_, f) => do
        library I.env f (← evalArgs I f.signature args)
      | none => stuck
  | .binary op left right _ => do
    let r ← eval I right
    let l ← eval I left
    return some (← combine op (← operand l) (← operand r))
  | .unary op e _ => do
    return some (← unary op (← operand (← eval I e)))
  | .assign op target value _ => do
    return some (← assignTo op target (eval I value))
  | .bump target up before _ => do
    return some (← bump target up before)
  | .field object field _ => do
    let v ← operand (← eval I object)
    return some (← lift (v.component (← component field)))
  -- what is written with the array extension alone
  | .undefined _ | .index .. | .method .. | .isType .. => stuck

def evalItems (I : Setting ω) : List Expr → Interp ω (List Value)
  | [] => pure []
  | e :: es => do
    let v ← item (← operand (← eval I e))
    return v :: (← evalItems I es)

/-- The arguments of a call, each as one of the type of its parameter. -/
def evalArgs (I : Setting ω) : List Ty → List Expr → Interp ω (List Value)
  | ty :: tys, e :: es => do
    let v ← operandAs ty (← eval I e)
    return v :: (← evalArgs I tys es)
  | _, _ => pure []

end

def value (I : Setting ω) (e : Expr) : Interp ω Value := eval I e >>= operand

def valueAs (I : Setting ω) (ty : Ty) (e : Expr) : Interp ω Value := eval I e >>= operandAs ty

def discard (I : Setting ω) (e : Expr) : Interp ω Unit := do
  let _ ← eval I e

def test (I : Setting ω) (e : Expr) : Interp ω Bool := do
  return (← value I e).truthy

/-! ## Statements -/

/-- What comes after a statement. -/
inductive Flow where
  | next
  /-- The function returns. -/
  | returned (v : Option Value)

/-- Goes on only if nothing has been returned. -/
def andThen (x y : Interp ω Flow) : Interp ω Flow := do
  match ← x with
  | .next => y
  | .returned v => pure (.returned v)

/-- A loop. A turn says what comes after the loop, or that there is another turn. -/
def loop (turn : Interp ω (Option Flow)) : Nat → Interp ω Flow
  | 0 => exhausted
  | n + 1 => do
    match ← turn with
    | none => loop turn n
    | some flow => pure flow

def turn (test : Interp ω Bool) (body : Interp ω Flow) (after : Interp ω Unit) :
    Interp ω (Option Flow) := do
  if ← test then
    match ← body with
    | .next => do
      after
      pure none
    | .returned v => pure (some (.returned v))
  else pure (some .next)

def lateTurn (body : Interp ω Flow) (test : Interp ω Bool) : Interp ω (Option Flow) := do
  match ← body with
  | .next => do
    if ← test then pure none else pure (some .next)
  | .returned v => pure (some (.returned v))

def blockVars (stmts : List Stmt) : Vars :=
  (Stmt.decls stmts).map fun d => (d.name, ⟨d.ty, .default d.ty⟩)

/-- The value that a declaration gives to its variable. One that comes after another statement
assigns even if it has no initial value. -/
def initial (I : Setting ω) (d : VarDecl) (x : Cell) : Interp ω Value :=
  match d.init with
  | some e => valueAs I x.ty e
  | none => pure (if d.hoisted then .default x.ty else x.value)

def declare (I : Setting ω) (d : VarDecl) : Interp ω Unit := do
  let x ← take d.name
  let v ← initial I d x
  reveal d.name ⟨x.ty, v⟩

def changeState (script : Script) (name : String) : Interp ω α :=
  match script.states.findIdx? (·.name == name) with
  | some i => abandon (.changed i)
  | none => stuck

mutual

def exec (I : Setting ω) : Stmt → Interp ω Flow
  | .null _ | .label .. => pure .next
  | .decl d => do
    declare I d
    pure .next
  | .expr e => do
    discard I e
    pure .next
  | .block _ stmts _ => do
    enter (blockVars stmts)
    let flow ← execAll I stmts
    leave
    pure flow
  | .ifThen cond body _ => do
    if ← test I cond then exec I body else pure .next
  | .ifElse cond body other _ => do
    if ← test I cond then exec I body else exec I other
  | .whileDo cond body _ => loop (turn (test I cond) (exec I body) (pure ())) I.turns
  | .doWhile body cond _ => loop (lateTurn (exec I body) (test I cond)) I.turns
  | .forDo init cond step body _ => do
    init.forM (discard I)
    let test := match cond with
      | some cond => test I cond
      | none => pure true
    loop (turn test (exec I body) (step.forM (discard I))) I.turns
  | .ret none _ => pure (.returned none)
  | .ret (some e) _ => do
    return .returned (some (← valueAs I I.ret e))
  | .state name _ => changeState I.script name
  | .jump .. | .foreach .. => stuck

def execAll (I : Setting ω) : List Stmt → Interp ω Flow
  | [] => pure .next
  | stmt :: stmts => andThen (exec I stmt) (execAll I stmts)

end

/-! ## Functions and events -/

def paramVars (f : FuncDecl) (args : List Value) : Vars :=
  (List.zipWith (fun (p : Param) v => (p.name, (⟨p.ty, v⟩ : Cell))) f.params args).reverse

/-- What a function returns that has come to an end. -/
def result (ret : Ty) : Flow → Option Value
  | .returned v => v
  | .next => if ret = .void then none else some (.default ret)

/-- Has the given blocks around, and then again those from before. -/
def inScopes (scopes : List Scope) (x : Interp ω α) : Interp ω α := fun σ => do
  let (a, σ') ← x { σ with scopes }
  pure (a, { σ' with scopes := σ.scopes })

def call (env : Env ω) (script : Script) : Nat → FuncDecl → List Value → Interp ω (Option Value)
  | 0, _, _ => exhausted
  | n + 1, f, args => do
    let I : Setting ω := ⟨env, script, f.ret, n, call env script n⟩
    let flow ← inScopes [⟨[], blockVars f.body.stmts⟩, ⟨paramVars f args, []⟩]
      (execAll I f.body.stmts)
    pure (result f.ret flow)

def globalVars (script : Script) (values : List Value) : Vars :=
  List.zipWith (fun (d : VarDecl) v => (d.name, (⟨d.ty, v⟩ : Cell))) script.globals values

/-- How the handling of an event ends. -/
inductive Ending where
  | returned
  | suspended
  | fault (fault : Fault)
  | signal (signal : Signal)
  deriving DecidableEq

/-- What the handling of an event comes to. -/
structure Outcome (ω : Type) where
  ending : Ending
  globals : List Value
  /-- The state that has been asked for. -/
  state : Option Nat
  world : ω

/-- What the handling of an event comes to when it is abandoned. -/
def Reason.outcome (globals : Vars) (w : ω) : Reason → Outcome ω
  | .fault f => ⟨.fault f, globals.values, none, w⟩
  | .signal x => ⟨.signal x, globals.values, none, w⟩
  | .suspended => ⟨.suspended, globals.values, none, w⟩
  | .changed t => ⟨.returned, globals.values, some t, w⟩

/-- What the handling of an event comes to with the result of its handler. There is no outcome if
the bound is used up. -/
def outcome? : Except (Stop ω) (Option Value × Store ω) → Option (Outcome ω)
  | .ok (_, σ) => some ⟨.returned, σ.globals.values, none, σ.world⟩
  | .error (.abandoned why globals w) => some (why.outcome globals w)
  | .error .exhausted | .error .stuck => none

/-- Handles an event from the given values of the global variables. -/
def handle (env : Env ω) (script : Script) (bound : Nat) (f : FuncDecl) (args globals : List Value)
    (w : ω) : Option (Outcome ω) :=
  outcome? ((call env script bound f args).run ⟨globalVars script globals, [], w⟩)

end Interp

/-! ## Handlers and jumps of scripts -/

namespace Stmt

mutual

def jumps : Stmt → Bool
  | .jump .. => true
  | .block _ stmts _ => anyJumps stmts
  | .ifThen _ body _ | .whileDo _ body _ | .doWhile body _ _ | .forDo _ _ _ body _
  | .foreach _ _ _ body _ => body.jumps
  | .ifElse _ body other _ => body.jumps || other.jumps
  | .decl _ | .expr _ | .label .. | .ret .. | .state .. | .null _ => false

def anyJumps : List Stmt → Bool
  | [] => false
  | stmt :: stmts => stmt.jumps || anyJumps stmts

end

end Stmt

def Script.handler? (script : Script) (state : Nat) (event : Event) : Option FuncDecl := do
  let s ← script.states[state]?
  s.handlers.find? fun f => Event.ofName? f.name = some event

def Script.jumps (script : Script) : Bool :=
  script.decls.any fun f => Stmt.anyJumps f.body.stmts

end EventScript
