import EventScript.Compile.Expr
import EventScript.Compile.Label

/-!
# Code of statements

A statement leaves the operand stack as it found it. Entering a block charges its variables and
gives them default values; leaving it, by its end or by a jump, takes the charge off again. Every
loop passes a checkpoint in each turn.
-/

namespace EventScript.Compile

open Gen

/-! ## Variables of a block -/

/-- Takes a variable with a new slot into a scope; `known` are the names that it may not have. -/
def addVar (scope : Scope) (known : List (String × LocalVar)) (visible : Bool)
    (name : String) (ty : Ty) (span : Span) : Gen Scope := do
  if known.any (·.1 == name) then
    record { cause := .semantic (.duplicateVariable name), span }
    pure scope
  else
    match ← attempt (newSlot span) with
    | .error e =>
      record e
      pure scope
    | .ok slot =>
      let v : LocalVar := ⟨slot, ty⟩
      let scope := { scope with
        owned := scope.owned ++ [v], staticSize := scope.staticSize + ty.staticSize }
      pure (if visible then { scope with visible := (name, v) :: scope.visible }
        else { scope with pending := (name, v) :: scope.pending })

/-- Takes the variables that are declared directly in a block into a scope. -/
def declareAll (scope : Scope) : List Stmt → Gen Scope
  | [] => pure scope
  | .decl d :: ss => do
    declareAll (← addVar scope scope.pending false d.name d.ty d.span) ss
  | _ :: ss => declareAll scope ss

def declareParams (scope : Scope) : List Param → Gen Scope
  | [] => pure scope
  | p :: ps => do
    declareParams (← addVar scope scope.visible true p.name p.ty p.span) ps

def initVars (vars : List LocalVar) : Gen Unit :=
  vars.forM fun v => do
    emit (.pushDefault v.ty)
    emit (.storeLocal v.slot)

def pushScope (scope : Scope) : Gen Unit :=
  modify fun s => { s with scopes := scope :: s.scopes }

def popScope : Gen Unit := modify fun s => { s with scopes := s.scopes.tail }

/-! ## Statements without parts -/

def genDiscard (e : Expr) : Gen Unit := do
  if (← genExpr e) ≠ .void then emit .pop

def genSteps (es : List Expr) : Gen Unit :=
  es.forM fun e => do
    setPlace e.span
    genDiscard e

def genCond (e : Expr) : Gen Unit := do
  let ty ← genExpr e
  if ty.isTruth then pure () else fail (.notCondition ty) e.span

def genInitial (e : Expr) (ty : Ty) : Gen Unit := do
  coerce (← genExpr e) ty false e.span

/-- Gives a variable the value of its declaration. A variable that is declared after another
statement can hold an older value, when its block is run again from a label. -/
def genDeclValue (d : VarDecl) (v : LocalVar) : Gen Unit := do
  if d.hoisted then
    match d.init with
    | some e => genInitial e v.ty
    | none => emit (.pushDefault v.ty)
    store (.localVar v.slot) v.ty
  else
    match d.init with
    | some e =>
      genInitial e v.ty
      emit (.storeLocal v.slot)
      if v.ty.hasDynamicSize then emit (.memIncr (.localVar v.slot))
    | none => pure ()

def reveal (name : String) (v : LocalVar) : Gen Unit :=
  modify fun s =>
    match s.scopes with
    | [] => s
    | scope :: rest => { s with scopes := { scope with visible := (name, v) :: scope.visible } :: rest }

/-- Takes a variable of the innermost scope from those whose declaration is still to come. -/
def takePending? (name : String) : Gen (Option LocalVar) := do
  match (← state).scopes with
  | [] => pure none
  | scope :: rest =>
    modify fun s =>
      { s with scopes := { scope with pending := scope.pending.filter (·.1 ≠ name) } :: rest }
    pure (scope.pending.lookup name)

def genDecl (d : VarDecl) : Gen Unit := do
  match ← takePending? d.name with
  | none => pure ()
  | some v =>
    let result ← attempt (genDeclValue d v)
    reveal d.name v
    ofExcept result

/-- A jump. It leaves the scopes inside the one that has the label. -/
def genJump (label : String) (span : Span) : Gen Unit := do
  match (← context).labels.find? (·.name == label) with
  | none => fail (.undefinedLabel label) span
  | some l =>
    let scopes := (← state).scopes
    let left := scopes.takeWhile (·.block ≠ some l.block)
    if left.length = scopes.length then fail .lateralJump span
    else
      left.forM leaveScope
      emitJumpTo label

def genLabel (label : String) : Gen Unit := do
  let s ← state
  if (s.marks.lookup label).isSome then pure ()
  else
    modify fun s => { s with marks := (label, s.pc) :: s.marks }
    if (← context).labels.any fun l => l.name == label && l.checkpoint then emit .checkRun

def genReturn (value : Option Expr) (span : Span) : Gen Unit := do
  let ret := (← context).ret
  match value with
  | none => if ret = .void then pure () else fail (.returnExpected ret) span
  | some e => if ret = .void then fail .returnNotAllowed span else genInitial e ret
  leaveFrame
  emit .ret

def genState (name : String) (span : Span) : Gen Unit := do
  match (← context).names.states.lookup name with
  | none => fail (.undefinedState name) span
  | some i =>
    emit (.setState i)
    returnDefault

/-! ## Loops over arrays -/

def loopVar (name : Option (String × Span)) : Gen (Option (VarRef × Ty)) :=
  match name with
  | none => pure none
  | some (n, span) => do
    return some (← varOf n span)

def checkLoopVar (name : Option (String × Span)) (var : Option (VarRef × Ty)) : Gen Unit :=
  match name, var with
  | some (_, span), some (_, ty) =>
    if Ty.object.canCast ty false then pure () else fail (.cannotConvert .object ty) span
  | _, _ => pure ()

/-- Assigns what the instruction reads from the array to the variable of a loop. -/
def genLoopVar (array index : UInt16) (fetch : Op) (var : Option (VarRef × Ty)) : Gen Unit :=
  match var with
  | none => pure ()
  | some (var, ty) => do
    emit (.loadLocal array)
    emit (.loadLocal index)
    emit fetch
    if ty ≠ .object then emit (.cast ty)
    store var ty

def genForeach (key value : Option (String × Span)) (array : Expr) (body : Gen Unit)
    (span : Span) : Gen Unit := do
  let ty ← genExpr array
  if ty ≠ .array then fail (.foreachOf ty) array.span
  else
    let keyVar ← loopVar key
    let valueVar ← loopVar value
    checkLoopVar key keyVar
    checkLoopVar value valueVar
    let copy ← newSlot span
    let index ← newSlot span
    emit (.storeLocal copy)
    emitConstant (.integer 0) span
    emit (.storeLocal index)
    let top ← here
    emit .checkRun
    emit (.loadLocal copy)
    emit .arrayCount
    emit (.loadLocal index)
    emit (.binary .intLt)
    skipping .jumpIfFalse do
      genLoopVar copy index .arrayKey keyVar
      genLoopVar copy index .arrayValue valueVar
      report body
      emitConstant (.integer 1) span
      emit (.loadLocal index)
      emit (.binary .intAdd)
      emit (.storeLocal index)
      emit (.jump top)

/-! ## Statements -/

def lastOf (span : Span) : Span := ⟨span.stop - 1, span.stop⟩

mutual

def genStmt : Stmt → Gen Unit
  | .null span => setPlace span
  | .decl d => do
    setPlace d.span
    genDecl d
  | .expr e => do
    setPlace e.span
    genDiscard e
  | .block id stmts span => do
    setPlace span
    let scope ← declareAll (.empty (some id)) stmts
    if scope.staticSize ≠ 0 then emit (.memStatic scope.staticSize)
    initVars scope.owned
    pushScope scope
    genStmts stmts
    setPlace (lastOf span)
    leaveScope scope
    popScope
  | .ifThen cond body span => do
    setPlace span
    genCond cond
    skipping .jumpIfFalse (report (genStmt body))
  | .ifElse cond body other span => do
    setPlace span
    genCond cond
    choosing .jumpIfFalse (report (genStmt body)) (report (genStmt other))
  | .whileDo cond body span => do
    setPlace span
    let top ← here
    emit .checkRun
    genCond cond
    skipping .jumpIfFalse do
      report (genStmt body)
      emit (.jump top)
  | .doWhile body cond span => do
    setPlace span
    let top ← here
    emit .checkRun
    report (genStmt body)
    setPlace cond.span
    genCond cond
    emit (.jumpIfTrue top)
  | .forDo init cond step body span => do
    setPlace span
    init.forM genDiscard
    let top ← here
    emit .checkRun
    let turn : Gen Unit := do
      report (genStmt body)
      genSteps step
      emit (.jump top)
    match cond with
    | some c =>
      genCond c
      skipping .jumpIfFalse turn
    | none => turn
  | .foreach key value array body span => do
    setPlace span
    genForeach key value array (genStmt body) span
  | .label name span => do
    setPlace span
    genLabel name
  | .jump label span => do
    setPlace span
    genJump label span
  | .ret value span => do
    setPlace span
    genReturn value span
  | .state name span => do
    setPlace span
    genState name span

/-- The code of statements one after another; an error costs only the statement that it is in. -/
def genStmts : List Stmt → Gen Unit
  | [] => pure ()
  | s :: ss => do
    report (genStmt s)
    genStmts ss

end

end EventScript.Compile
