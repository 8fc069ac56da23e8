import EventScript.Compile.Gen
import EventScript.Script

/-!
# Code of expressions

`genExpr` gives the type of an expression. Its code leaves one value on the operand stack, or none
if the type is `void`. The right operand of a binary operator is evaluated before the left one.
-/

namespace EventScript.Compile

open Gen

def componentOf (ty : Ty) (field : String) (span : Span) : Gen Component :=
  match ty, Component.ofName? field with
  | .vector, some .s => fail (.noField ty field) span
  | .vector, some c => pure c
  | .rotation, some c => pure c
  | _, _ => fail (.noField ty field) span

/-- Combines the two values on top, of which the left one is the upper. -/
def genBinary (left : Ty) (op : BinOp) (right : Ty) (compound : Bool) (span : Span) : Gen Ty :=
  match (op.lookup? left right).filter fun e => !compound || (e.assignable && e.result == left) with
  | none =>
    fail (.binaryOperator left (if compound then op.symbol ++ "=" else op.symbol) right) span
  | some e => do
    if right ≠ e.right then emit (.castSecond e.right)
    if left ≠ e.left then emit (.cast e.left)
    emit (.binary e.eval)
    pure e.result

def genUnary (op : UnaryOp) (ty : Ty) (span : Span) : Gen Ty :=
  match op, ty with
  | .neg, .integer | .neg, .float | .neg, .vector | .neg, .rotation => do
    emit .neg
    pure ty
  | .bitNot, .integer | .bitNot, .bool => do
    coerce ty .integer false span
    emit .bitNot
    pure .integer
  | .not, ty =>
    if ty.isTruth then do
      emit .not
      pure .bool
    else fail (.unaryOperator op ty) span
  | _, _ => fail (.unaryOperator op ty) span

def genField (ty : Ty) (field : String) (span : Span) : Gen Ty := do
  if ty = .array ∧ field = "count" then
    emit .arrayCount
    pure .integer
  else
    emit (.getField (← componentOf ty field span))
    pure .float

def genArrayKey (ty : Ty) (span : Span) : Gen Unit :=
  match ty with
  | .integer | .float | .string | .key | .vector | .rotation | .object => pure ()
  | .bool => emit (.cast .integer)
  | _ => fail (.arrayKey ty) span

def genListItem (ty : Ty) (span : Span) : Gen Unit :=
  match ty with
  | .list => fail .nestedList span
  | .void | .array => fail (.listElement ty) span
  | .bool => emit (.cast .integer)
  | _ => pure ()

def genElement (ty : Ty) (span : Span) : Gen Ty :=
  match ty with
  | .void | .array => fail (.arrayElement ty) span
  | .bool => do
    emit (.cast .integer)
    pure .integer
  | _ => pure ty

def methodOf (ty : Ty) (method : String) (span : Span) : Gen Op :=
  if ty = .array ∧ method = "index" then pure .arrayKey
  else if ty = .array ∧ method = "value" then pure .arrayValue
  else fail (.noMethod ty method) span

def genName (name : String) (span : Span) : Gen Ty := do
  match ← meaning? name with
  | some (.var var ty) =>
    load var
    pure ty
  | some (.constant v) =>
    emitConstant v span
    pure v.ty
  | none => fail (.undefinedVariable name) span

/-- A call of a script function whose arguments are on the stack. A state change that it asks for
ends the caller as well. -/
def genCall (sig : Signature) (span : Span) : Gen Ty := do
  setPlace span
  emit (.call sig.index)
  skipping .jumpIfNoStateChange returnDefault
  pure sig.ret

def genApiCall (index : Nat) (f : ApiFunction) (span : Span) : Gen Ty := do
  match Word.index? index with
  | none => fail .libraryTooLarge span
  | some i =>
    setPlace span
    emit (.callApi i)
    emit .checkRun
    pure f.ret

def genStore (var : VarRef) (ty : Ty) : Gen Ty := do
  emit .dup
  store var ty
  pure ty

/-- Assigns the float on top to a component of a variable, and leaves it. -/
def genComponentStore (var : VarRef) (ty : Ty) (c : Component) (span : Span) : Gen Ty := do
  let temporary ← newSlot span
  emit (.storeLocal temporary)
  load var
  emit (.loadLocal temporary)
  emit (.setField c)
  store var ty
  emit (.loadLocal temporary)
  pure .float

/-- The constant one and the operator of a step, for the types that have steps. -/
def stepOf? : Ty → (up : Bool) → Option (Constant × BinEval)
  | .integer, true => some (.integer 1, .intAdd)
  | .integer, false => some (.integer 1, .intSub)
  | .float, true => some (.float .one, .floatAdd)
  | .float, false => some (.float .one, .floatSub)
  | _, _ => none

def genBump (target : Expr) (up before : Bool) (span : Span) : Gen Ty :=
  match target with
  | .name name nameSpan => do
    let (var, ty) ← varOf name nameSpan
    match stepOf? ty up with
    | none => fail .incrementTarget span
    | some (one, eval) =>
      if before then load var
      emitConstant one span
      load var
      emit (.binary eval)
      if !before then emit .dup
      store var ty
      pure ty
  | _ => fail .incrementTarget span

mutual

def genExpr : Expr → Gen Ty
  | .integer n span => do
    emitConstant (.integer n) span
    pure .integer
  | .float d span => do
    emitConstant (.float d) span
    pure .float
  | .string s span => do
    emitConstant (.string s) span
    pure .string
  | .undefined _ => do
    emit .pushUndefined
    pure .object
  | .name name span => genName name span
  | .list items span => do
    genItems items
    match Word.index? items.length with
    | none => fail .listTooLong span
    | some n =>
      emit (.makeList n)
      pure .list
  | .vector x y z _ => do
    coerce (← genExpr x) .float false x.span
    coerce (← genExpr y) .float false y.span
    coerce (← genExpr z) .float false z.span
    emit .makeVector
    pure .vector
  | .rotation x y z s _ => do
    coerce (← genExpr x) .float false x.span
    coerce (← genExpr y) .float false y.span
    coerce (← genExpr z) .float false z.span
    coerce (← genExpr s) .float false s.span
    emit .makeRotation
    pure .rotation
  | .cast ty operand span => do
    coerce (← genExpr operand) ty true span
    pure ty
  | .call name args span => do
    let c ← context
    if c.globalLimit.isSome then fail .notConstant span
    else
      match c.names.functions.lookup name with
      | some sig =>
        if sig.params.length ≠ args.length then
          fail (.argumentCount name sig.params.length args.length) span
        else
          genArgs name 1 sig.params args
          genCall sig span
      | none =>
        match ApiFunction.find? name with
        | some (index, f) =>
          if f.signature.length ≠ args.length then
            fail (.argumentCount name f.signature.length args.length) span
          else
            genArgs name 1 f.signature args
            genApiCall index f span
        | none => fail (.undefinedFunction name) span
  | .binary op left right span => do
    let r ← genExpr right
    let l ← genExpr left
    setPlace span
    genBinary l op r false span
  | .unary op operand span => do
    genUnary op (← genExpr operand) span
  | .assign op target value span => genAssign op target (genExpr value) value.span span
  | .bump target up before span => genBump target up before span
  | .field object field span => do
    genField (← genExpr object) field span
  | .index array key _ => do
    let ty ← genExpr array
    if ty ≠ .array then fail (.notIndexable ty) array.span
    else
      genArrayKey (← genExpr key) key.span
      emit .arrayGet
      pure .object
  | .method object method args span => do
    let op ← methodOf (← genExpr object) method span
    match args with
    | [arg] =>
      coerce (← genExpr arg) .integer false arg.span
      emit op
      pure .object
    | _ => fail (.argumentCount method 1 args.length) span
  | .isType operand ty _ => do
    let _ ← genExpr operand
    emit (.isType ty)
    pure .bool

def genItems : List Expr → Gen Unit
  | [] => pure ()
  | e :: es => do
    genListItem (← genExpr e) e.span
    genItems es

def genArgs (name : String) (number : Nat) : List Ty → List Expr → Gen Unit
  | param :: params, e :: es => do
    let ty ← genExpr e
    if ty = param ∨ ty.canCast param false then
      coerce ty param false e.span
      genArgs name (number + 1) params es
    else
      fail (.argumentType number name ty param) e.span
  | _, _ => pure ()

def genAssign (op : Option BinOp) (target : Expr) (value : Gen Ty) (valueSpan span : Span) :
    Gen Ty :=
  match target with
  | .name name nameSpan => do
    let (var, ty) ← varOf name nameSpan
    match op with
    | none => coerce (← value) ty false valueSpan
    | some op =>
      let r ← value
      load var
      let _ ← genBinary ty op r true span
    genStore var ty
  | .field (.name name nameSpan) field targetSpan => do
    let (var, ty) ← varOf name nameSpan
    let c ← componentOf ty field targetSpan
    match op with
    | none => coerce (← value) .float false valueSpan
    | some op =>
      let r ← value
      load var
      emit (.getField c)
      let _ ← genBinary .float op r true span
    genComponentStore var ty c span
  | .field object _ _ => fail .componentTarget object.span
  | .index (.name name nameSpan) key _ => do
    let (var, ty) ← varOf name nameSpan
    if ty ≠ .array then fail (.notArray name) nameSpan
    else
      match op with
      | some op =>
        let r ← value
        fail (.binaryOperator .object (op.symbol ++ "=") r) span
      | none =>
        genArrayKey (← genExpr key) key.span
        let ty ← genElement (← value) valueSpan
        emit (.arraySet var)
        pure ty
  | .index array _ _ => fail .elementTarget array.span
  | target => fail .assignmentTarget target.span

end

end EventScript.Compile
