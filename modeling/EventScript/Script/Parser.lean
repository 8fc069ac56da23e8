import EventScript.Script
import EventScript.Script.NameSet
import EventScript.Token.Lexer

/-!
# From tokens to scripts

`Script.ofTokens` reads a script by recursive descent, with binding strengths for the binary
operators. An error inside a block is recorded and reading goes on after the next semicolon; an
error that leaves a declaration is recorded and the whole declaration is skipped. A script is
returned only if nothing was recorded.

The functions that call each other take an argument that goes down with every call, and there is no
result when it is used up. A call that does not read a token before the next one is at most seven
deep, so `callsPerToken` for every token and for the end of the text is more than enough.
-/

namespace EventScript

namespace Parser

/-- What is left to read, and what has been recorded. -/
structure State where
  rest : List Lexeme
  finish : Span
  arrays : Bool
  nextBlock : Nat
  errors : List Diagnostic

/-- Why reading does not go on. -/
inductive Failure where
  | wrong (d : Diagnostic)
  /-- No more calls are allowed. -/
  | exhausted

end Parser

/-- Reading of tokens. A failure keeps what has been recorded. -/
abbrev Parser := EStateM Parser.Failure Parser.State

namespace Parser

/-! ## Tokens -/

def peek : Parser (Option Token) := fun s => .ok (s.rest.head?.map Lexeme.token) s

def peekAt (n : Nat) : Parser (Option Token) := fun s => .ok (s.rest[n]?.map Lexeme.token) s

def here : Parser Span := fun s =>
  .ok (match s.rest with
    | [] => s.finish
    | t :: _ => t.span) s

def advance : Parser Unit := fun s => .ok () { s with rest := s.rest.tail }

def failAt (e : GrammarError) (span : Span) : Parser α :=
  throw (.wrong { cause := .grammar e, span })

def exhausted : Parser α := throw .exhausted

def failHere (e : Option Token → GrammarError) : Parser α := do
  failAt (e (← peek)) (← here)

def eat (t : Token) : Parser Bool := do
  if (← peek) = some t then
    advance
    return true
  else
    return false

def expect (t : Token) : Parser Span := do
  if (← peek) = some t then
    let span ← here
    advance
    return span
  else
    failHere (.expected t)

def expectMark (m : Mark) : Parser Span := expect (.mark m)

def expectName : Parser (String × Span) := do
  match ← peek with
  | some (.name s) =>
    let span ← here
    advance
    return (s, span)
  | _ => failHere .expectedName

def expectType : Parser (Ty × Span) := do
  match ← peek with
  | some (.typeName t) =>
    let span ← here
    advance
    return (t, span)
  | _ => failHere .expectedType

def record (d : Diagnostic) : Parser Unit := fun s => .ok () { s with errors := d :: s.errors }

/-- Runs a reader and gives its error as a value. -/
def attempt (p : Parser α) : Parser (Except Diagnostic α) := fun s =>
  match p s with
  | .ok a s => .ok (.ok a) s
  | .error (.wrong d) s => .ok (.error d) s
  | .error .exhausted s => .error .exhausted s

def newBlock : Parser Nat := fun s => .ok s.nextBlock { s with nextBlock := s.nextBlock + 1 }

/-! ## Operators -/

def binaryOp? : Mark → Option BinOp
  | .plus => some .add
  | .minus => some .sub
  | .star => some .mul
  | .slash => some .div
  | .percent => some .mod
  | .eqEq => some .eq
  | .ne => some .ne
  | .lt => some .lt
  | .le => some .le
  | .gt => some .gt
  | .ge => some .ge
  | .andAnd => some .and
  | .orOr => some .or
  | .amp => some .bitAnd
  | .pipe => some .bitOr
  | .caret => some .bitXor
  | .shl => some .shl
  | .shr => some .shr
  | _ => none

/-- The assignment that a mark stands for, with the operator that it combines with. -/
def assignOp? : Mark → Option (Option BinOp)
  | .assign => some none
  | .plusAssign => some (some .add)
  | .minusAssign => some (some .sub)
  | .starAssign => some (some .mul)
  | .slashAssign => some (some .div)
  | .percentAssign => some (some .mod)
  | .andAssign => some (some .bitAnd)
  | .orAssign => some (some .bitOr)
  | .xorAssign => some (some .bitXor)
  | .shlAssign => some (some .shl)
  | .shrAssign => some (some .shr)
  | _ => none

def unaryOp? : Mark → Option UnaryOp
  | .minus => some .neg
  | .bang => some .not
  | .tilde => some .bitNot
  | _ => none

/-- Components bind tighter than the comparisons, so that `>` ends the last one. -/
def componentStrength : Nat := 260

/-- `is` binds like the comparisons. -/
def isStrength : Nat := 240

def peekMark : Parser (Option Mark) := do
  match ← peek with
  | some (.mark m) => return some m
  | _ => return none

def atCast : Parser Bool := do
  let inner ← peekAt 1
  return (← peek) = some (.mark .leftParen) ∧ (inner.bind Token.asType?).isSome
    ∧ (← peekAt 2) = some (.mark .rightParen)

/-! ## Expressions -/

def ofComponents (parts : List Expr) (span : Span) : Parser Expr :=
  match parts with
  | [x, y, z] => return .vector x y z span
  | [x, y, z, s] => return .rotation x y z s span
  | _ => failAt (.componentCount parts.length) span

mutual

def expr : Nat → Parser Expr
  | 0 => exhausted
  | n + 1 => do
    let target ← binary n (assignStrength + 1)
    match (← peekMark).bind assignOp? with
    | none => return target
    | some op =>
      if target.isTarget then
        advance
        let value ← expr n
        return .assign op target value (target.span.merge value.span)
      else
        failAt .assignmentTarget target.span

/-- Operators that bind at least as strongly as `least`, and their operands. -/
def binary : Nat → (least : Nat) → Parser Expr
  | 0, _ => exhausted
  | n + 1, least => do
    let left ← unary n
    binaryRest n least left

def binaryRest : Nat → (least : Nat) → (left : Expr) → Parser Expr
  | 0, _, _ => exhausted
  | n + 1, least, left => do
    match ← peek with
    | some (.keyword .isType) =>
      if isStrength < least then
        return left
      else
        advance
        let (ty, span) ← expectType
        binaryRest n least (.isType left ty (left.span.merge span))
    | some (.mark m) =>
      match binaryOp? m with
      | none => return left
      | some op =>
        if op.strength < least then
          return left
        else
          advance
          let right ← binary n (op.strength + 1)
          binaryRest n least (.binary op left right (left.span.merge right.span))
    | _ => return left

def unary : Nat → Parser Expr
  | 0 => exhausted
  | n + 1 => do
    let start ← here
    let mark ← peekMark
    match mark.bind unaryOp? with
    | some op =>
      advance
      let operand ← unary n
      return .unary op operand (start.merge operand.span)
    | none =>
      if mark = some .plusPlus ∨ mark = some .minusMinus then
        advance
        let target ← unary n
        if target.isTarget then
          return .bump target (mark = some .plusPlus) false (start.merge target.span)
        else
          failAt .incrementTarget target.span
      else if ← atCast then
        advance
        let (ty, _) ← expectType
        let _ ← expectMark .rightParen
        let operand ← unary n
        return .cast ty operand (start.merge operand.span)
      else
        let object ← primary n
        access n object

/-- What follows an operand: components, methods, elements and steps. -/
def access : Nat → (object : Expr) → Parser Expr
  | 0, _ => exhausted
  | n + 1, object => do
    let arrays := (← get).arrays
    match ← peekMark with
    | some .dot =>
      advance
      let (name, span) ← expectName
      if arrays && (← peekMark) == some .leftParen then
        advance
        let args ← exprList n .rightParen
        let stop ← expectMark .rightParen
        access n (.method object name args (object.span.merge stop))
      else
        access n (.field object name (object.span.merge span))
    | some .leftBracket =>
      if arrays then
        advance
        let key ← expr n
        let stop ← expectMark .rightBracket
        access n (.index object key (object.span.merge stop))
      else
        return object
    | some .plusPlus => bumpAfter n object true
    | some .minusMinus => bumpAfter n object false
    | _ => return object

def bumpAfter : Nat → (object : Expr) → (up : Bool) → Parser Expr
  | 0, _, _ => exhausted
  | n + 1, object, up => do
    if object.isTarget then
      let stop ← here
      advance
      access n (.bump object up true (object.span.merge stop))
    else
      return object

/-- A literal, a name, a call or an expression between brackets. -/
def primary : Nat → Parser Expr
  | 0 => exhausted
  | n + 1 => do
    let start ← here
    match ← peek with
    | some (.integer v) =>
      advance
      return .integer v start
    | some (.float v) =>
      advance
      return .float v start
    | some (.string s) =>
      advance
      return .string s start
    | some (.keyword .undefined) =>
      advance
      return .undefined start
    | some (.name id) =>
      advance
      if ← eat (.mark .leftParen) then
        let args ← exprList n .rightParen
        let stop ← expectMark .rightParen
        return .call id args (start.merge stop)
      else
        return .name id start
    | some (.mark .leftParen) =>
      advance
      let e ← expr n
      let _ ← expectMark .rightParen
      return e
    | some (.mark .leftBracket) =>
      advance
      let items ← exprList n .rightBracket
      let stop ← expectMark .rightBracket
      return .list items (start.merge stop)
    | some (.mark .lt) =>
      advance
      let parts ← components n
      let stop ← expectMark .gt
      ofComponents parts (start.merge stop)
    | _ => failHere .unexpected

def exprList : Nat → (stop : Mark) → Parser (List Expr)
  | 0, _ => exhausted
  | n + 1, stop => do
    if (← peek) = some (.mark stop) then
      return []
    else
      exprs n

def exprs : Nat → Parser (List Expr)
  | 0 => exhausted
  | n + 1 => do
    let e ← expr n
    if ← eat (.mark .comma) then
      return e :: (← exprs n)
    else
      return [e]

def components : Nat → Parser (List Expr)
  | 0 => exhausted
  | n + 1 => do
    let e ← binary n componentStrength
    if ← eat (.mark .comma) then
      return e :: (← components n)
    else
      return [e]

end

/-! ## Statements -/

def condition (n : Nat) : Parser Expr := do
  let _ ← expectMark .leftParen
  let e ← expr n
  let _ ← expectMark .rightParen
  return e

def initial (n : Nat) : Parser (Option Expr) := do
  if ← eat (.mark .assign) then
    return some (← expr n)
  else
    return none

def localDecl (n : Nat) (hoisted : Bool) : Parser VarDecl := do
  let start ← here
  let (ty, _) ← expectType
  let (name, _) ← expectName
  let init ← initial n
  let stop ← expectMark .semicolon
  return ⟨name, ty, init, hoisted, start.merge stop⟩

def exprUnless (n : Nat) (m : Mark) : Parser (Option Expr) := do
  if (← peek) = some (.mark m) then
    return none
  else
    return some (← expr n)

def optionalName : Parser (Option (String × Span)) := do
  match ← peek with
  | some (.name _) => return some (← expectName)
  | _ => return none

def stateName : Parser String := do
  if ← eat (.keyword .default) then
    return "default"
  else
    return (← expectName).1

def toStatementEnd : List Lexeme → List Lexeme
  | [] => []
  | t :: ts =>
    if t.token = .mark .semicolon then ts
    else if t.token = .mark .rightBrace then t :: ts
    else toStatementEnd ts

def recover (d : Diagnostic) : Parser Unit := do
  record d
  modify fun s => { s with rest := toStatementEnd s.rest }

mutual

def stmt : Nat → Parser Stmt
  | 0 => exhausted
  | n + 1 => do
    let start ← here
    match ← peek with
    | some (.mark .leftBrace) =>
      let b ← block n
      return .block b.id b.stmts b.span
    | some (.mark .semicolon) =>
      advance
      return .null start
    | some (.keyword .ifBranch) =>
      advance
      let cond ← condition n
      let body ← stmt n
      if ← eat (.keyword .elseBranch) then
        let other ← stmt n
        return .ifElse cond body other (start.merge other.span)
      else
        return .ifThen cond body (start.merge body.span)
    | some (.keyword .whileLoop) =>
      advance
      let cond ← condition n
      let body ← stmt n
      return .whileDo cond body (start.merge body.span)
    | some (.keyword .doLoop) =>
      advance
      let body ← stmt n
      let _ ← expect (.keyword .whileLoop)
      let cond ← condition n
      let stop ← expectMark .semicolon
      return .doWhile body cond (start.merge stop)
    | some (.keyword .forLoop) =>
      advance
      let _ ← expectMark .leftParen
      let init ← exprList n .semicolon
      let _ ← expectMark .semicolon
      let cond ← exprUnless n .semicolon
      let _ ← expectMark .semicolon
      let step ← exprList n .rightParen
      let _ ← expectMark .rightParen
      let body ← stmt n
      return .forDo init cond step body (start.merge body.span)
    | some (.keyword .foreachLoop) =>
      advance
      let _ ← expectMark .leftParen
      let key ← optionalName
      let _ ← expectMark .comma
      let value ← optionalName
      let _ ← expect (.keyword .within)
      let array ← expr n
      let _ ← expectMark .rightParen
      let body ← stmt n
      return .foreach key value array body (start.merge body.span)
    | some (.keyword .jump) =>
      advance
      let (label, _) ← expectName
      let stop ← expectMark .semicolon
      return .jump label (start.merge stop)
    | some (.mark .atSign) =>
      advance
      let (name, _) ← expectName
      let stop ← expectMark .semicolon
      return .label name (start.merge stop)
    | some (.keyword .ret) =>
      advance
      let value ← exprUnless n .semicolon
      let stop ← expectMark .semicolon
      return .ret value (start.merge stop)
    | some (.keyword .state) =>
      advance
      let name ← stateName
      let stop ← expectMark .semicolon
      return .state name (start.merge stop)
    | some (.typeName _) => failAt .misplacedDeclaration start
    | _ =>
      let e ← expr n
      let _ ← expectMark .semicolon
      return .expr e

def block : Nat → Parser Block
  | 0 => exhausted
  | n + 1 => do
    let start ← expectMark .leftBrace
    let id ← newBlock
    let stmts ← blockItems n false
    let stop ← expectMark .rightBrace
    return ⟨id, stmts, start.merge stop⟩

/-- The declarations and statements of a block, after another statement when `hoisted`. -/
def blockItems : Nat → (hoisted : Bool) → Parser (List Stmt)
  | 0, _ => exhausted
  | n + 1, hoisted => do
    match ← peek with
    | none => return []
    | some (.mark .rightBrace) => return []
    | some t =>
      match ← attempt (blockItem n hoisted t) with
      | .ok s => return s :: (← blockItems n (hoisted || s.endsDeclarations))
      | .error d =>
        recover d
        blockItems n hoisted

def blockItem : Nat → (hoisted : Bool) → Token → Parser Stmt
  | 0, _, _ => exhausted
  | n + 1, hoisted, t =>
    if t.asType?.isSome then return .decl (← localDecl n hoisted) else stmt n

end

/-! ## Declarations -/

def param : Parser Param := do
  let start ← here
  let (ty, _) ← expectType
  let (name, stop) ← expectName
  return ⟨name, ty, start.merge stop⟩

def paramsFrom : Nat → Parser (List Param)
  | 0 => exhausted
  | n + 1 => do
    let p ← param
    if ← eat (.mark .comma) then
      return p :: (← paramsFrom n)
    else
      return [p]

def params (n : Nat) : Parser (List Param) := do
  let _ ← expectMark .leftParen
  let ps ← if (← peek) = some (.mark .rightParen) then pure [] else paramsFrom n
  let _ ← expectMark .rightParen
  return ps

def function (n : Nat) (ret : Ty) : Parser FuncDecl := do
  let (name, start) ← expectName
  let ps ← params n
  let body ← block n
  return ⟨name, ret, ps, body, start.merge body.span⟩

def handlers : Nat → Parser (List FuncDecl)
  | 0 => exhausted
  | n + 1 => do
    match ← peek with
    | none => return []
    | some (.mark .rightBrace) => return []
    | some _ =>
      let f ← function n .void
      return f :: (← handlers n)

def stateDecl (n : Nat) : Parser StateDecl := do
  let start ← here
  let name ← if ← eat (.keyword .default) then pure "default" else do
    let _ ← expect (.keyword .state)
    stateName
  let _ ← expectMark .leftBrace
  let hs ← handlers n
  let stop ← expectMark .rightBrace
  return ⟨name, hs, start.merge stop⟩

inductive Item where
  | global (d : VarDecl)
  | function (f : FuncDecl)
  | defaultState (s : StateDecl)
  | state (s : StateDecl)

def atFunction : Parser Bool := do
  match ← peek with
  | some (.name _) => return (← peekAt 1) = some (.mark .leftParen)
  | _ => return false

def typedItem (n : Nat) : Parser Item := do
  let start ← here
  let (ty, _) ← expectType
  if ← atFunction then
    return .function (← function n ty)
  else
    let (name, _) ← expectName
    let init ← initial n
    let stop ← expectMark .semicolon
    return .global ⟨name, ty, init, false, start.merge stop⟩

def item (n : Nat) : Parser Item := do
  match ← peek with
  | some (.keyword .default) => return .defaultState (← stateDecl n)
  | some (.keyword .state) => return .state (← stateDecl n)
  | some (.typeName _) => typedItem n
  | _ =>
    if ← atFunction then
      return .function (← function n .void)
    else
      failHere .expectedDeclaration

/-- Skips a declaration: up to a semicolon, or over its first balanced braces. -/
def skipItem : (depth : Nat) → List Lexeme → List Lexeme
  | _, [] => []
  | depth, t :: ts =>
    if t.token = .mark .semicolon ∧ depth = 0 then ts
    else if t.token = .mark .leftBrace then skipItem (depth + 1) ts
    else if t.token = .mark .rightBrace then
      if depth ≤ 1 then ts else skipItem (depth - 1) ts
    else skipItem depth ts

/-- The declarations read so far, the last first, and their names. -/
structure Found where
  globals : List VarDecl := []
  functions : List FuncDecl := []
  functionNames : NameSet := .empty
  defaultState : Option StateDecl := none
  states : List StateDecl := []
  stateNames : NameSet := .empty

/-- Takes a declaration, unless there is one of its name. -/
def Found.add (found : Found) : Item → Except (GrammarError × Span) Found
  | .global d => .ok { found with globals := d :: found.globals }
  | .function f =>
    if found.functionNames.contains f.name then .error (.duplicateFunction f.name, f.span)
    else .ok { found with
      functions := f :: found.functions, functionNames := found.functionNames.insert f.name }
  | .defaultState s =>
    if found.defaultState.isSome then .error (.duplicateDefault, s.span)
    else .ok { found with defaultState := some s }
  | .state s =>
    if s.name == "default" || found.stateNames.contains s.name then
      .error (.duplicateState s.name, s.span)
    else .ok { found with
      states := s :: found.states, stateNames := found.stateNames.insert s.name }

def itemInto (n : Nat) (found : Found) : Parser Found := do
  let start := (← get).rest
  match ← attempt (item n) with
  | .ok i =>
    match found.add i with
    | .ok found => return found
    | .error (e, span) =>
      record { cause := .grammar e, span }
      return found
  | .error d =>
    record d
    modify fun s => { s with rest := skipItem 0 start }
    return found

def items (calls : Nat) : Nat → Found → Parser Found
  | 0, _ => exhausted
  | n + 1, found => do
    match ← peek with
    | none => return found
    | some _ => items calls n (← itemInto calls found)

def callsPerToken : Nat := 16

/-- A whole script. Every declaration has a token, so there are at most as many declarations as
tokens. -/
def script (t : TokenStream) : Parser (Option Script) := do
  let tokens := t.lexemes.length
  let found ← items (callsPerToken * (tokens + 1)) (tokens + 1) {}
  match found.defaultState with
  | some d =>
    return some ⟨found.globals.reverse, found.functions.reverse, d :: found.states.reverse, t.arrays⟩
  | none =>
    record { cause := .grammar .noDefault, span := ← here }
    return none

end Parser

/-- The script that the tokens spell, or everything that is wrong with their arrangement. There is
no result if the calls do not suffice. -/
def Script.ofTokens? (t : TokenStream) : Option (Except (List Diagnostic) Script) :=
  match Parser.script t ⟨t.lexemes, t.endSpan, t.arrays, 0, []⟩ with
  | .ok (some script) s =>
    match s.errors with
    | [] => some (.ok script)
    | errors => some (.error errors.reverse)
  | .ok none s => some (.error s.errors.reverse)
  | .error (.wrong d) s => some (.error (d :: s.errors).reverse)
  | .error .exhausted _ => none

def Script.ofTokens (t : TokenStream) : Except (List Diagnostic) Script :=
  (ofTokens? t).getD (.error [])

end EventScript
