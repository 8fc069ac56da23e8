import EventScript.Double
import EventScript.Operator
import EventScript.Source

/-!
# Scripts

The tree of a script. Every node has the span of text that it was written with, and every block
has a number of its own.
-/

namespace EventScript

inductive Expr where
  | integer (n : Int32) (span : Span)
  | float (d : Double) (span : Span)
  | string (s : String) (span : Span)
  | name (id : String) (span : Span)
  | undefined (span : Span)
  | list (items : List Expr) (span : Span)
  | vector (x y z : Expr) (span : Span)
  | rotation (x y z s : Expr) (span : Span)
  | cast (ty : Ty) (operand : Expr) (span : Span)
  | call (name : String) (args : List Expr) (span : Span)
  | binary (op : BinOp) (left right : Expr) (span : Span)
  | unary (op : UnaryOp) (operand : Expr) (span : Span)
  /-- An assignment; an operator combines the old value with the new one. -/
  | assign (op : Option BinOp) (target value : Expr) (span : Span)
  /-- A step of one up or down; the value is the one `before` the step or the one after it. -/
  | bump (target : Expr) (up before : Bool) (span : Span)
  | field (object : Expr) (name : String) (span : Span)
  | index (array key : Expr) (span : Span)
  | method (object : Expr) (name : String) (args : List Expr) (span : Span)
  | isType (operand : Expr) (ty : Ty) (span : Span)
  deriving Inhabited

namespace Expr

def span : Expr → Span
  | integer _ s | float _ s | string _ s | name _ s | undefined s | list _ s | vector _ _ _ s
  | rotation _ _ _ _ s | cast _ _ s | call _ _ s | binary _ _ _ s | unary _ _ s | assign _ _ _ s
  | bump _ _ _ s | field _ _ s | index _ _ s | method _ _ _ s | isType _ _ s => s

def isTarget : Expr → Bool
  | name _ _ | index _ _ _ => true
  | field object _ _ => object.isTarget
  | _ => false

end Expr

structure VarDecl where
  name : String
  ty : Ty
  init : Option Expr
  hoisted : Bool
  span : Span
  deriving Inhabited

inductive Stmt where
  | decl (d : VarDecl)
  | expr (e : Expr)
  | block (id : Nat) (stmts : List Stmt) (span : Span)
  | ifThen (cond : Expr) (body : Stmt) (span : Span)
  | ifElse (cond : Expr) (body other : Stmt) (span : Span)
  | whileDo (cond : Expr) (body : Stmt) (span : Span)
  | doWhile (body : Stmt) (cond : Expr) (span : Span)
  | forDo (init : List Expr) (cond : Option Expr) (step : List Expr) (body : Stmt) (span : Span)
  | foreach (key value : Option (String × Span)) (array : Expr) (body : Stmt) (span : Span)
  | jump (label : String) (span : Span)
  | label (name : String) (span : Span)
  | ret (value : Option Expr) (span : Span)
  | state (name : String) (span : Span)
  | null (span : Span)
  deriving Inhabited

namespace Stmt

def span : Stmt → Span
  | decl d => d.span
  | expr e => e.span
  | block _ _ s | ifThen _ _ s | ifElse _ _ _ s | whileDo _ _ s | doWhile _ _ s | forDo _ _ _ _ s
  | foreach _ _ _ _ s | jump _ s | label _ s | ret _ s | state _ s | null s => s

/-- Declarations that follow the statement are hoisted. -/
def endsDeclarations : Stmt → Bool
  | decl _ | null _ => false
  | _ => true

end Stmt

structure Block where
  id : Nat
  stmts : List Stmt
  span : Span
  deriving Inhabited

structure Param where
  name : String
  ty : Ty
  span : Span
  deriving Inhabited

structure FuncDecl where
  name : String
  ret : Ty
  params : List Param
  body : Block
  span : Span
  deriving Inhabited

structure StateDecl where
  name : String
  handlers : List FuncDecl
  span : Span
  deriving Inhabited

structure Script where
  globals : List VarDecl
  functions : List FuncDecl
  /-- The default state comes first. -/
  states : List StateDecl
  arrays : Bool
  deriving Inhabited

end EventScript
