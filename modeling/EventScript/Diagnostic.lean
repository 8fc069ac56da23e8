import EventScript.Event
import EventScript.Operator
import EventScript.Token

/-!
# Diagnostics

What can be wrong with a script: a cause, the span that it concerns, and the position once it is
known. The wording of every cause is in one place.
-/

namespace EventScript

/-- In bytes, as for strings. -/
def maxNameLength : Nat := 255

def maxStringLength : Nat := 4096

/-- What is wrong with the characters of a text. -/
inductive LexicalError where
  | unterminatedComment
  | unknownCharacter (c : Char)
  | nameTooLong
  | stringOffLine
  | unterminatedString
  | stringTooLong
  | exponentOverflow
  | missingExponent
  | integerOverflow
  deriving DecidableEq

def LexicalError.message : LexicalError → String
  | unterminatedComment => "unterminated comment"
  | unknownCharacter c => "unknown character '" ++ c.toString ++ "'"
  | nameTooLong => "name too long, max " ++ toString maxNameLength
  | stringOffLine => "string runs off end of line"
  | unterminatedString => "unterminated string"
  | stringTooLong => "string too long, max " ++ toString maxStringLength
  | exponentOverflow => "floating exponent overflow"
  | missingExponent => "bad or missing floating exponent"
  | integerOverflow => "integer overflow"

/-- What is wrong with the arrangement of tokens. No token stands for the end of the text. -/
inductive GrammarError where
  | duplicateDefault
  | duplicateState (name : String)
  | duplicateFunction (name : String)
  | noDefault
  | expectedDeclaration (found : Option Token)
  | expected (wanted : Token) (found : Option Token)
  | expectedName (found : Option Token)
  | expectedType (found : Option Token)
  | misplacedDeclaration
  | assignmentTarget
  | incrementTarget
  | componentCount (n : Nat)
  | unexpected (found : Option Token)
  deriving DecidableEq

def GrammarError.message : GrammarError → String
  | duplicateDefault => "default state already defined"
  | duplicateState name => "state " ++ name ++ " already defined"
  | duplicateFunction name => "function " ++ name ++ " already defined"
  | noDefault => "no default state defined"
  | expectedDeclaration found => "Expected declaration, got " ++ Token.describe? found
  | expected wanted found => "Expected " ++ wanted.describe ++ ", got " ++ Token.describe? found
  | expectedName found => "Expected name, got " ++ Token.describe? found
  | expectedType found => "Expected type name, got " ++ Token.describe? found
  | misplacedDeclaration => "declaration not allowed here"
  | assignmentTarget => "invalid assignment target"
  | incrementTarget => "invalid increment target"
  | componentCount n => "vector needs 3 and rotation 4 components, got " ++ toString n
  | unexpected found => "Unexpected token: " ++ Token.describe? found

/-- What is wrong with a script whose tokens are well arranged. -/
inductive SemanticError where
  | unknownEvent (name : String)
  | duplicateHandler (name state : String)
  | handlerParameters (event : Event)
  | tooManyFunctions
  | tooManyGlobals
  | duplicateGlobal (name : String)
  | duplicateVariable (name : String)
  | duplicateLabel (name : String)
  | tooManyConstants
  | functionTooLarge
  | tooManyLocals
  | noValue
  | cannotConvert (source target : Ty)
  | cannotCast (source target : Ty)
  | assignToConstant (name : String)
  | undefinedVariable (name : String)
  | returnNotAllowed
  | returnExpected (ty : Ty)
  | undefinedState (name : String)
  | notCondition (ty : Ty)
  | undefinedLabel (name : String)
  | lateralJump
  | foreachOf (ty : Ty)
  | nestedList
  | listElement (ty : Ty)
  | listTooLong
  | unaryOperator (op : UnaryOp) (ty : Ty)
  | noField (ty : Ty) (field : String)
  | notIndexable (ty : Ty)
  | noMethod (ty : Ty) (method : String)
  | argumentCount (name : String) (params args : Nat)
  | argumentType (position : Nat) (name : String) (source target : Ty)
  | binaryOperator (left : Ty) (symbol : String) (right : Ty)
  | arrayKey (ty : Ty)
  | notConstant
  | libraryTooLarge
  | undefinedFunction (name : String)
  | componentTarget
  | elementTarget
  | notArray (name : String)
  | arrayElement (ty : Ty)
  | assignmentTarget
  | incrementTarget
  deriving DecidableEq

def SemanticError.message : SemanticError → String
  | unknownEvent name => "unknown event handler " ++ name
  | duplicateHandler name state => "duplicate " ++ name ++ " handler in state " ++ state
  | handlerParameters event =>
    event.name ++ " handler parameters must be (" ++
      ", ".intercalate (event.signature.map Ty.name) ++ ")"
  | tooManyFunctions => "too many functions"
  | tooManyGlobals => "too many globals"
  | duplicateGlobal name => "global " ++ name ++ " already defined"
  | duplicateVariable name => "variable " ++ name ++ " already defined"
  | duplicateLabel name => "duplicate label " ++ name
  | tooManyConstants => "too many constants (max 65535)"
  | functionTooLarge => "function too large"
  | tooManyLocals => "too many local variables (max 65535)"
  | noValue => "expression has no value"
  | cannotConvert source target => "cannot convert " ++ source.name ++ " to " ++ target.name
  | cannotCast source target => "cannot cast " ++ source.name ++ " to " ++ target.name
  | assignToConstant name => "cannot assign to constant " ++ name
  | undefinedVariable name => "undefined variable " ++ name
  | returnNotAllowed => "return value not allowed here"
  | returnExpected ty => "return value of type " ++ ty.name ++ " expected"
  | undefinedState name => "undefined state " ++ name
  | notCondition ty => ty.name ++ " cannot be used as a condition"
  | undefinedLabel name => "undefined label " ++ name
  | lateralJump => "no lateral jumps allowed"
  | foreachOf ty => "foreach needs an array, got " ++ ty.name
  | nestedList => "lists cannot contain lists"
  | listElement ty => ty.name ++ " cannot be a list element"
  | listTooLong => "list literal too long"
  | unaryOperator op ty => "operator " ++ op.symbol ++ " not defined for " ++ ty.name
  | noField ty field => "type " ++ ty.name ++ " has no field " ++ field
  | notIndexable ty => "cannot index " ++ ty.name
  | noMethod ty method => "type " ++ ty.name ++ " has no method " ++ method
  | argumentCount name params args =>
    name ++ " has " ++ toString params ++ " param(s), but call has " ++ toString args
  | argumentType position name source target =>
    "argument " ++ toString position ++ " of " ++ name ++ ": cannot convert " ++ source.name ++
      " to " ++ target.name
  | binaryOperator left symbol right =>
    "operator not defined for these types: " ++ left.name ++ " " ++ symbol ++ " " ++ right.name
  | arrayKey ty => ty.name ++ " cannot be an array key"
  | notConstant => "global initializer must be constant"
  | libraryTooLarge => "API table too large"
  | undefinedFunction name => "undefined function " ++ name
  | componentTarget => "component assignment needs a variable"
  | elementTarget => "array element assignment needs an array variable"
  | notArray name => name ++ " is not an array"
  | arrayElement ty => ty.name ++ " cannot be stored in an array"
  | assignmentTarget => "invalid assignment target"
  | incrementTarget => "++ and -- only apply to integer or float variables"

/-- The stage of the compiler that found the error, and what it found. -/
inductive Cause where
  | lexical (e : LexicalError)
  | grammar (e : GrammarError)
  | semantic (e : SemanticError)
  deriving DecidableEq

namespace Cause

def message : Cause → String
  | lexical e => e.message
  | grammar e => e.message
  | semantic e => e.message

def stage : Cause → String
  | lexical _ => "lexer"
  | grammar _ => "parser"
  | semantic _ => "semantic"

end Cause

/-- The position is that of the start of the span, and is found only when the text is at hand. -/
structure Diagnostic where
  cause : Cause
  span : Span
  position : Option Position := none
  deriving DecidableEq

namespace Diagnostic

def message (d : Diagnostic) : String := d.cause.message

def locate (source : String) (d : Diagnostic) : Diagnostic :=
  { d with position := some (Source.position source d.span.start) }

/-- One line for a terminal, which names the stage. -/
def text (source : String) (d : Diagnostic) : String :=
  let p := d.position.getD (Source.position source d.span.start)
  "[" ++ d.cause.stage ++ "] line " ++ toString p.line ++ ":" ++ toString p.column ++ ": " ++
    d.message

/-- One line of a report of all errors. -/
def summary (d : Diagnostic) : String :=
  match d.position with
  | some p => toString p.line ++ ":" ++ toString p.column ++ ": " ++ d.message
  | none => d.message

def report (ds : List Diagnostic) : String :=
  toString ds.length ++ " compile error(s)" ++ String.join (ds.map fun d => "\n  " ++ d.summary)

end Diagnostic

end EventScript
