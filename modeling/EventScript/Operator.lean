import EventScript.Ty

/-!
# Operators

The binary and unary operators, how tightly they bind, and the operator table: for an operator
and the types of its operands, the types that the operands are converted to, the evaluation that
runs and the type of its result.
-/

namespace EventScript

/-- The operators that a script can write between two operands, without those that assign. -/
inductive BinOp where
  | add
  | sub
  | mul
  | div
  | mod
  | eq
  | ne
  | lt
  | le
  | gt
  | ge
  | and
  | or
  | bitAnd
  | bitOr
  | bitXor
  | shl
  | shr
  deriving DecidableEq, Inhabited

namespace BinOp

def all : List BinOp :=
  [add, sub, mul, div, mod, eq, ne, lt, le, gt, ge, and, or, bitAnd, bitOr, bitXor, shl, shr]

def symbol : BinOp → String
  | add => "+"
  | sub => "-"
  | mul => "*"
  | div => "/"
  | mod => "%"
  | eq => "=="
  | ne => "!="
  | lt => "<"
  | le => "<="
  | gt => ">"
  | ge => ">="
  | and => "&&"
  | or => "||"
  | bitAnd => "&"
  | bitOr => "|"
  | bitXor => "^"
  | shl => "<<"
  | shr => ">>"

def ofSymbol? (s : String) : Option BinOp := all.find? (·.symbol == s)

/-- Binding strength; the higher binds the tighter. -/
def strength : BinOp → Nat
  | or => 100
  | and => 120
  | bitOr => 140
  | bitXor => 160
  | bitAnd => 180
  | eq | ne => 200
  | lt | le | gt | ge => 240
  | shl | shr => 260
  | add | sub => 280
  | mul | div | mod => 320

end BinOp

/-- A comma and an assignment bind less tightly than any operator. -/
def commaStrength : Nat := 30

def assignStrength : Nat := 50

/-- An assignment that ends in `=` after another symbol applies that operator first. -/
def assignSymbols : List String :=
  ["=", "+=", "-=", "*=", "/=", "%=", "&=", "|=", "^=", "<<=", ">>="]

/-- The strength of anything that can stand between two operands. -/
def strengthOf? (symbol : String) : Option Nat :=
  if symbol = "," then some commaStrength
  else if symbol ∈ assignSymbols then some assignStrength
  else (BinOp.ofSymbol? symbol).map BinOp.strength

inductive UnaryOp where
  | neg
  | not
  | bitNot
  deriving DecidableEq, Inhabited

def UnaryOp.symbol : UnaryOp → String
  | neg => "-"
  | not => "!"
  | bitNot => "~"

/-- The evaluation chosen for an operator and its operand types. -/
inductive BinEval where
  | logicalAnd
  | logicalOr
  | boolAnd
  | boolOr
  | boolXor
  | boolEq
  | boolNe
  | intAdd
  | intSub
  | intMul
  | intDiv
  | intMod
  | intAnd
  | intOr
  | intXor
  | intShl
  | intShr
  | intEq
  | intNe
  | intLt
  | intLe
  | intGt
  | intGe
  | floatAdd
  | floatSub
  | floatMul
  | floatDiv
  | floatMod
  | floatEq
  | floatNe
  | floatLt
  | floatLe
  | floatGt
  | floatGe
  | strConcat
  | strEq
  | strNe
  | strLt
  | strLe
  | strGt
  | strGe
  | listAppend
  | listPrepend
  | listEq
  | listNe
  | vecAdd
  | vecSub
  | vecEq
  | vecNe
  | vecDot
  | vecCross
  | vecScale
  | scaleVec
  | vecDivScalar
  | vecRotate
  | vecUnrotate
  | rotAdd
  | rotSub
  | rotMul
  | rotDiv
  | rotEq
  | rotNe
  deriving DecidableEq, Inhabited

namespace BinEval

def all : List BinEval :=
  [logicalAnd, logicalOr, boolAnd, boolOr, boolXor, boolEq, boolNe, intAdd, intSub, intMul,
   intDiv, intMod, intAnd, intOr, intXor, intShl, intShr, intEq, intNe, intLt, intLe, intGt,
   intGe, floatAdd, floatSub, floatMul, floatDiv, floatMod, floatEq, floatNe, floatLt, floatLe,
   floatGt, floatGe, strConcat, strEq, strNe, strLt, strLe, strGt, strGe, listAppend,
   listPrepend, listEq, listNe, vecAdd, vecSub, vecEq, vecNe, vecDot, vecCross, vecScale,
   scaleVec, vecDivScalar, vecRotate, vecUnrotate, rotAdd, rotSub, rotMul, rotDiv, rotEq, rotNe]

/-- The name in stored modules. -/
def name : BinEval → String
  | logicalAnd => "LogicalAnd"
  | logicalOr => "LogicalOr"
  | boolAnd => "BoolAnd"
  | boolOr => "BoolOr"
  | boolXor => "BoolXor"
  | boolEq => "BoolEq"
  | boolNe => "BoolNe"
  | intAdd => "IntAdd"
  | intSub => "IntSub"
  | intMul => "IntMul"
  | intDiv => "IntDiv"
  | intMod => "IntMod"
  | intAnd => "IntAnd"
  | intOr => "IntOr"
  | intXor => "IntXor"
  | intShl => "IntShl"
  | intShr => "IntShr"
  | intEq => "IntEq"
  | intNe => "IntNe"
  | intLt => "IntLt"
  | intLe => "IntLe"
  | intGt => "IntGt"
  | intGe => "IntGe"
  | floatAdd => "FloatAdd"
  | floatSub => "FloatSub"
  | floatMul => "FloatMul"
  | floatDiv => "FloatDiv"
  | floatMod => "FloatMod"
  | floatEq => "FloatEq"
  | floatNe => "FloatNe"
  | floatLt => "FloatLt"
  | floatLe => "FloatLe"
  | floatGt => "FloatGt"
  | floatGe => "FloatGe"
  | strConcat => "StrConcat"
  | strEq => "StrEq"
  | strNe => "StrNe"
  | strLt => "StrLt"
  | strLe => "StrLe"
  | strGt => "StrGt"
  | strGe => "StrGe"
  | listAppend => "ListAppend"
  | listPrepend => "ListPrepend"
  | listEq => "ListEq"
  | listNe => "ListNe"
  | vecAdd => "VecAdd"
  | vecSub => "VecSub"
  | vecEq => "VecEq"
  | vecNe => "VecNe"
  | vecDot => "VecDot"
  | vecCross => "VecCross"
  | vecScale => "VecScale"
  | scaleVec => "ScaleVec"
  | vecDivScalar => "VecDivScalar"
  | vecRotate => "VecRotate"
  | vecUnrotate => "VecUnrotate"
  | rotAdd => "RotAdd"
  | rotSub => "RotSub"
  | rotMul => "RotMul"
  | rotDiv => "RotDiv"
  | rotEq => "RotEq"
  | rotNe => "RotNe"

def ofName? (s : String) : Option BinEval := all.find? (·.name == s)

end BinEval

/-- A row of the operator table. The operands are converted to `left` and `right`. Only an
assignable row serves `x op= y`. -/
structure OpEntry where
  result : Ty
  left : Ty
  right : Ty
  eval : BinEval
  assignable : Bool
  deriving DecidableEq

namespace OpEntry

def floatCompare (eval : BinEval) : OpEntry := ⟨.bool, .float, .float, eval, false⟩

def floatArith (eval : BinEval) : OpEntry := ⟨.float, .float, .float, eval, true⟩

def intCompare (eval : BinEval) : OpEntry := ⟨.bool, .integer, .integer, eval, false⟩

def intArith (eval : BinEval) : OpEntry := ⟨.integer, .integer, .integer, eval, true⟩

def strCompare (eval : BinEval) : OpEntry := ⟨.bool, .string, .string, eval, false⟩

def boolean (eval : BinEval) : OpEntry := ⟨.bool, .bool, .bool, eval, false⟩

end OpEntry

/-- An integer that meets a float is converted. -/
def isFloatPair : Ty → Ty → Bool
  | .float, .float | .float, .integer | .integer, .float => true
  | _, _ => false

/-- A key that meets a string is compared as text. -/
def isKeyPair : Ty → Ty → Bool
  | .key, .key | .key, .string | .string, .key => true
  | _, _ => false

/-- A `bool` meets a type that can stand as a condition. -/
def isBoolPair (l r : Ty) : Bool :=
  (l == .bool && r.isTruth) || (r == .bool && l.isTruth)

/-- The types of what can be put at the ends of a list. -/
def isListItem : Ty → Bool
  | .float | .integer | .key | .rotation | .string | .vector => true
  | _ => false

/-- Equality and its negation have the same rows with different evaluations. -/
def equalityEntry (l r : Ty) (onBool onFloat onInt onStr onList onRot onVec : BinEval) :
    Option OpEntry :=
  if isBoolPair l r then some (.boolean onBool)
  else if isFloatPair l r then some (.floatCompare onFloat)
  else if isKeyPair l r then some (.strCompare onStr)
  else match l, r with
    | .integer, .integer => some (.intCompare onInt)
    | .string, .string => some (.strCompare onStr)
    | .list, .list => some ⟨.bool, .list, .list, onList, false⟩
    | .rotation, .rotation => some ⟨.bool, .rotation, .rotation, onRot, false⟩
    | .vector, .vector => some ⟨.bool, .vector, .vector, onVec, false⟩
    | _, _ => none

/-- Only numbers and strings have an order. -/
def orderEntry (l r : Ty) (onFloat onInt onStr : BinEval) : Option OpEntry :=
  if isFloatPair l r then some (.floatCompare onFloat)
  else match l, r with
    | .integer, .integer => some (.intCompare onInt)
    | .string, .string => some (.strCompare onStr)
    | _, _ => none

/-- The bitwise operators, which are also the strict logical ones. -/
def bitEntry (l r : Ty) (onBool onInt : BinEval) : Option OpEntry :=
  if isBoolPair l r then some (.boolean onBool)
  else match l, r with
    | .integer, .integer => some (.intArith onInt)
    | _, _ => none

/-- A string takes the text of a number, and a list takes items at either end. -/
def addEntry (l r : Ty) : Option OpEntry :=
  if isFloatPair l r then some (.floatArith .floatAdd)
  else match l, r with
    | .integer, .integer => some (.intArith .intAdd)
    | .string, .string => some ⟨.string, .string, .string, .strConcat, true⟩
    | .bool, .string | .float, .string | .integer, .string
    | .string, .bool | .string, .float | .string, .integer =>
      some ⟨.string, .string, .string, .strConcat, false⟩
    | .list, .list => some ⟨.list, .list, .list, .listAppend, true⟩
    | .rotation, .rotation => some ⟨.rotation, .rotation, .rotation, .rotAdd, true⟩
    | .vector, .vector => some ⟨.vector, .vector, .vector, .vecAdd, true⟩
    | .list, x => if isListItem x then some ⟨.list, .list, x, .listAppend, true⟩ else none
    | x, .list => if isListItem x then some ⟨.list, x, .list, .listPrepend, false⟩ else none
    | _, _ => none

def subEntry (l r : Ty) : Option OpEntry :=
  if isFloatPair l r then some (.floatArith .floatSub)
  else match l, r with
    | .integer, .integer => some (.intArith .intSub)
    | .rotation, .rotation => some ⟨.rotation, .rotation, .rotation, .rotSub, true⟩
    | .vector, .vector => some ⟨.vector, .vector, .vector, .vecSub, true⟩
    | _, _ => none

/-- Two vectors have their inner product; a vector times a rotation is turned. -/
def mulEntry (l r : Ty) : Option OpEntry :=
  if isFloatPair l r then some (.floatArith .floatMul)
  else match l, r with
    | .integer, .integer => some (.intArith .intMul)
    | .rotation, .rotation => some ⟨.rotation, .rotation, .rotation, .rotMul, true⟩
    | .vector, .vector => some ⟨.float, .vector, .vector, .vecDot, false⟩
    | .vector, .float | .vector, .integer => some ⟨.vector, .vector, .float, .vecScale, true⟩
    | .float, .vector | .integer, .vector => some ⟨.vector, .float, .vector, .scaleVec, false⟩
    | .vector, .rotation => some ⟨.vector, .vector, .rotation, .vecRotate, true⟩
    | _, _ => none

/-- A vector divided by a rotation is turned back. -/
def divEntry (l r : Ty) : Option OpEntry :=
  if isFloatPair l r then some (.floatArith .floatDiv)
  else match l, r with
    | .integer, .integer => some (.intArith .intDiv)
    | .rotation, .rotation => some ⟨.rotation, .rotation, .rotation, .rotDiv, true⟩
    | .vector, .float | .vector, .integer => some ⟨.vector, .vector, .float, .vecDivScalar, true⟩
    | .vector, .rotation => some ⟨.vector, .vector, .rotation, .vecUnrotate, true⟩
    | _, _ => none

/-- For two vectors this is their outer product. -/
def modEntry (l r : Ty) : Option OpEntry :=
  if isFloatPair l r then some (.floatArith .floatMod)
  else match l, r with
    | .integer, .integer => some (.intArith .intMod)
    | .vector, .vector => some ⟨.vector, .vector, .vector, .vecCross, true⟩
    | _, _ => none

/-- Both operands of a logical operator are evaluated and taken as conditions. -/
def logicalEntry (l r : Ty) (eval : BinEval) : Option OpEntry :=
  if l.isTruth && r.isTruth then some ⟨.bool, l, r, eval, false⟩ else none

def shiftEntry (l r : Ty) (eval : BinEval) : Option OpEntry :=
  match l, r with
  | .integer, .integer => some (.intArith eval)
  | _, _ => none

namespace BinOp

/-- The rows as they stand in the table, with no `bool` taken for an integer. -/
def entry? (op : BinOp) (l r : Ty) : Option OpEntry :=
  match op with
  | add => addEntry l r
  | sub => subEntry l r
  | mul => mulEntry l r
  | div => divEntry l r
  | mod => modEntry l r
  | eq => equalityEntry l r .boolEq .floatEq .intEq .strEq .listEq .rotEq .vecEq
  | ne => equalityEntry l r .boolNe .floatNe .intNe .strNe .listNe .rotNe .vecNe
  | lt => orderEntry l r .floatLt .intLt .strLt
  | le => orderEntry l r .floatLe .intLe .strLe
  | gt => orderEntry l r .floatGt .intGt .strGt
  | ge => orderEntry l r .floatGe .intGe .strGe
  | and => logicalEntry l r .logicalAnd
  | or => logicalEntry l r .logicalOr
  | bitAnd => bitEntry l r .boolAnd .intAnd
  | bitOr => bitEntry l r .boolOr .intOr
  | bitXor => bitEntry l r .boolXor .intXor
  | shl => shiftEntry l r .intShl
  | shr => shiftEntry l r .intShr

/-- A `bool` counts as an integer where it has no row of its own. -/
def widen : Ty → Ty
  | .bool => .integer
  | t => t

/-- A row for the types themselves comes before one for the widened types. -/
def lookup? (op : BinOp) (l r : Ty) : Option OpEntry :=
  match op.entry? l r with
  | some e => some e
  | none => if widen l = l ∧ widen r = r then none else op.entry? (widen l) (widen r)

end BinOp

end EventScript
