import EventScript.Constant

/-!
# Values

What variables and operands hold. `undef` is what an `object` without contents holds and what a
missing array element reads as. An array maps keys to values and lists its entries in the order
in which their keys were put in.
-/

namespace EventScript

/-- A key of an array. Numbers are compared by their bits. -/
inductive ArrayKey where
  | integer (n : Int32)
  | float (d : Double)
  | string (s : String)
  | key (s : String)
  | vector (v : Vec3)
  | rotation (q : Quat)
  deriving DecidableEq, Inhabited

inductive Value where
  | undefined
  | bool (b : Bool)
  | integer (n : Int32)
  | float (d : Double)
  | string (s : String)
  | key (s : String)
  | list (items : List Value)
  | vector (v : Vec3)
  | rotation (q : Quat)
  | array (entries : List (ArrayKey × Value))
  deriving Inhabited

def nullKey : String := "00000000-0000-0000-0000-000000000000"

namespace Value

def ofConstant : Constant → Value
  | .integer n => integer n
  | .float d => float d
  | .string s => string s
  | .key s => key s
  | .vector v => vector v
  | .rotation q => rotation q

def default : Ty → Value
  | .bool => bool false
  | .integer => integer 0
  | .float => float .zero
  | .string => string ""
  | .key => key ""
  | .list => list []
  | .vector => vector .zero
  | .rotation => rotation .identity
  | .array => array []
  | .object | .void => undefined

/-- The type of a value, which is `object` for `undef`. -/
def ty : Value → Ty
  | undefined => .object
  | bool _ => .bool
  | integer _ => .integer
  | float _ => .float
  | string _ => .string
  | key _ => .key
  | list _ => .list
  | vector _ => .vector
  | rotation _ => .rotation
  | array _ => .array

def isUndefined : Value → Bool
  | undefined => true
  | _ => false

def ty? (v : Value) : Option Ty := if v.isUndefined then none else some v.ty

/-! ## Truth -/

/-- Groups of 8, 4, 4, 4 and 12 hexadecimal digits with dashes between them. -/
def isValidKey (s : String) : Bool :=
  let cs := s.toList
  cs.length == 36 && cs.zipIdx.all fun (c, i) =>
    if i = 8 ∨ i = 13 ∨ i = 18 ∨ i = 23 then c == '-'
    else c.isDigit || ('a' ≤ c && c ≤ 'f') || ('A' ≤ c && c ≤ 'F')

def truthy : Value → Bool
  | undefined => false
  | bool b => b
  | integer n => n != 0
  | float d => !d.numEq .zero
  | string s => !s.isEmpty
  | key s => isValidKey s && s != nullKey
  | list items => !items.isEmpty
  | vector v => !v.numEq .zero
  | rotation q => !q.numEq .identity
  | array entries => !entries.isEmpty

/-! ## Size -/

def textSize (s : String) : Int32 := Word.clamp (2 * s.length)

mutual

def dynSize : Value → Int32
  | string s | key s => textSize s
  | list items => dynSizeFrom 0 items
  | _ => 0

/-- What the items of a list cost, after items that cost `total`. -/
def dynSizeFrom (total : Int32) : List Value → Int32
  | [] => total
  | v :: vs => dynSizeFrom (Word.addSat (Word.addSat total v.ty.staticSize) v.dynSize) vs

end

/-! ## Readings -/

def asInt : Value → Int32
  | integer n => n
  | bool b => if b then 1 else 0
  | float d => d.toInt32
  | _ => 0

def asFloat : Value → Double
  | float d => d
  | integer n => .ofInt32 n
  | bool b => if b then .one else .zero
  | _ => .zero

def asText : Value → String
  | string s | key s => s
  | _ => ""

def asList : Value → List Value
  | list items => items
  | _ => []

def asVector : Value → Vec3
  | vector v => v
  | _ => .zero

def asRotation : Value → Quat
  | rotation q => q
  | _ => .identity

/-! ## Text -/

def renderComponents (ds : List Double) : String :=
  "<" ++ ", ".intercalate (ds.map (Decimal.fixed 5)) ++ ">"

mutual

def render : Value → String
  | undefined => ""
  | bool b => if b then "1" else "0"
  | integer n => toString n.toInt
  | float d => Decimal.fixed 6 d
  | string s | key s => s
  | list items => renderAll items
  | vector v => renderComponents v.toList
  | rotation q => renderComponents q.toList
  | array entries => "[array of " ++ toString entries.length ++ "]"

def renderAll : List Value → String
  | [] => ""
  | v :: vs => v.render ++ renderAll vs

end

mutual

def describe : Value → String
  | string s => Text.quote s
  | key s => "key(" ++ s ++ ")"
  | list items => "[" ++ ", ".intercalate (describeAll items) ++ "]"
  | undefined => "undef"
  | v => v.render

def describeAll : List Value → List String
  | [] => []
  | v :: vs => v.describe :: describeAll vs

end

end Value

namespace ArrayKey

/-- The key that a value stands for, unless it is a list, an array or `undef`. A `bool` stands
for an integer. -/
def ofValue? : Value → Option ArrayKey
  | .integer n => some (integer n)
  | .bool b => some (integer (if b then 1 else 0))
  | .float d => some (float d)
  | .string s => some (string s)
  | .key s => some (key s)
  | .vector v => some (vector v)
  | .rotation q => some (rotation q)
  | _ => none

def toValue : ArrayKey → Value
  | integer n => .integer n
  | float d => .float d
  | string s => .string s
  | key s => .key s
  | vector v => .vector v
  | rotation q => .rotation q

end ArrayKey

abbrev Entries := List (ArrayKey × Value)

namespace Entries

def get (entries : Entries) (k : ArrayKey) : Value := (entries.lookup k).getD .undefined

def insert (k : ArrayKey) (v : Value) : Entries → Entries
  | [] => [(k, v)]
  | e :: es => if e.1 = k then (k, v) :: es else e :: insert k v es

def erase (k : ArrayKey) (entries : Entries) : Entries := entries.filter (·.1 ≠ k)

def set (entries : Entries) (k : ArrayKey) (v : Value) : Entries :=
  if v.isUndefined then erase k entries else insert k v entries

def at? (entries : Entries) (n : Int32) : Option (ArrayKey × Value) :=
  if n.toInt < 0 then none else entries[n.toInt.toNat]?

def keyAt (entries : Entries) (n : Int32) : Value :=
  ((at? entries n).map fun e => e.1.toValue).getD .undefined

def valueAt (entries : Entries) (n : Int32) : Value :=
  ((at? entries n).map Prod.snd).getD .undefined

end Entries

end EventScript
