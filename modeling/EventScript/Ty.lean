/-!
# Types

The static types of the language, what a variable of each costs, and which values convert to
which types. A conversion is implicit, explicit (written as a cast) or not allowed.
-/

namespace EventScript

inductive Ty where
  | void
  | bool
  | integer
  | float
  | string
  | key
  | list
  | vector
  | rotation
  | array
  | object
  deriving DecidableEq, Inhabited

namespace Ty

def all : List Ty :=
  [void, bool, integer, float, string, key, list, vector, rotation, array, object]

def name : Ty → String
  | void => "void"
  | bool => "bool"
  | integer => "integer"
  | float => "float"
  | string => "string"
  | key => "key"
  | list => "list"
  | vector => "vector"
  | rotation => "rotation"
  | array => "array"
  | object => "object"

def ofName? (s : String) : Option Ty := all.find? (·.name == s)

def label : Ty → String
  | void => "Void"
  | bool => "Bool"
  | integer => "Integer"
  | float => "Float"
  | string => "String"
  | key => "Key"
  | list => "List"
  | vector => "Vector"
  | rotation => "Rotation"
  | array => "Array"
  | object => "Object"

def ofKeyword? (word : String) : Option Ty :=
  [integer, float, string, key, list, vector, rotation, array, object].find? (·.name == word)

def staticSize : Ty → Int32
  | void => 0
  | bool | integer | float => 8
  | string | key => 40
  | object => 32
  | vector => 72
  | rotation => 80
  | list | array => 96

def hasDynamicSize : Ty → Bool
  | string | key | list => true
  | _ => false

def isTruth : Ty → Bool
  | bool | integer | float | key | list | string => true
  | _ => false

end Ty

def frameSize : Int32 := 64

/-- How a value may come to be converted. -/
inductive CastKind where
  | implicit
  | explicit
  deriving DecidableEq

namespace Ty

def implicitCasts : List (Ty × Ty) :=
  [(array, object), (bool, float), (bool, integer), (float, bool), (float, integer),
   (float, object), (integer, bool), (integer, float), (integer, object), (key, bool),
   (key, object), (key, string), (list, object), (object, array), (object, float),
   (object, integer), (object, key), (object, list), (object, rotation), (object, string),
   (object, vector), (rotation, object), (string, bool), (string, key), (string, object),
   (string, vector), (vector, object)]

def explicitCasts : List (Ty × Ty) :=
  [(bool, string), (float, string), (integer, string), (list, string), (rotation, string),
   (vector, string), (string, float), (string, integer), (string, rotation), (string, list),
   (key, list), (float, list), (integer, list), (rotation, list), (vector, list)]

def castKind? (source target : Ty) : Option CastKind :=
  if source = target then some .implicit
  else if (source, target) ∈ implicitCasts then some .implicit
  else if (source, target) ∈ explicitCasts then some .explicit
  else none

/-- A value of type `source` may be converted to `target`, with a cast when `explicit`. -/
def canCast (source target : Ty) (explicit : Bool) : Bool :=
  match castKind? source target with
  | some .implicit => true
  | some .explicit => explicit
  | none => false

end Ty

end EventScript
