import EventScript.Decimal.Reading
import EventScript.Text.Blank
import EventScript.Value

/-!
# Conversions

`Value.cast?` converts a value to a type. A text is read as far as it makes sense: as an integer
that wraps, as the longest number it starts with, or as components between angle brackets.
-/

namespace EventScript

namespace Text

def hexDigit? (c : Char) : Option Nat :=
  if c.isDigit then some (c.toNat - '0'.toNat)
  else if 'a' ≤ c ∧ c ≤ 'f' then some (c.toNat - 'a'.toNat + 10)
  else if 'A' ≤ c ∧ c ≤ 'F' then some (c.toNat - 'A'.toNat + 10)
  else none

def decimalDigit? (c : Char) : Option Nat :=
  if c.isDigit then some (c.toNat - '0'.toNat) else none

/-- The value of the digits that a text starts with, modulo 2^32. -/
def readDigits (radix : UInt32) (digit? : Char → Option Nat) : UInt32 → List Char → UInt32
  | total, [] => total
  | total, c :: cs =>
    match digit? c with
    | some d => readDigits radix digit? (total * radix + UInt32.ofNat d) cs
    | none => total

/-- The value of the unsigned integer that a text starts with, modulo 2^32. -/
def readUnsigned : List Char → UInt32
  | '0' :: 'x' :: cs | '0' :: 'X' :: cs => readDigits 16 hexDigit? 0 cs
  | cs => readDigits 10 decimalDigit? 0 cs

def readInteger (s : String) : Int32 :=
  let (negative, cs) := Decimal.splitSign (trimStart s.toList)
  let n := (readUnsigned cs).toInt32
  if negative then -n else n

def isNumberChar (c : Char) : Bool :=
  c.isDigit || c == '.' || c == '-' || c == '+' || c == 'e' || c == 'E'

/-- The longest of the first `n` beginnings of a text that is a number. -/
def longestNumber? (cs : List Char) : Nat → Option Double
  | 0 => none
  | n + 1 => (Decimal.read? (cs.take (n + 1))).orElse fun _ => longestNumber? cs n

/-- The longest number that a text starts with, after blanks, or zero. -/
def readFloat (s : String) : Double :=
  let cs := (trimStart s.toList).takeWhile isNumberChar
  (longestNumber? cs cs.length).getD .zero

def splitCommas : List Char → List (List Char)
  | [] => [[]]
  | c :: cs =>
    match splitCommas cs with
    | [] => [[c]]
    | part :: parts => if c = ',' then [] :: part :: parts else (c :: part) :: parts

def readComponents? (s : String) : Option (List Double) :=
  match trim s.toList with
  | '<' :: cs =>
    if cs.getLast? = some '>' then
      (splitCommas cs.dropLast).mapM fun part => Decimal.read? (trim part)
    else none
  | _ => none

def readVector (s : String) : Vec3 :=
  match readComponents? s with
  | some [x, y, z] => ⟨x, y, z⟩
  | _ => .zero

def readRotation (s : String) : Quat :=
  match readComponents? s with
  | some [x, y, z, w] => ⟨x, y, z, w⟩
  | _ => .identity

end Text

namespace Value

def toList? : Value → Option Value
  | bool b => some (list [integer (if b then 1 else 0)])
  | integer n => some (list [integer n])
  | float d => some (list [float d])
  | string s => some (list [string s])
  | key s => some (list [key s])
  | vector v => some (list [vector v])
  | rotation q => some (list [rotation q])
  | list items => some (list items)
  | undefined | array _ => none

def toBool? : Value → Option Value
  | undefined | vector _ | rotation _ | array _ => none
  | v => some (bool v.truthy)

def toInteger? : Value → Option Value
  | integer n => some (integer n)
  | bool b => some (integer (if b then 1 else 0))
  | float d => some (integer d.toInt32)
  | string s => some (integer (Text.readInteger s))
  | _ => none

def toFloat? : Value → Option Value
  | float d => some (float d)
  | bool b => some (float (if b then .one else .zero))
  | integer n => some (float (.ofInt32 n))
  | string s => some (float (Text.readFloat s))
  | _ => none

def toString? : Value → Option Value
  | undefined => none
  | v => some (string v.render)

def toKey? : Value → Option Value
  | key s | string s => some (key s)
  | _ => none

def toVector? : Value → Option Value
  | vector v => some (vector v)
  | string s => some (vector (Text.readVector s))
  | _ => none

def toRotation? : Value → Option Value
  | rotation q => some (rotation q)
  | string s => some (rotation (Text.readRotation s))
  | _ => none

def toArray? : Value → Option Value
  | array entries => some (array entries)
  | _ => none

def cast? (v : Value) : Ty → Option Value
  | .void => none
  | .bool => v.toBool?
  | .integer => v.toInteger?
  | .float => v.toFloat?
  | .string => v.toString?
  | .key => v.toKey?
  | .list => v.toList?
  | .vector => v.toVector?
  | .rotation => v.toRotation?
  | .array => v.toArray?
  | .object => some v

end Value

end EventScript
