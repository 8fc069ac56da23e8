import EventScript.Api
import EventScript.Text.Case
import EventScript.Value.Cast
import EventScript.Value.Operation

/-!
# Functions that only compute

The library functions whose value depends on their arguments alone. A missing argument, or one of
another type, counts as zero or as empty.
-/

namespace EventScript

namespace Text

/-- An index, counted from the end when it is negative. -/
def fromEnd (length : Nat) (i : Int32) : Int :=
  if i.toInt < 0 then i.toInt + length else i.toInt

def fromEnd? (length i : Int32) : Option Int32 :=
  if i.toInt < 0 then Word.ofInt? (i.toInt + length.toInt) else some i

/-- The characters from one place to another, both brought into the text. -/
def slice? (cs : List Char) (length first last : Int32) : Option (List Char) := do
  let stop ← Word.ofInt? (last.toInt + 1)
  return (cs.take (min stop.toInt length.toInt).toNat).drop (max first.toInt 0).toNat

/-- The characters from `start` to `stop`, both included; if `start` comes after `stop`, the
characters that are not between them. There is no result if a sum is not a word. -/
def substring? (s : String) (start stop : Int32) : Option String := do
  let cs := s.toList
  let length ← Word.ofInt? cs.length
  let first ← fromEnd? length start
  let last ← fromEnd? length stop
  if first.toInt ≤ last.toInt then return String.ofList (← slice? cs length first last)
  else
    let before ← slice? cs length 0 last
    let end' ← Word.ofInt? (length.toInt - 1)
    let behind ← slice? cs length first end'
    return String.ofList (before ++ behind)

end Text

/-- The item at an index, counted from the end when it is negative. -/
def itemAt? (items : List Value) (i : Int32) : Option Value :=
  let n := Text.fromEnd items.length i
  if n < 0 then none else items[n.toNat]?

namespace ApiFunction

structure Args where
  values : List Value

namespace Args

def get (a : Args) (i : Nat) : Value := (a.values[i]?).getD .undefined

def int (a : Args) (i : Nat) : Int32 := (a.get i).asInt

def float (a : Args) (i : Nat) : Double := (a.get i).asFloat

def text (a : Args) (i : Nat) : String := (a.get i).asText

def list (a : Args) (i : Nat) : List Value := (a.get i).asList

def vector (a : Args) (i : Nat) : Vec3 := (a.get i).asVector

def item? (a : Args) : Option Value := itemAt? (a.list 0) (a.int 1)

def itemText (a : Args) : String := (a.item?.map Value.render).getD ""

end Args

def distance (a b : Vec3) : Double := (Vec3.zipWith (· - ·) a b).magnitude

def normalize (v : Vec3) : Vec3 :=
  let m := v.magnitude
  if m.isZero then .zero else v.map (· / m)

/-- A whole number as a word, or the least word when it is out of range. -/
def rounded (round : Double → Int) (d : Double) : Value := .integer (d.toWordBy round)

def pure? (name : String) (values : List Value) : Option Value :=
  let a : Args := ⟨values⟩
  match name with
  | "llStringLength" => some (.integer (Word.clamp (a.text 0).length))
  | "llGetSubString" => some (.string ((Text.substring? (a.text 0) (a.int 1) (a.int 2)).getD ""))
  | "llToUpper" => some (.string (Text.toUpper (a.text 0)))
  | "llToLower" => some (.string (Text.toLower (a.text 0)))
  | "llGetListLength" => some (.integer (Word.clamp (a.list 0).length))
  | "llList2String" => some (.string a.itemText)
  | "llList2Integer" => some (.integer ((a.item?.bind (·.cast? .integer)).getD .undefined).asInt)
  | "llList2Float" => some (.float ((a.item?.bind (·.cast? .float)).getD .undefined).asFloat)
  | "llList2Key" => some (.key a.itemText)
  | "llDumpList2String" =>
    some (.string ((a.text 1).intercalate ((a.list 0).map Value.render)))
  | "llAbs" => some (.integer (Word.abs (a.int 0)))
  | "llFabs" => some (.float (a.float 0).abs)
  | "llSqrt" => some (.float (a.float 0).sqrt)
  | "llPow" => some (.float ((a.float 0).pow (a.float 1)))
  | "llSin" => some (.float (a.float 0).sin)
  | "llCos" => some (.float (a.float 0).cos)
  | "llFloor" => some (rounded Double.floor (a.float 0))
  | "llCeil" => some (rounded Double.ceil (a.float 0))
  | "llRound" => some (rounded Double.floor (a.float 0 + .half))
  | "llVecMag" => some (.float (a.vector 0).magnitude)
  | "llVecNorm" => some (.vector (normalize (a.vector 0)))
  | "llVecDist" => some (.float (distance (a.vector 0) (a.vector 1)))
  | _ => none

end ApiFunction

end EventScript
