import EventScript.Decimal.Layout
import EventScript.Geometry
import EventScript.Text.Quoted
import EventScript.Ty

/-!
# Constants

The values that stand in compiled code, and the names that every script can use for some of them.
Two constants are equal when their bits are.
-/

namespace EventScript

/-- Numbers in messages and listings: positional from `0.0001` up to `1e16`. -/
def plainNumber : Decimal.Layout := ⟨-4, 15, "", .up⟩

def Double.describe (d : Double) : String := plainNumber.render d

inductive Constant where
  | integer (n : Int32)
  | float (d : Double)
  | string (s : String)
  | key (s : String)
  | vector (v : Vec3)
  | rotation (q : Quat)
  deriving DecidableEq, Inhabited

namespace Constant

def ty : Constant → Ty
  | integer _ => .integer
  | float _ => .float
  | string _ => .string
  | key _ => .key
  | vector _ => .vector
  | rotation _ => .rotation

def describeNumbers (ds : List Double) : String :=
  "[" ++ ", ".intercalate (ds.map Double.describe) ++ "]"

def describe : Constant → String
  | integer n => "Integer(" ++ toString n.toInt ++ ")"
  | float d => "Float(" ++ d.describe ++ ")"
  | string s => "String(" ++ Text.quote s ++ ")"
  | key s => "Key(" ++ Text.quote s ++ ")"
  | vector v => "Vector(" ++ describeNumbers v.toList ++ ")"
  | rotation q => "Rotation(" ++ describeNumbers q.toList ++ ")"

def named : List (String × Constant) :=
  [("TRUE", integer 1),
   ("FALSE", integer 0),
   ("PI", float ⟨0x400921fb54442d18⟩),
   ("TWO_PI", float ⟨0x401921fb54442d18⟩),
   ("PI_BY_TWO", float ⟨0x3ff921fb54442d18⟩),
   ("DEG_TO_RAD", float ⟨0x3f91df46a2529d39⟩),
   ("RAD_TO_DEG", float ⟨0x404ca5dc1a63c1f8⟩),
   ("SQRT2", float ⟨0x3ff6a09e667f3bcd⟩),
   ("NULL_KEY", key "00000000-0000-0000-0000-000000000000"),
   ("EOF", string "\n\n\n"),
   ("ZERO_VECTOR", vector .zero),
   ("ZERO_ROTATION", rotation .identity),
   ("PUBLIC_CHANNEL", integer 0),
   ("DEBUG_CHANNEL", integer 0x7fffffff),
   ("LINK_SET", integer (-1)),
   ("LINK_ALL_OTHERS", integer (-2)),
   ("LINK_THIS", integer (-4)),
   ("CHANGED_INVENTORY", integer 1),
   ("CHANGED_COLOR", integer 2),
   ("CHANGED_SHAPE", integer 4),
   ("CHANGED_SCALE", integer 8),
   ("CHANGED_TEXTURE", integer 16),
   ("CHANGED_LINK", integer 32),
   ("CHANGED_ALLOWED_DROP", integer 64),
   ("CHANGED_OWNER", integer 128),
   ("CHANGED_REGION", integer 256),
   ("CHANGED_TELEPORT", integer 512),
   ("HTTP_METHOD", integer 0),
   ("HTTP_MIMETYPE", integer 1)]

def ofName? (name : String) : Option Constant := named.lookup name

end Constant

end EventScript
