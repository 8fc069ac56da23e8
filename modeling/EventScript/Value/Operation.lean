import EventScript.Operator
import EventScript.Value

/-!
# Operations

What the evaluations of the operator table compute. Integers wrap and only the low five bits of
a shift count; lists are equal when their lengths are. The only way to fail is a division by zero.
-/

namespace EventScript

namespace Vec3

def dot (a b : Vec3) : Double := a.x * b.x + a.y * b.y + a.z * b.z

def cross (a b : Vec3) : Vec3 :=
  ⟨a.y * b.z - a.z * b.y, a.z * b.x - a.x * b.z, a.x * b.y - a.y * b.x⟩

def scale (k : Double) (v : Vec3) : Vec3 := v.map (· * k)

def magnitude (v : Vec3) : Double := (v.x * v.x + v.y * v.y + v.z * v.z).sqrt

end Vec3

namespace Quat

def conjugate (q : Quat) : Quat := ⟨-q.x, -q.y, -q.z, q.s⟩

def mul (a b : Quat) : Quat :=
  ⟨a.s * b.x + a.x * b.s + a.y * b.z - a.z * b.y,
   a.s * b.y + a.y * b.s + a.z * b.x - a.x * b.z,
   a.s * b.z + a.z * b.s + a.x * b.y - a.y * b.x,
   a.s * b.s - a.x * b.x - a.y * b.y - a.z * b.z⟩

def rotate (q : Quat) (v : Vec3) : Vec3 :=
  let r := (q.mul ⟨v.x, v.y, v.z, .zero⟩).mul q.conjugate
  ⟨r.x, r.y, r.z⟩

end Quat

namespace BinEval

open Value

def leftText : Value → String
  | .string s | .key s => s
  | v => v.render

def itemsOf : Value → List Value
  | .list items => items
  | v => [v]

/-- The value of an operation on operands of the types of its row; none for a division by zero. -/
def result? (eval : BinEval) (l r : Value) : Option Value :=
  match eval with
  | logicalAnd | boolAnd => some (bool (l.truthy && r.truthy))
  | logicalOr | boolOr => some (bool (l.truthy || r.truthy))
  | boolXor => some (bool (l.truthy ^^ r.truthy))
  | boolEq => some (bool (l.truthy == r.truthy))
  | boolNe => some (bool (l.truthy != r.truthy))
  | intAdd => some (integer (l.asInt + r.asInt))
  | intSub => some (integer (l.asInt - r.asInt))
  | intMul => some (integer (l.asInt * r.asInt))
  | intDiv => if r.asInt = 0 then none else some (integer (l.asInt / r.asInt))
  | intMod => if r.asInt = 0 then none else some (integer (l.asInt % r.asInt))
  | intAnd => some (integer (l.asInt &&& r.asInt))
  | intOr => some (integer (l.asInt ||| r.asInt))
  | intXor => some (integer (l.asInt ^^^ r.asInt))
  | intShl => some (integer (l.asInt <<< r.asInt))
  | intShr => some (integer (l.asInt >>> r.asInt))
  | intEq => some (bool (l.asInt == r.asInt))
  | intNe => some (bool (l.asInt != r.asInt))
  | intLt => some (bool (l.asInt < r.asInt))
  | intLe => some (bool (l.asInt ≤ r.asInt))
  | intGt => some (bool (r.asInt < l.asInt))
  | intGe => some (bool (r.asInt ≤ l.asInt))
  | floatAdd => some (float (l.asFloat + r.asFloat))
  | floatSub => some (float (l.asFloat - r.asFloat))
  | floatMul => some (float (l.asFloat * r.asFloat))
  | floatDiv => if r.asFloat.isZero then none else some (float (l.asFloat / r.asFloat))
  | floatMod => if r.asFloat.isZero then none else some (float (l.asFloat.rem r.asFloat))
  | floatEq => some (bool (l.asFloat.numEq r.asFloat))
  | floatNe => some (bool (!l.asFloat.numEq r.asFloat))
  | floatLt => some (bool (l.asFloat.lt r.asFloat))
  | floatLe => some (bool (l.asFloat.le r.asFloat))
  | floatGt => some (bool (r.asFloat.lt l.asFloat))
  | floatGe => some (bool (r.asFloat.le l.asFloat))
  | strConcat => some (string (leftText l ++ r.asText))
  | strEq => some (bool (l.asText == r.asText))
  | strNe => some (bool (l.asText != r.asText))
  | strLt => some (bool (l.asText < r.asText))
  | strLe => some (bool (l.asText ≤ r.asText))
  | strGt => some (bool (r.asText < l.asText))
  | strGe => some (bool (r.asText ≤ l.asText))
  | listAppend => some (list (itemsOf l ++ itemsOf r))
  | listPrepend => some (list (l :: itemsOf r))
  | listEq => some (bool (l.asList.length == r.asList.length))
  | listNe => some (bool (l.asList.length != r.asList.length))
  | vecAdd => some (vector (Vec3.zipWith (· + ·) l.asVector r.asVector))
  | vecSub => some (vector (Vec3.zipWith (· - ·) l.asVector r.asVector))
  | vecEq => some (bool (l.asVector.numEq r.asVector))
  | vecNe => some (bool (!l.asVector.numEq r.asVector))
  | vecDot => some (float (l.asVector.dot r.asVector))
  | vecCross => some (vector (l.asVector.cross r.asVector))
  | vecScale => some (vector (l.asVector.scale r.asFloat))
  | scaleVec => some (vector (r.asVector.scale l.asFloat))
  | vecDivScalar =>
    if r.asFloat.isZero then none else some (vector (l.asVector.map (· / r.asFloat)))
  | vecRotate => some (vector (r.asRotation.rotate l.asVector))
  | vecUnrotate => some (vector (r.asRotation.conjugate.rotate l.asVector))
  | rotAdd => some (rotation (Quat.zipWith (· + ·) l.asRotation r.asRotation))
  | rotSub => some (rotation (Quat.zipWith (· - ·) l.asRotation r.asRotation))
  -- the left rotation is done first
  | rotMul => some (rotation (r.asRotation.mul l.asRotation))
  | rotDiv => some (rotation (r.asRotation.conjugate.mul l.asRotation))
  | rotEq => some (bool (l.asRotation.numEq r.asRotation))
  | rotNe => some (bool (!l.asRotation.numEq r.asRotation))

end BinEval

namespace Value

def negate? : Value → Option Value
  | integer n => some (integer (-n))
  | float d => some (float (-d))
  | vector v => some (vector (v.map Double.neg))
  | rotation q => some (rotation (q.map Double.neg))
  | _ => none

def component? : Value → Component → Option Double
  | vector v, c => v.get? c
  | rotation q, c => some (q.get c)
  | _, _ => none

def setComponent? : Value → Component → Double → Option Value
  | vector v, c, d => (v.set? c d).map vector
  | rotation q, c, d => some (rotation (q.set c d))
  | _, _, _ => none

end Value

end EventScript
