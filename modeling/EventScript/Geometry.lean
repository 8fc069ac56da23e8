import EventScript.Double

/-!
# Vectors and rotations

Vectors have three components, rotations four; the last component of a rotation is its scalar
part.
-/

namespace EventScript

structure Vec3 where
  x : Double
  y : Double
  z : Double
  deriving DecidableEq, Inhabited

structure Quat where
  x : Double
  y : Double
  z : Double
  s : Double
  deriving DecidableEq, Inhabited

/-- A name of a component in scripts. Vectors have no scalar part. -/
inductive Component where
  | x
  | y
  | z
  | s
  deriving DecidableEq, Inhabited

namespace Component

def all : List Component := [x, y, z, s]

def name : Component → String
  | x => "x"
  | y => "y"
  | z => "z"
  | s => "s"

def ofName? (text : String) : Option Component := all.find? (·.name == text)

/-- The name in stored modules. -/
def label : Component → String
  | x => "X"
  | y => "Y"
  | z => "Z"
  | s => "S"

def ofLabel? (text : String) : Option Component := all.find? (·.label == text)

end Component

namespace Vec3

def zero : Vec3 := ⟨.zero, .zero, .zero⟩

def toList (v : Vec3) : List Double := [v.x, v.y, v.z]

/-- Only rotations have the last component. -/
def get? (v : Vec3) : Component → Option Double
  | .x => some v.x
  | .y => some v.y
  | .z => some v.z
  | .s => none

def set? (v : Vec3) (c : Component) (d : Double) : Option Vec3 :=
  match c with
  | .x => some { v with x := d }
  | .y => some { v with y := d }
  | .z => some { v with z := d }
  | .s => none

/-- Componentwise. -/
def map (f : Double → Double) (v : Vec3) : Vec3 := ⟨f v.x, f v.y, f v.z⟩

def zipWith (f : Double → Double → Double) (a b : Vec3) : Vec3 :=
  ⟨f a.x b.x, f a.y b.y, f a.z b.z⟩

/-- Equality of numbers, for which a NaN differs from itself. -/
def numEq (a b : Vec3) : Bool := a.x.numEq b.x && a.y.numEq b.y && a.z.numEq b.z

end Vec3

namespace Quat

/-- The rotation that turns nothing. -/
def identity : Quat := ⟨.zero, .zero, .zero, .one⟩

def toList (q : Quat) : List Double := [q.x, q.y, q.z, q.s]

def get (q : Quat) : Component → Double
  | .x => q.x
  | .y => q.y
  | .z => q.z
  | .s => q.s

def set (q : Quat) (c : Component) (d : Double) : Quat :=
  match c with
  | .x => { q with x := d }
  | .y => { q with y := d }
  | .z => { q with z := d }
  | .s => { q with s := d }

def map (f : Double → Double) (q : Quat) : Quat := ⟨f q.x, f q.y, f q.z, f q.s⟩

def zipWith (f : Double → Double → Double) (a b : Quat) : Quat :=
  ⟨f a.x b.x, f a.y b.y, f a.z b.z, f a.s b.s⟩

/-- Quaternions that are one rotation with opposite signs are not equal. -/
def numEq (a b : Quat) : Bool :=
  a.x.numEq b.x && a.y.numEq b.y && a.z.numEq b.z && a.s.numEq b.s

end Quat

end EventScript
