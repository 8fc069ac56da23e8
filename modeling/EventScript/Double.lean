import EventScript.Word

/-!
# Floating-point numbers

A `Double` is the bit pattern of a 64-bit binary floating-point number. Keeping the pattern means
that a stored number is compared, sent and read back exactly, the payload of a NaN included.
Arithmetic on numbers is that of `Float`; a NaN operand is passed on, and an operation with no
answer gives the negative quiet NaN.
-/

namespace EventScript

structure Double where
  bits : UInt64
  deriving DecidableEq, Inhabited

namespace Double

/-! ## Classes -/

def signMask : UInt64 := 0x8000000000000000

def infinityBits : UInt64 := 0x7ff0000000000000

def isNegative (d : Double) : Bool := d.bits &&& signMask != 0

def magnitudeBits (d : Double) : UInt64 := d.bits &&& 0x7fffffffffffffff

def isNaN (d : Double) : Bool := decide (infinityBits < d.magnitudeBits)

def isInfinite (d : Double) : Bool := d.magnitudeBits == infinityBits

def isFinite (d : Double) : Bool := decide (d.magnitudeBits < infinityBits)

def isZero (d : Double) : Bool := d.magnitudeBits == 0

/-! ## Constants -/

def zero : Double := ⟨0⟩
def one : Double := ⟨0x3ff0000000000000⟩
def half : Double := ⟨0x3fe0000000000000⟩
def infinity : Double := ⟨infinityBits⟩

def nan : Double := ⟨0x7ff8000000000000⟩

def invalid : Double := ⟨0xfff8000000000000⟩

def quiet (d : Double) : Double := ⟨d.bits ||| 0x0008000000000000⟩

def withSign (negative : Bool) (d : Double) : Double :=
  if negative then ⟨d.bits ||| signMask⟩ else d

/-! ## Exact parts -/

/-- The whole number `m` and the exponent `q` with `|d| = m · 2^q`, for a finite `d`. -/
def parts (d : Double) : Nat × Int :=
  let field := (d.magnitudeBits >>> 52).toNat
  let fraction := (d.bits &&& 0x000fffffffffffff).toNat
  if field = 0 then (fraction, -1074) else (fraction + (1 <<< 52), (field : Int) - 1075)

/-- The number `±m · 2^q`, exact when `m < 2^53` and `-1074 ≤ q`. -/
def ofParts (negative : Bool) (m : Nat) (q : Int) : Double :=
  if m = 0 then withSign negative zero
  else
    let shift := min (52 - m.log2) (q + 1074).toNat
    let m' := m <<< shift
    let q' := q - shift
    let bits := if m' < 1 <<< 52 then m' else (q' + 1075).toNat <<< 52 ||| (m' - (1 <<< 52))
    withSign negative ⟨UInt64.ofNat bits⟩

def ofInt32 (n : Int32) : Double := ofParts (decide (n.toInt < 0)) n.toInt.natAbs 0

/-- The number with the same value as a 32-bit floating-point pattern. -/
def ofSingleBits (b : UInt32) : Double :=
  let negative := b &&& 0x80000000 != 0
  let field := ((b >>> 23) &&& 0xff).toNat
  let fraction := (b &&& 0x007fffff).toNat
  if field = 255 then
    let d : Double := ⟨infinityBits ||| (UInt64.ofNat fraction <<< 29)⟩
    withSign negative (if fraction = 0 then d else d.quiet)
  else if field = 0 then ofParts negative fraction (-149)
  else ofParts negative (fraction + (1 <<< 23)) ((field : Int) - 150)

def truncate (d : Double) : Int :=
  let (m, q) := d.parts
  let n : Nat := if 0 ≤ q then m <<< q.toNat else m >>> (-q).toNat
  if d.isNegative then -(n : Int) else n

def floor (d : Double) : Int :=
  let (m, q) := d.parts
  let n : Int := if d.isNegative then -(m : Int) else m
  if 0 ≤ q then n <<< q.toNat else n >>> (-q).toNat

def ceil (d : Double) : Int := -floor ⟨d.bits ^^^ signMask⟩

/-- The word equal to `round d`, or the least word when there is none. -/
def toWordBy (round : Double → Int) (d : Double) : Int32 :=
  if d.isFinite then (Word.ofInt? (round d)).getD (Int32.ofInt Word.least)
  else Int32.ofInt Word.least

/-- Conversion to an integer drops the fraction; what is out of range becomes the least word. -/
def toInt32 (d : Double) : Int32 := d.toWordBy truncate

/-! ## Arithmetic -/

def toFloat (d : Double) : Float := Float.ofBits d.bits

/-- The answer of an operation on `a` and `b` whose value on numbers is `r`. -/
def settle (a b : Double) (r : Float) : Double :=
  if r.isNaN then
    if a.isNaN then a.quiet else if b.isNaN then b.quiet else invalid
  else ⟨r.toBits⟩

def add (a b : Double) : Double := settle a b (a.toFloat + b.toFloat)
def sub (a b : Double) : Double := settle a b (a.toFloat - b.toFloat)
def mul (a b : Double) : Double := settle a b (a.toFloat * b.toFloat)
def div (a b : Double) : Double := settle a b (a.toFloat / b.toFloat)
def pow (a b : Double) : Double := settle a b (a.toFloat.pow b.toFloat)
def sqrt (a : Double) : Double := settle a a a.toFloat.sqrt
def sin (a : Double) : Double := settle a a a.toFloat.sin
def cos (a : Double) : Double := settle a a a.toFloat.cos
def neg (a : Double) : Double := ⟨a.bits ^^^ signMask⟩
def abs (a : Double) : Double := ⟨a.magnitudeBits⟩

def ofUInt64 (n : UInt64) : Double := ⟨n.toFloat.toBits⟩

instance : Add Double := ⟨add⟩
instance : Sub Double := ⟨sub⟩
instance : Mul Double := ⟨mul⟩
instance : Div Double := ⟨div⟩
instance : Neg Double := ⟨neg⟩

/-- The exact remainder of a division toward zero; it has the sign of `a`. -/
def rem (a b : Double) : Double :=
  if a.isNaN then a.quiet
  else if b.isNaN then b.quiet
  else if a.isInfinite || b.isZero then invalid
  else if b.isInfinite then a
  else
    let (m₁, q₁) := a.parts
    let (m₂, q₂) := b.parts
    let q := min q₁ q₂
    ofParts a.isNegative ((m₁ <<< (q₁ - q).toNat) % (m₂ <<< (q₂ - q).toNat)) q

/-! ## Comparison -/

/-- Numeric equality: zeros of both signs are equal, a NaN equals nothing. -/
def numEq (a b : Double) : Bool := a.toFloat == b.toFloat

def lt (a b : Double) : Bool := decide (a.toFloat < b.toFloat)

def le (a b : Double) : Bool := decide (a.toFloat ≤ b.toFloat)

end Double

end EventScript
