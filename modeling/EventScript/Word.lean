/-!
# Machine words

Script integers and memory counts are 32-bit words. Integer arithmetic wraps, which is what
`Int32` does; memory counts stop at the ends of the range, which is what this file adds.
-/

namespace EventScript.Word

def least : Int := -2147483648

def greatest : Int := 2147483647

def clamp (n : Int) : Int32 :=
  Int32.ofInt (if n < least then least else if greatest < n then greatest else n)

/-- Addition that stops at the ends of the range. -/
def addSat (a b : Int32) : Int32 := clamp (a.toInt + b.toInt)

def subSat (a b : Int32) : Int32 := clamp (a.toInt - b.toInt)

/-- The absolute value, which wraps at the least word. -/
def abs (a : Int32) : Int32 := if a.toInt < 0 then -a else a

def ofInt? (n : Int) : Option Int32 :=
  if least ≤ n ∧ n ≤ greatest then some (Int32.ofInt n) else none

def index? (n : Nat) : Option UInt16 :=
  if n < 65536 then some (UInt16.ofNat n) else none

/-- Lower-case hexadecimal text, padded with zeros to `width` digits. -/
def hex (width n : Nat) : String :=
  let digits := Nat.toDigits 16 n
  String.ofList (List.replicate (width - digits.length) '0' ++ digits)

end EventScript.Word
