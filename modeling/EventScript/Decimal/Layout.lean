import EventScript.Double
import EventScript.Decimal.Shortest

/-!
# Text of floating-point numbers

`Layout.render` writes a number with the fewest digits that read back. A `Layout` says which
exponents are written positionally and how the others look. `fixed` writes a given number of
places, a half going to the even neighbour.
-/

namespace EventScript.Decimal

structure Layout where
  least : Int
  greatest : Int
  /-- What stands before a positive exponent. -/
  plus : String
  tie : Tie

/-- The digits with a point after the first `e + 1` of them, and at least one digit on both
sides of it. -/
def positional (digits : List Char) (e : Int) : List Char :=
  if e < 0 then '0' :: '.' :: (List.replicate ((-e).toNat - 1) '0' ++ digits)
  else
    let n := e.toNat + 1
    if digits.length ≤ n then digits ++ List.replicate (n - digits.length) '0' ++ ['.', '0']
    else digits.take n ++ '.' :: digits.drop n

/-- The digits with a point after the first of them, and a power of ten. -/
def scientific (plus : String) (digits : List Char) (e : Int) : List Char :=
  let mantissa := match digits with
    | d :: rest@(_ :: _) => d :: '.' :: rest
    | _ => digits
  let sign := if e < 0 then "-" else plus
  mantissa ++ 'e' :: (sign.toList ++ Nat.toDigits 10 e.natAbs)

namespace Layout

def magnitude (l : Layout) (d : Double) : List Char :=
  let (m, q) := d.parts
  if m = 0 then ['0', '.', '0']
  else
    let (c, p) := shortest l.tie m q
    let digits := Nat.toDigits 10 c
    let e : Int := digits.length - 1 + p
    if l.least ≤ e ∧ e ≤ l.greatest then positional digits e else scientific l.plus digits e

def render (l : Layout) (d : Double) : String :=
  let sign := if d.isNegative then "-" else ""
  if d.isNaN then "NaN"
  else if d.isInfinite then sign ++ "inf"
  else sign ++ String.ofList (l.magnitude d)

end Layout

/-- The quotient rounded to the nearest whole number, a half to the even one. -/
def roundDiv (a b : Nat) : Nat :=
  let c := a / b
  if Tie.toEven.roundsUp a b c then c + 1 else c

def fixed (places : Nat) (d : Double) : String :=
  let sign := if d.isNegative then "-" else ""
  if d.isNaN then "NaN"
  else if d.isInfinite then sign ++ "inf"
  else
    let (m, q) := d.parts
    let n := roundDiv ((m * Nat.pow 10 places) <<< q.toNat) (1 <<< (-q).toNat)
    let digits := Nat.toDigits 10 n
    let digits := List.replicate (places + 1 - digits.length) '0' ++ digits
    let k := digits.length - places
    sign ++ String.ofList (digits.take k ++ '.' :: digits.drop k)

end EventScript.Decimal
