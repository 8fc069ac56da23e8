import EventScript.Decimal.Layout
import EventScript.Decimal.Reading

/-!
# Numerals

The spelling of numbers in documents: an optional minus, digits without leading zeros, and
optionally a fraction and an exponent. `integer?` and `double?` read a numeral. A floating-point
number is read by scaling its first digits with a power of ten, which does not always give the
nearest one.
-/

namespace EventScript.Json.Numeral

/-- Numbers in documents: positional from `0.00001` up to `1e16`. -/
def layout : Decimal.Layout := ⟨-5, 15, "+", .toEven⟩

/-! ## Spelling -/

def digits? (cs : List Char) : Option (List Char × List Char) :=
  let ds := cs.takeWhile Char.isDigit
  if ds.isEmpty then none else some (ds, cs.dropWhile Char.isDigit)

/-- Splits off digits without a leading zero. -/
def whole? : List Char → Option (List Char × List Char)
  | '0' :: cs => if cs.head?.any Char.isDigit then none else some (['0'], cs)
  | cs => digits? cs

def fraction? : List Char → Option (List Char × List Char)
  | '.' :: cs => (digits? cs).map fun (ds, rest) => ('.' :: ds, rest)
  | cs => some ([], cs)

def exponentSign : List Char → List Char × List Char
  | '+' :: cs => (['+'], cs)
  | '-' :: cs => (['-'], cs)
  | cs => ([], cs)

def exponent? : List Char → Option (List Char × List Char)
  | [] => some ([], [])
  | c :: cs =>
    if c = 'e' ∨ c = 'E' then
      let (sign, cs) := exponentSign cs
      (digits? cs).map fun (ds, rest) => (c :: (sign ++ ds), rest)
    else some ([], c :: cs)

def minus : List Char → List Char × List Char
  | '-' :: cs => (['-'], cs)
  | cs => ([], cs)

def scan? (cs : List Char) : Option (List Char × List Char) := do
  let (sign, cs) := minus cs
  let (whole, cs) ← whole? cs
  let (fraction, cs) ← fraction? cs
  let (exponent, cs) ← exponent? cs
  return (sign ++ whole ++ fraction ++ exponent, cs)

/-! ## Integers -/

/-- The integer that a numeral spells. One with a fraction or an exponent spells none, and
neither does `-0`. -/
def integer? (numeral : List Char) : Option Int :=
  let (sign, digits) := minus numeral
  if digits.all Char.isDigit then
    let n : Int := Decimal.digitsValue digits
    if sign.isEmpty then some n else if n = 0 then none else some (-n)
  else none

/-! ## Floating-point numbers -/

/-- The digits that are kept as a whole number, and the power of ten that goes with it. -/
structure Significand where
  value : Nat
  exponent : Int

namespace Significand

def greatest : Nat := (1 <<< 64) - 1

/-- Takes the digits before the point. From the first digit on that does not fit, digits only
raise the exponent. -/
def addWhole (s : Significand) : List Char → Significand
  | [] => s
  | c :: cs =>
    let value := 10 * s.value + Decimal.digitValue c
    if value ≤ greatest then addWhole { s with value } cs
    else { s with exponent := s.exponent + (cs.length + 1) }

/-- Takes the digits after the point. From the first digit on that does not fit, digits are
dropped. -/
def addFraction (s : Significand) : List Char → Significand
  | [] => s
  | c :: cs =>
    let value := 10 * s.value + Decimal.digitValue c
    if value ≤ greatest then addFraction ⟨value, s.exponent - 1⟩ cs else s

end Significand

/-- The greatest power of ten that numbers are scaled by at once. -/
def greatestPower : Nat := 308

/-- Divides by a power of ten, in at most `n` parts. -/
def scaleDown (d : Double) (power : Nat) : Nat → Double
  | 0 => .zero
  | n + 1 =>
    if power ≤ greatestPower then d / Decimal.nearest 1 power
    else if d.isZero then d
    else scaleDown (d / Decimal.nearest 1 greatestPower) (power - greatestPower) n

/-- Scales by a power of ten; there is no result if it is not finite. Two divisions by the greatest
power make every kept number zero. -/
def scale? (d : Double) (exponent : Int) : Option Double :=
  if exponent < 0 then some (scaleDown d exponent.natAbs 3)
  else if d.isZero then some d
  else if exponent ≤ greatestPower then
    let r := d * Decimal.nearest 1 exponent
    if r.isInfinite then none else some r
  else none

def exponentValue : List Char → Int
  | [] => 0
  | _ :: cs =>
    let (sign, digits) := exponentSign cs
    let n : Int := Decimal.digitsValue digits
    if sign = ['-'] then -n else n

def double? (numeral : List Char) : Option Double :=
  let (sign, cs) := minus numeral
  let (fraction, rest) := Decimal.splitFraction (cs.dropWhile Char.isDigit)
  let s := (Significand.addWhole ⟨0, 0⟩ (cs.takeWhile Char.isDigit)).addFraction fraction
  (scale? (.ofUInt64 (UInt64.ofNat s.value)) (s.exponent + exponentValue rest)).map
    (Double.withSign (!sign.isEmpty))

end EventScript.Json.Numeral
