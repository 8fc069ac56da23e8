import EventScript.Double

/-!
# Reading decimals

`read?` reads text as a floating-point number, rounded to the nearest one. A number has digits
with at most one point among them and may have an exponent; `inf`, `infinity` and `nan` are
numbers in any case.
-/

namespace EventScript.Decimal

def digitValue (c : Char) : Nat := c.toNat - '0'.toNat

def digitsValue (digits : List Char) : Nat :=
  digits.foldl (fun n c => 10 * n + digitValue c) 0

/-- The nearest number to `m · 10^e`. Exponents far outside the range of the numbers are
settled first, so that no huge power is formed. -/
def nearest (m : Nat) (e : Int) : Double :=
  let size : Int := (Nat.toDigits 10 m).length + e
  if m = 0 || decide (size < -330) then Double.zero
  else if 311 < size then Double.infinity
  else ⟨(Float.ofScientific m (decide (e < 0)) e.natAbs).toBits⟩

def splitSign : List Char → Bool × List Char
  | '-' :: cs => (true, cs)
  | '+' :: cs => (false, cs)
  | cs => (false, cs)

/-- An exponent that ends the text, or nothing where the text has ended. -/
def exponent? : List Char → Option Int
  | [] => some 0
  | c :: cs =>
    if c = 'e' ∨ c = 'E' then
      let (negative, digits) := splitSign cs
      if digits.isEmpty || !digits.all Char.isDigit then none
      else
        let n : Int := digitsValue digits
        some (if negative then -n else n)
    else none

def splitFraction : List Char → List Char × List Char
  | '.' :: cs => (cs.takeWhile Char.isDigit, cs.dropWhile Char.isDigit)
  | cs => ([], cs)

def unsigned? (cs : List Char) : Option Double :=
  let whole := cs.takeWhile Char.isDigit
  let (fraction, rest) := splitFraction (cs.dropWhile Char.isDigit)
  if whole.isEmpty && fraction.isEmpty then none
  else (exponent? rest).map fun e =>
    nearest (digitsValue (whole ++ fraction)) (e - fraction.length)

def named? (cs : List Char) : Option Double :=
  let word := String.ofList (cs.map Char.toLower)
  if word = "inf" ∨ word = "infinity" then some Double.infinity
  else if word = "nan" then some Double.nan
  else none

def read? (cs : List Char) : Option Double :=
  let (negative, rest) := splitSign cs
  ((named? rest).orElse fun _ => unsigned? rest).map (Double.withSign negative)

end EventScript.Decimal
