import EventScript.Decimal.Reading
import EventScript.Diagnostic

/-!
# Numbers in the source

A numeral is a run of digits, an optional point with digits after it, and an optional exponent.
Without point and exponent it is an integer. Otherwise its digits are gathered into a 64-bit
mantissa and a power of ten; digits that the mantissa cannot take are dropped, and those before
the point are made up for in the exponent. The number is the mantissa, multiplied or divided by
the power of ten through repeated squaring.
-/

namespace EventScript

structure Exponent where
  sign : Option Char
  digits : List Char

namespace Exponent

def length (e : Exponent) : Nat := 1 + e.sign.toList.length + e.digits.length

def split? : List Char → Option Exponent
  | [] => none
  | c :: cs =>
    if c = 'e' ∨ c = 'E' then
      match cs with
      | '-' :: ds => some ⟨some '-', ds.takeWhile Char.isDigit⟩
      | '+' :: ds => some ⟨some '+', ds.takeWhile Char.isDigit⟩
      | ds => some ⟨none, ds.takeWhile Char.isDigit⟩
    else none

end Exponent

structure Numeral where
  whole : List Char
  fraction : Option (List Char)
  exponent : Option Exponent

namespace Numeral

def plainLength (n : Numeral) : Nat :=
  n.whole.length + match n.fraction with
    | some ds => 1 + ds.length
    | none => 0

def length (n : Numeral) : Nat :=
  n.plainLength + match n.exponent with
    | some e => e.length
    | none => 0

def split (cs : List Char) : Numeral :=
  let rest := cs.dropWhile Char.isDigit
  let fraction := match rest with
    | '.' :: ds => some (ds.takeWhile Char.isDigit)
    | _ => none
  let rest := match rest with
    | '.' :: ds => ds.dropWhile Char.isDigit
    | _ => rest
  ⟨cs.takeWhile Char.isDigit, fraction, Exponent.split? rest⟩

/-- The value of a run of digits after digits worth `value`, or the index of the digit with which
it passes `limit`. -/
def bounded (limit : Nat) : List Char → (value index : Nat) → Except Nat Nat
  | [], value, _ => .ok value
  | c :: cs, value, index =>
    let next := 10 * value + Decimal.digitValue c
    if next ≤ limit then bounded limit cs next (index + 1) else .error index

/-! ## Mantissa and power of ten -/

/-- The numbers that a mantissa can hold are below this. -/
def mantissaBound : Nat := 1 <<< 64

def takeWhole (m : Nat × Int) (c : Char) : Nat × Int :=
  let next := 10 * m.1 + Decimal.digitValue c
  if next < mantissaBound then (next, m.2) else (m.1, m.2 + 1)

def takeFraction (m : Nat × Int) (c : Char) : Nat × Int :=
  let next := 10 * m.1 + Decimal.digitValue c
  if next < mantissaBound then (next, m.2 - 1) else m

def mantissa (n : Numeral) : Nat × Int :=
  (n.fraction.getD []).foldl takeFraction (n.whole.foldl takeWhole (0, 0))

/-- Scales by the powers of `power` that the binary digits of `n` select. -/
def scaleBy (apply : Double → Double → Double) : (digits n : Nat) → (d power : Double) → Double
  | 0, _, d, _ => d
  | k + 1, n, d, power =>
    scaleBy apply k (n / 2) (if n % 2 = 1 then apply d power else d) (power * power)

def ten : Double := ⟨0x4024000000000000⟩

/-- The number `m · 10^e`, a rounding at every step. -/
def scale (m : Nat) (e : Int) : Double :=
  let d := Double.ofUInt64 (UInt64.ofNat m)
  if m = 0 then d else scaleBy (if e < 0 then Double.div else Double.mul) 32 e.natAbs d ten

/-! ## The token -/

/-- The power of ten with the written exponent, or what is wrong with that exponent and how far
the error reaches. -/
def power (n : Numeral) (e : Int) : Except (LexicalError × Nat) Int :=
  match n.exponent with
  | none => .ok e
  | some x =>
    if x.digits.isEmpty then .error (.missingExponent, n.length)
    else
      match bounded Word.greatest.toNat x.digits 0 0 with
      | .error i => .error (.exponentOverflow, n.length - x.digits.length + i)
      | .ok v =>
        let total := if x.sign = some '-' then e - v else e + v
        if (Word.ofInt? total).isSome then .ok total else .error (.exponentOverflow, n.length)

def integer (n : Numeral) : Except (LexicalError × Nat) Token :=
  match bounded Word.greatest.toNat n.whole 0 0 with
  | .error i => .error (.integerOverflow, i + 1)
  | .ok v => .ok (.integer (Int32.ofNat v))

def float (n : Numeral) : Except (LexicalError × Nat) Token :=
  let (m, e) := n.mantissa
  match n.power e with
  | .error x => .error x
  | .ok e =>
    let d := scale m e
    if d.isFinite then .ok (.float d) else .error (.exponentOverflow, n.length)

/-- The token of a numeral, or what is wrong with it and how many characters that concerns. -/
def token (n : Numeral) : Except (LexicalError × Nat) Token :=
  if n.fraction.isNone && n.exponent.isNone then n.integer else n.float

end Numeral

end EventScript
