/-!
# Shortest decimals

The numbers that round to a floating-point number fill an interval around it. `Decimal.shortest`
finds the coarsest decimal grid with a point in that interval, so the decimal has the fewest
digits that still read back, and takes the nearest such point. A number half way between two
points is settled by a `Tie` rule.
-/

namespace EventScript.Decimal

inductive Tie where
  | up
  | toEven
  deriving DecidableEq

/-- Whether `a / b`, with whole part `c`, goes to `c + 1`. -/
def Tie.roundsUp (tie : Tie) (a b c : Nat) : Bool :=
  let twice := 2 * (a - c * b)
  decide (b < twice) ||
    (decide (twice = b) && match tie with
      | .up => true
      | .toEven => c % 2 == 1)

/-- A scaled number together with the interval that rounds to it: each of `low`, `value` and
`high` is over `denominator`. -/
structure Interval where
  low : Nat
  value : Nat
  high : Nat
  denominator : Nat
  /-- The ends belong to the interval. -/
  closed : Bool

/-- The interval of `m · 2^q`. Below a power of two the gap is half as wide. -/
def Interval.of (m : Nat) (q : Int) : Interval :=
  let gap := if m = 1 <<< 52 ∧ -1074 < q then 1 else 2
  let up := (q - 2).toNat
  { low := (4 * m - gap) <<< up
    value := (4 * m) <<< up
    high := (4 * m + 2) <<< up
    denominator := 1 <<< (2 - q).toNat
    closed := m % 2 == 0 }

/-- `c` grid units of size `unit` lie in the interval whose ends are scaled by `scale`. -/
def Interval.contains (iv : Interval) (scale unit c : Nat) : Bool :=
  let x := c * unit
  if iv.closed then decide (iv.low * scale ≤ x) && decide (x ≤ iv.high * scale)
  else decide (iv.low * scale < x) && decide (x < iv.high * scale)

/-- The point of the grid of step `10^p` in the interval that is nearest to the value. -/
def Interval.onGrid? (iv : Interval) (tie : Tie) (p : Int) : Option Nat :=
  let scale := Nat.pow 10 (-p).toNat
  let unit := iv.denominator * Nat.pow 10 p.toNat
  let c := iv.value * scale / unit
  match iv.contains scale unit c, iv.contains scale unit (c + 1) with
  | true, true => some (if tie.roundsUp (iv.value * scale) unit c then c + 1 else c)
  | true, false => some c
  | false, true => some (c + 1)
  | false, false => none

/-- Tries grids of step `10^p`, `10^(p-1)`, … in turn. -/
def Interval.firstHit (iv : Interval) (tie : Tie) : Nat → Int → Nat × Int
  | 0, p => (0, p)
  | n + 1, p =>
    match iv.onGrid? tie p with
    | some c => (c, p)
    | none => iv.firstHit tie n (p - 1)

/-- The whole number `c` and exponent `p` of the shortest decimal `c · 10^p` for `m · 2^q`.
The first grid tried is coarser than the number, the last finer than seventeen digits. -/
def shortest (tie : Tie) (m : Nat) (q : Int) : Nat × Int :=
  let start := ((m.log2 : Int) + q) * 30103 / 100000 + 2
  (Interval.of m q).firstHit tie 22 start

end EventScript.Decimal
