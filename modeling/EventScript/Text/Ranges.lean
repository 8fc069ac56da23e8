/-!
# Sets of characters

A set of characters is a list of closed ranges of code points in ascending order.
-/

namespace EventScript.Text

abbrev Ranges := List (Nat × Nat)

/-- Ranges from the given code point on. The distance to the one before and the number of its
characters are given for each in turn. -/
def Ranges.ofGaps (n : Nat) : List Nat → Ranges
  | gap :: count :: rest => (n + gap, n + gap + count - 1) :: ofGaps (n + gap + count) rest
  | _ => []

def Ranges.mem (r : Ranges) (c : Char) : Bool :=
  r.any fun (lo, hi) => decide (lo ≤ c.toNat) && decide (c.toNat ≤ hi)

end EventScript.Text
