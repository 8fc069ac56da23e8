import EventScript.Json.Numeral

/-!
# JSON documents

A document keeps numbers as they are spelled, since whether a spelling is an integer or in range
depends on what reads it. Likewise a string that no text spells, because an escape in it is half
of a surrogate pair, is an error only where its text is wanted.
-/

namespace EventScript

/-- A document. A string without a text has half of a surrogate pair in it. -/
inductive Json where
  | null
  | bool (b : Bool)
  | number (spelling : List Char)
  | string (text : Option String)
  | array (items : List Json)
  | object (fields : List (Option String × Json))
  deriving Inhabited

namespace Json

def text (s : String) : Json := string (some s)

def integer (n : Int) : Json := number (toString n).toList

def nat (n : Nat) : Json := integer n

/-- A floating-point number; one that is not finite becomes `null`. -/
def double (d : Double) : Json :=
  if d.isFinite then number (Numeral.layout.render d).toList else null

def record (fields : List (String × Json)) : Json := object (fields.map fun (k, v) => (some k, v))

end Json

end EventScript
