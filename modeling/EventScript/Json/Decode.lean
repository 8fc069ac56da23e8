import EventScript.Json.Format
import EventScript.Json.Parser
import EventScript.Json.Printer

/-!
# Contents of documents

Readings of a document as a value of a type. A record is an object, or an array of its fields in
order. A choice between variants is the name of the variant, or an object whose one field is the
name of the variant and holds what goes with it.
-/

namespace EventScript.Json

def integer? (least greatest : Int) : Json → Option Int
  | number spelling => do
    let n ← Numeral.integer? spelling
    if least ≤ n ∧ n ≤ greatest then return n else none
  | _ => none

def double? : Json → Option Double
  | number spelling => Numeral.double? spelling
  | _ => none

def bool? : Json → Option Bool
  | bool b => some b
  | _ => none

def text? : Json → Option String
  | string s => s
  | _ => none

def values? : Json → Option (List Json)
  | array items => some items
  | _ => none

def isNull : Json → Bool
  | null => true
  | _ => false

/-! ## Records -/

def fieldValues (fields : List (Option String × Json)) (name : String) : List Json :=
  fields.filterMap fun (k, v) => if k = some name then some v else none

def field? (fields : List (Option String × Json)) (name : String) : Option (Option Json) :=
  match fieldValues fields name with
  | [] => some none
  | [v] => some (some v)
  | _ => none

/-- The fields of a record by their names, without those that are missing. Other fields are
passed over. -/
def partialRecord? (names : List String) : Json → Option (List (Option Json))
  | object fields =>
    if fields.all fun f => f.1.isSome then names.mapM (field? fields) else none
  | array items =>
    if items.length ≤ names.length then
      some (items.map some ++ List.replicate (names.length - items.length) none)
    else none
  | _ => none

/-! ## Variants -/

def variant? : Json → Option (String × Option Json)
  | string s => s.map fun s => (s, none)
  | object [(some k, v)] => some (k, some v)
  | _ => none

/-- Data as it is stored in documents. -/
def format : Format where
  Doc := Json
  null := null
  bool := bool
  integer := integer
  double := double
  text := text
  array := array
  record := record
  isNull := isNull
  bool? := bool?
  integer? := integer?
  double? := double?
  text? := text?
  items? := values?
  partialRecord? := partialRecord?
  variant? := variant?
  print := pretty
  read? := read?

end EventScript.Json
