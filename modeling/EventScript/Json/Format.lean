import EventScript.Double
import EventScript.Word

/-!
# Formats

A `Format` stores plain data as text. It makes documents of data and prints them, and it reads
documents and takes them apart. What is stored is put together from its parts, so nothing else
depends on how documents look; `Json.format` is the one that is used.
-/

namespace EventScript

structure Format where
  Doc : Type
  null : Doc
  bool : Bool → Doc
  integer : Int → Doc
  double : Double → Doc
  text : String → Doc
  array : List Doc → Doc
  record : List (String × Doc) → Doc
  isNull : Doc → Bool
  bool? : Doc → Option Bool
  /-- An integer between two bounds. -/
  integer? (least greatest : Int) : Doc → Option Int
  double? : Doc → Option Double
  text? : Doc → Option String
  items? : Doc → Option (List Doc)
  /-- The fields of a record by their names, without those that are missing. -/
  partialRecord? (names : List String) : Doc → Option (List (Option Doc))
  /-- The name of a variant, and what goes with it. -/
  variant? : Doc → Option (String × Option Doc)
  print : Doc → String
  read? : String → Option Doc

namespace Format

variable (F : Format) {α β : Type}

def nat (n : Nat) : F.Doc := F.integer n

/-- A variant with what goes with it. One with nothing is its name. -/
def tagged (name : String) (contents : F.Doc) : F.Doc := F.record [(name, contents)]

def nat? (bound : Nat) (d : F.Doc) : Option Nat := (F.integer? 0 (bound - 1) d).map Int.toNat

def uint16? (d : F.Doc) : Option UInt16 := (F.nat? (1 <<< 16) d).map UInt16.ofNat

def uint32? (d : F.Doc) : Option UInt32 := (F.nat? (1 <<< 32) d).map UInt32.ofNat

def uint64? (d : F.Doc) : Option UInt64 := (F.nat? (1 <<< 64) d).map UInt64.ofNat

def int32? (d : F.Doc) : Option Int32 :=
  (F.integer? Word.least Word.greatest d).map Int32.ofInt

def list? (read : F.Doc → Option α) (d : F.Doc) : Option (List α) := do (← F.items? d).mapM read

def optional? (read : F.Doc → Option α) (d : F.Doc) : Option (Option α) :=
  if F.isNull d then some none else (read d).map some

def record? (names : List String) (d : F.Doc) : Option (List F.Doc) := do
  (← F.partialRecord? names d).mapM id

/-- A variant with nothing, which can also be spelled `null`. -/
def plain? (a : α) : Option F.Doc → Option α
  | none => some a
  | some d => if F.isNull d then some a else none

def holding? (make : α → β) (read : F.Doc → Option α) (contents : Option F.Doc) : Option β := do
  return make (← read (← contents))

def name? (ofName? : String → Option α) (d : F.Doc) : Option α := do
  let (name, contents) ← F.variant? d
  F.plain? (← ofName? name) contents

end Format

end EventScript
