import EventScript.Json

/-!
# Reading documents

`Json.read?` reads a text that is one document with nothing but blanks around it.
-/

namespace EventScript.Json

def isBlank (c : Char) : Bool := c == ' ' || c == '\n' || c == '\t' || c == '\r'

def skipBlanks (cs : List Char) : List Char := cs.dropWhile isBlank

def expect? : List Char → List Char → Option (List Char)
  | [], cs => some cs
  | c :: word, d :: cs => if c = d then expect? word cs else none
  | _ :: _, [] => none

/-! ## Strings -/

/-- A piece of a string: a character, or a number that an escape gives. -/
inductive Piece where
  | char (c : Char)
  | unit (n : Nat)

def hexValue? (c : Char) : Option Nat :=
  if c.isDigit then some (c.toNat - '0'.toNat)
  else if 'a' ≤ c ∧ c ≤ 'f' then some (c.toNat - 'a'.toNat + 10)
  else if 'A' ≤ c ∧ c ≤ 'F' then some (c.toNat - 'A'.toNat + 10)
  else none

def unit? (a b c d : Char) : Option Nat := do
  return (((← hexValue? a) * 16 + (← hexValue? b)) * 16 + (← hexValue? c)) * 16 + (← hexValue? d)

def escaped? (c : Char) : Option Char :=
  match c with
  | '"' => some '"'
  | '\\' => some '\\'
  | '/' => some '/'
  | 'b' => some '\x08'
  | 'f' => some '\x0c'
  | 'n' => some '\n'
  | 'r' => some '\r'
  | 't' => some '\t'
  | _ => none

def pieces? : List Char → Option (List Piece × List Char)
  | [] => none
  | '"' :: cs => some ([], cs)
  | '\\' :: 'u' :: a :: b :: c :: d :: cs => do
    let n ← unit? a b c d
    let (ps, rest) ← pieces? cs
    return (.unit n :: ps, rest)
  | '\\' :: c :: cs => do
    let c ← escaped? c
    let (ps, rest) ← pieces? cs
    return (.char c :: ps, rest)
  | c :: cs =>
    if c.toNat < 32 ∨ c = '\\' then none
    else do
      let (ps, rest) ← pieces? cs
      return (.char c :: ps, rest)

def isLeading (n : Nat) : Bool := decide (0xD800 ≤ n ∧ n < 0xDC00)

def isTrailing (n : Nat) : Bool := decide (0xDC00 ≤ n ∧ n < 0xE000)

/-- The text of pieces, unless there is half of a surrogate pair among them. -/
def join? : List Piece → Option (List Char)
  | [] => some []
  | .char c :: ps => (join? ps).map (c :: ·)
  | .unit n :: .unit k :: ps =>
    if isLeading n then
      if isTrailing k then
        (join? ps).map (Char.ofNat (0x10000 + (n - 0xD800) * 0x400 + (k - 0xDC00)) :: ·)
      else none
    else if isTrailing n then none
    else (join? (.unit k :: ps)).map (Char.ofNat n :: ·)
  | .unit n :: ps =>
    if isLeading n || isTrailing n then none else (join? ps).map (Char.ofNat n :: ·)

def string? (cs : List Char) : Option (Option String × List Char) := do
  let (ps, rest) ← pieces? cs
  return ((join? ps).map String.ofList, rest)

/-! ## Documents -/

mutual

/-- A document after blanks. Every call takes one from the fuel. -/
def value? : Nat → List Char → Option (Json × List Char)
  | 0, _ => none
  | fuel + 1, cs =>
    match skipBlanks cs with
    | [] => none
    | '"' :: cs => (string? cs).map fun (s, rest) => (string s, rest)
    | '[' :: cs =>
      match skipBlanks cs with
      | ']' :: rest => some (array [], rest)
      | cs => (items? fuel cs).map fun (js, rest) => (array js, rest)
    | '\x7b' :: cs =>
      match skipBlanks cs with
      | '\x7d' :: rest => some (object [], rest)
      | cs => (fields? fuel cs).map fun (fs, rest) => (object fs, rest)
    | 'n' :: cs => (expect? "ull".toList cs).map fun rest => (null, rest)
    | 't' :: cs => (expect? "rue".toList cs).map fun rest => (bool true, rest)
    | 'f' :: cs => (expect? "alse".toList cs).map fun rest => (bool false, rest)
    | cs => (Numeral.scan? cs).map fun (n, rest) => (number n, rest)

def items? : Nat → List Char → Option (List Json × List Char)
  | 0, _ => none
  | fuel + 1, cs => do
    let (j, cs) ← value? fuel cs
    match skipBlanks cs with
    | ']' :: rest => return ([j], rest)
    | ',' :: cs =>
      let (js, rest) ← items? fuel cs
      return (j :: js, rest)
    | _ => none

def fields? : Nat → List Char → Option (List (Option String × Json) × List Char)
  | 0, _ => none
  | fuel + 1, cs => do
    let cs ← expect? ['"'] (skipBlanks cs)
    let (k, cs) ← string? cs
    let cs ← expect? [':'] (skipBlanks cs)
    let (v, cs) ← value? fuel cs
    match skipBlanks cs with
    | '\x7d' :: rest => return ([(k, v)], rest)
    | ',' :: cs =>
      let (fs, rest) ← fields? fuel cs
      return ((k, v) :: fs, rest)
    | _ => none

end

/-- The document that is spelled. A call of `value?`, `items?` or `fields?` inside another one
starts after at least one more character, except for a first item, so twice the length is fuel
enough. -/
def document? (cs : List Char) : Option Json := do
  let (j, rest) ← value? (2 * cs.length + 2) cs
  if (skipBlanks rest).isEmpty then return j else none

def read? (text : String) : Option Json := document? text.toList

end EventScript.Json
