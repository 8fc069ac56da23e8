import EventScript.Json

/-!
# Text of documents

`Json.pretty` writes a document with one item or field on a line, each level indented by two
blanks.
-/

namespace EventScript.Json

def escapeChar (c : Char) : List Char :=
  match c with
  | '"' => ['\\', '"']
  | '\\' => ['\\', '\\']
  | '\n' => ['\\', 'n']
  | '\r' => ['\\', 'r']
  | '\t' => ['\\', 't']
  | '\x08' => ['\\', 'b']
  | '\x0c' => ['\\', 'f']
  | c => if c.toNat < 32 then '\\' :: 'u' :: (Word.hex 4 c.toNat).toList else [c]

def quoted (s : String) : List Char := '"' :: s.toList.flatMap escapeChar ++ ['"']

def newline (level : Nat) : List Char := '\n' :: List.replicate (2 * level) ' '

def bracketed (left right : Char) (level : Nat) (lines : List (List Char)) : List Char :=
  if lines.isEmpty then [left, right]
  else
    left :: newline (level + 1) ++ (',' :: newline (level + 1)).intercalate lines ++
      newline level ++ [right]

mutual

def write (level : Nat) : Json → List Char
  | null => ['n', 'u', 'l', 'l']
  | bool b => if b then ['t', 'r', 'u', 'e'] else ['f', 'a', 'l', 's', 'e']
  | number spelling => spelling
  | string s => quoted (s.getD "")
  | array items => bracketed '[' ']' level (writeItems (level + 1) items)
  | object fields => bracketed '\x7b' '\x7d' level (writeFields (level + 1) fields)

def writeItems (level : Nat) : List Json → List (List Char)
  | [] => []
  | j :: js => write level j :: writeItems level js

def writeFields (level : Nat) : List (Option String × Json) → List (List Char)
  | [] => []
  | (k, v) :: fields => (quoted (k.getD "") ++ ':' :: ' ' :: write level v) :: writeFields level fields

end

def pretty (j : Json) : String := String.ofList (j.write 0)

end EventScript.Json
