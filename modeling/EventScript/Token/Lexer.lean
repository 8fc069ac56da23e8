import EventScript.Token.Numeral

/-!
# From text to tokens

`TokenStream.ofSource` cuts a text into tokens. `read` looks at the bytes in front of it and says
how many belong together and what they are: a gap, a token or something faulty. What it looks for is
ASCII. The text is cut behind them, and so are the texts of words and strings, which fails within a
character. The `Scanner` moves over the bytes, gives every piece its place and collects tokens and
errors. The words `XMROption arrays;` are taken out of the stream and switch the array extension on.
-/

namespace EventScript

namespace Source

/-- A byte of a text, as the character with its number. -/
abbrev Byte := Char

def bytes (text : List Char) : List Byte :=
  text.flatMap fun c => (String.utf8EncodeChar c).map Char.ofUInt8

/-- A text up to an offset and from there on, unless that is within a character. -/
def split? (offset : Nat) : List Char → Option (List Char × List Char)
  | [] => if offset = 0 then some ([], []) else none
  | c :: cs =>
    if offset = 0 then some ([], c :: cs)
    else if c.utf8Size ≤ offset then
      (split? (offset - c.utf8Size) cs).map fun (before, behind) => (c :: before, behind)
    else none

end Source

namespace Lexer

open Source (Byte)

/-- What a piece of text is. An error goes with the number of bytes that it concerns. -/
inductive Item where
  | gap
  | token (t : Token)
  | faulty (problems : List (LexicalError × Nat))

/-- A piece of text: its number of bytes and what it is. -/
structure Reading where
  length : Nat
  item : Item

/-! ## Pieces -/

def isNameStart (c : Byte) : Bool := c.isAlpha || c == '_'

def isNameChar (c : Byte) : Bool := c.isAlphanum || c == '_'

/-- The number of bytes up to the end of a block comment, from after its start. -/
def commentLength? : List Byte → Option Nat
  | [] => none
  | '*' :: '/' :: _ => some 2
  | _ :: cs => (commentLength? cs).map (· + 1)

/-- How a string ends. -/
inductive Ending where
  | closed
  | lineEnd
  | textEnd
  deriving DecidableEq

/-- The number of bytes of a string from after its opening quote, and how it ends. A quote after a
backslash, unless that is itself escaped, does not close the string. -/
def stringBody : (escaped : Bool) → List Byte → Nat × Ending
  | _, [] => (0, .textEnd)
  | escaped, c :: cs =>
    if c = '\\' then
      let (size, ending) := stringBody (!escaped) cs
      (size + 1, ending)
    else if c = '\n' then (0, .lineEnd)
    else if !escaped && c == '"' then (0, .closed)
    else
      let (size, ending) := stringBody false cs
      (size + 1, ending)

/-- The characters that a string stands for. -/
def unescape : List Char → List Char
  | [] => []
  | '\\' :: 'n' :: cs => '\n' :: unescape cs
  | '\\' :: 't' :: cs => '\t' :: unescape cs
  | '\\' :: c :: cs => c :: unescape cs
  | c :: cs => c :: unescape cs

def readString (text : List Char) (cs : List Byte) : Option Reading :=
  let (size, ending) := stringBody false cs
  let cut := match ending with
    | .closed => []
    | .lineEnd => [(LexicalError.stringOffLine, size + 1)]
    | .textEnd => [(LexicalError.unterminatedString, size + 1)]
  let long := if maxStringLength < size then [(LexicalError.stringTooLong, size + 1)] else []
  let length := size + if ending = .closed then 2 else 1
  (Source.split? (size + 1) text).map fun (quoted, _) =>
    match cut ++ long with
    | [] => ⟨length, .token (.string (String.ofList (unescape quoted.tail)))⟩
    | problems => ⟨length, .faulty problems⟩

def readNumeral (cs : List Byte) : Reading :=
  let n := Numeral.split cs
  match n.token with
  | .ok t => ⟨n.length, .token t⟩
  | .error e => ⟨n.length, .faulty [e]⟩

def readWord (arrays : Bool) (text : List Char) (cs : List Byte) : Option Reading :=
  let size := (cs.takeWhile isNameChar).length
  if maxNameLength < size then some ⟨size, .faulty [(.nameTooLong, size)]⟩
  else (Source.split? size text).map fun (word, _) =>
    ⟨size, .token (Token.ofWord arrays (String.ofList word))⟩

def readMark (text : List Char) (cs : List Byte) : Reading :=
  match Mark.all.find? fun m => m.text.toList.isPrefixOf cs with
  | some m => ⟨m.text.length, .token (.mark m)⟩
  | none =>
    let c := text.headD '?'
    ⟨c.utf8Size, .faulty [(.unknownCharacter c, c.utf8Size)]⟩

def readComment (cs : List Byte) : Reading :=
  match commentLength? cs with
  | some n => ⟨n + 2, .gap⟩
  | none => ⟨cs.length + 2, .faulty [(.unterminatedComment, cs.length + 2)]⟩

/-- The piece at the start of a text, whose bytes are given. -/
def read (arrays : Bool) (text : List Char) (c : Byte) (cs : List Byte) : Option Reading :=
  if c ≤ ' ' then some ⟨1, .gap⟩
  else if c = '/' ∧ cs.head? = some '/' then
    some ⟨((c :: cs).takeWhile (· ≠ '\n')).length, .gap⟩
  else if c = '/' ∧ cs.head? = some '*' then some (readComment cs.tail)
  else if c.isDigit then some (readNumeral (c :: cs))
  else if c = '"' then readString text cs
  else if isNameStart c then readWord arrays text (c :: cs)
  else some (readMark text (c :: cs))

/-! ## Moving over the bytes -/

/-- The text that is left and its bytes, and the place where they start. -/
structure Cursor where
  text : List Char
  rest : List Byte
  offset : Nat
  line : Nat
  lineStart : Nat

namespace Cursor

/-- The next byte is passed. -/
def next (c : Cursor) : Cursor :=
  match c.rest with
  | [] => c
  | b :: rest =>
    let offset := c.offset + 1
    if b = '\n' then ⟨c.text, rest, offset, c.line + 1, offset⟩
    else ⟨c.text, rest, offset, c.line, c.lineStart⟩

def skip : Nat → Cursor → Cursor
  | 0, c => c
  | n + 1, c => skip n c.next

/-- So many bytes are passed, unless that ends within a character. -/
def move? (n : Nat) (c : Cursor) : Option Cursor :=
  (Source.split? n c.text).map fun (_, text) => { c.skip n with text }

def positionOf (c : Cursor) (offset : Nat) : Position := ⟨c.line, offset - c.lineStart + 1⟩

end Cursor

/-- A place in the text and what was found before it, the last first. -/
structure Scanner where
  cursor : Cursor
  found : List Lexeme
  errors : List Diagnostic
  arrays : Bool

namespace Scanner

/-- The words that switch the array extension on have just been read, except for the semicolon. -/
def atPragma (s : Scanner) : Bool :=
  match s.found with
  | a :: x :: _ => a.token == .name "arrays" && x.token == .name "XMROption"
  | _ => false

def accept (s : Scanner) (start : Nat) (t : Token) : Scanner :=
  if t == .mark .semicolon && s.atPragma then
    { s with found := s.found.drop 2, arrays := true }
  else
    { s with found := ⟨t, ⟨start, s.cursor.offset⟩, s.cursor.positionOf start⟩ :: s.found }

def complain (s : Scanner) (start : Nat) (problems : List (LexicalError × Nat)) : Scanner :=
  let errors := problems.map fun (e, size) =>
    (⟨.lexical e, ⟨start, start + size⟩, some (s.cursor.positionOf start)⟩ : Diagnostic)
  { s with errors := errors.reverse ++ s.errors }

/-- The piece in front of the scanner is passed. -/
def take? (s : Scanner) (reading : Reading) : Option Scanner :=
  (s.cursor.move? reading.length).map fun cursor =>
    match reading.item with
    | .gap => { s with cursor }
    | .token t => { s with cursor }.accept s.cursor.offset t
    | .faulty problems => { s with cursor }.complain s.cursor.offset problems

def step? (s : Scanner) : Option Scanner :=
  match s.cursor.rest with
  | [] => some s
  | c :: cs => (read s.arrays s.cursor.text c cs).bind s.take?

def steps? : Nat → Scanner → Option Scanner
  | 0, s => some s
  | n + 1, s => s.step?.bind (steps? n)

def start (text : List Char) : Scanner := ⟨⟨text, Source.bytes text, 0, 1, 0⟩, [], [], false⟩

/-- The tokens that were found, or the errors. -/
def result (s : Scanner) : Except (List Diagnostic) TokenStream :=
  match s.errors with
  | [] => .ok ⟨s.found.reverse, (s.cursor.offset, s.cursor.positionOf s.cursor.offset), s.arrays⟩
  | errors => .error errors.reverse

end Scanner

/-- The tokens of a text, unless a character is cut. Every piece has a byte, so there are at most as
many pieces as bytes. -/
def scan? (text : List Char) : Option (Except (List Diagnostic) TokenStream) :=
  (Scanner.steps? (Source.byteLength text) (.start text)).map Scanner.result

end Lexer

namespace TokenStream

def ofChars (text : List Char) : Except (List Diagnostic) TokenStream :=
  (Lexer.scan? text).getD (.error [])

def ofSource (source : String) : Except (List Diagnostic) TokenStream := ofChars source.toList

end TokenStream

end EventScript
