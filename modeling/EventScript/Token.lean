import EventScript.Constant
import EventScript.Source

/-!
# Tokens

The words and marks of a script. The words of the array extension are keywords only where the
extension has been switched on. The end of the text is not a token: a `TokenStream` has its place
beside the tokens.
-/

namespace EventScript

inductive Keyword where
  | default
  | doLoop
  | elseBranch
  | forLoop
  | ifBranch
  | jump
  | ret
  | state
  | whileLoop
  | foreachLoop
  | within
  | isType
  | undefined
  deriving DecidableEq, Inhabited

namespace Keyword

def core : List Keyword :=
  [default, doLoop, elseBranch, forLoop, ifBranch, jump, ret, state, whileLoop]

def extended : List Keyword :=
  [foreachLoop, within, isType, undefined]

def text : Keyword → String
  | default => "default"
  | doLoop => "do"
  | elseBranch => "else"
  | forLoop => "for"
  | ifBranch => "if"
  | jump => "jump"
  | ret => "return"
  | state => "state"
  | whileLoop => "while"
  | foreachLoop => "foreach"
  | within => "in"
  | isType => "is"
  | undefined => "undef"

def label : Keyword → String
  | default => "Default"
  | doLoop => "Do"
  | elseBranch => "Else"
  | forLoop => "For"
  | ifBranch => "If"
  | jump => "Jump"
  | ret => "Return"
  | state => "State"
  | whileLoop => "While"
  | foreachLoop => "ForEach"
  | within => "In"
  | isType => "Is"
  | undefined => "Undef"

end Keyword

inductive Mark where
  | shlAssign
  | shrAssign
  | le
  | ge
  | eqEq
  | ne
  | plusPlus
  | minusMinus
  | andAnd
  | orOr
  | plusAssign
  | andAssign
  | minusAssign
  | starAssign
  | slashAssign
  | percentAssign
  | orAssign
  | xorAssign
  | shl
  | shr
  | tilde
  | bang
  | atSign
  | percent
  | caret
  | amp
  | star
  | leftParen
  | rightParen
  | minus
  | plus
  | assign
  | leftBrace
  | rightBrace
  | leftBracket
  | rightBracket
  | semicolon
  | colon
  | lt
  | gt
  | comma
  | dot
  | question
  | slash
  | pipe
  deriving DecidableEq, Inhabited

namespace Mark

/-- The marks, longer spellings before the shorter ones that they start with. -/
def all : List Mark :=
  [shlAssign, shrAssign, le, ge, eqEq, ne, plusPlus, minusMinus, andAnd, orOr, plusAssign,
   andAssign, minusAssign, starAssign, slashAssign, percentAssign, orAssign, xorAssign, shl, shr,
   tilde, bang, atSign, percent, caret, amp, star, leftParen, rightParen, minus, plus, assign,
   leftBrace, rightBrace, leftBracket, rightBracket, semicolon, colon, lt, gt, comma, dot,
   question, slash, pipe]

def text : Mark → String
  | shlAssign => "<<="
  | shrAssign => ">>="
  | le => "<="
  | ge => ">="
  | eqEq => "=="
  | ne => "!="
  | plusPlus => "++"
  | minusMinus => "--"
  | andAnd => "&&"
  | orOr => "||"
  | plusAssign => "+="
  | andAssign => "&="
  | minusAssign => "-="
  | starAssign => "*="
  | slashAssign => "/="
  | percentAssign => "%="
  | orAssign => "|="
  | xorAssign => "^="
  | shl => "<<"
  | shr => ">>"
  | tilde => "~"
  | bang => "!"
  | atSign => "@"
  | percent => "%"
  | caret => "^"
  | amp => "&"
  | star => "*"
  | leftParen => "("
  | rightParen => ")"
  | minus => "-"
  | plus => "+"
  | assign => "="
  | leftBrace => "\x7b"
  | rightBrace => "\x7d"
  | leftBracket => "["
  | rightBracket => "]"
  | semicolon => ";"
  | colon => ":"
  | lt => "<"
  | gt => ">"
  | comma => ","
  | dot => "."
  | question => "?"
  | slash => "/"
  | pipe => "|"

def label : Mark → String
  | shlAssign => "ShlAssign"
  | shrAssign => "ShrAssign"
  | le => "Le"
  | ge => "Ge"
  | eqEq => "EqEq"
  | ne => "Ne"
  | plusPlus => "PlusPlus"
  | minusMinus => "MinusMinus"
  | andAnd => "AndAnd"
  | orOr => "OrOr"
  | plusAssign => "PlusAssign"
  | andAssign => "AndAssign"
  | minusAssign => "MinusAssign"
  | starAssign => "StarAssign"
  | slashAssign => "SlashAssign"
  | percentAssign => "PercentAssign"
  | orAssign => "OrAssign"
  | xorAssign => "XorAssign"
  | shl => "Shl"
  | shr => "Shr"
  | tilde => "Tilde"
  | bang => "Bang"
  | atSign => "At"
  | percent => "Percent"
  | caret => "Caret"
  | amp => "Amp"
  | star => "Star"
  | leftParen => "LParen"
  | rightParen => "RParen"
  | minus => "Minus"
  | plus => "Plus"
  | assign => "Assign"
  | leftBrace => "LBrace"
  | rightBrace => "RBrace"
  | leftBracket => "LBracket"
  | rightBracket => "RBracket"
  | semicolon => "Semicolon"
  | colon => "Colon"
  | lt => "Lt"
  | gt => "Gt"
  | comma => "Comma"
  | dot => "Dot"
  | question => "Question"
  | slash => "Slash"
  | pipe => "Pipe"

end Mark

inductive Token where
  | integer (n : Int32)
  | float (d : Double)
  | string (s : String)
  | name (s : String)
  | keyword (k : Keyword)
  | typeName (t : Ty)
  | mark (m : Mark)
  deriving DecidableEq, Inhabited

namespace Token

def asType? : Token → Option Ty
  | typeName t => some t
  | _ => none

def label : Token → String
  | integer _ => "Int"
  | float _ => "Float"
  | string _ => "String"
  | name _ => "Name"
  | keyword k => k.label
  | typeName t => t.label ++ "Ty"
  | mark m => m.label

def describe : Token → String
  | integer n => "Int(" ++ toString n.toInt ++ ")"
  | float d => "Float(" ++ d.describe ++ ")"
  | string s => "String(" ++ Text.quote s ++ ")"
  | name s => "Name(" ++ Text.quote s ++ ")"
  | t => t.label

def endLabel : String := "Eof"

def describe? : Option Token → String
  | some t => t.describe
  | none => endLabel

def coreTypes : List Ty := [.integer, .float, .string, .key, .list, .vector, .rotation]

def extendedTypes : List Ty := [.array, .object]

def ofWord (arrays : Bool) (word : String) : Token :=
  let keywords := if arrays then Keyword.core ++ Keyword.extended else Keyword.core
  let types := if arrays then coreTypes ++ extendedTypes else coreTypes
  match keywords.find? (·.text == word), types.find? (·.name == word) with
  | some k, _ => keyword k
  | none, some t => typeName t
  | none, none => name word

end Token

structure Lexeme where
  token : Token
  span : Span
  position : Position
  deriving DecidableEq, Inhabited

structure TokenStream where
  lexemes : List Lexeme
  finish : Nat × Position
  arrays : Bool
  deriving DecidableEq, Inhabited

def TokenStream.endSpan (t : TokenStream) : Span := ⟨t.finish.1, t.finish.1⟩

end EventScript
