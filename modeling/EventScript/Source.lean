/-!
# Places in a source text

A `Span` is a range of byte offsets in the UTF-8 source. Positions count lines and columns from
one. Two readings of an offset are in use: `position` walks the characters and counts columns in
characters; a `LineTable` holds the offset at which each line starts and counts columns in bytes.
-/

namespace EventScript

structure Span where
  start : Nat
  stop : Nat
  deriving DecidableEq, Inhabited

def Span.merge (a b : Span) : Span := ⟨min a.start b.start, max a.stop b.stop⟩

structure Position where
  line : Nat
  column : Nat
  deriving DecidableEq, Inhabited

namespace Source

def byteLength : List Char → Nat
  | [] => 0
  | c :: cs => c.utf8Size + byteLength cs

/-- Walks to `offset` from the characters at offset `i`, where the position is `here`. -/
def walk (offset : Nat) : List Char → Nat → Position → Position
  | [], _, here => here
  | c :: cs, i, here =>
    if offset ≤ i then here
    else walk offset cs (i + c.utf8Size)
      (if c = '\n' then ⟨here.line + 1, 1⟩ else ⟨here.line, here.column + 1⟩)

def position (source : String) (offset : Nat) : Position :=
  walk offset source.toList 0 ⟨1, 1⟩

/-- The offsets after the newlines of a text that starts at offset `i`. -/
def startsAfter : List Char → Nat → List Nat
  | [], _ => []
  | c :: cs, i =>
    let next := i + c.utf8Size
    if c = '\n' then next :: startsAfter cs next else startsAfter cs next

end Source

structure LineTable where
  starts : List Nat

namespace LineTable

def ofSource (source : String) : LineTable := ⟨0 :: Source.startsAfter source.toList 0⟩

def position (t : LineTable) (offset : Nat) : Position :=
  let upTo := t.starts.takeWhile (· ≤ offset)
  ⟨upTo.length, offset - upTo.getLastD 0 + 1⟩

end LineTable

end EventScript
