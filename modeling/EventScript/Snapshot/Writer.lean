import EventScript.Host
import EventScript.Snapshot
import EventScript.Snapshot.Bytes

/-!
# Writing snapshots

A snapshot is a list of writes, each of which a sink takes, or refuses after a part of it.
`Snapshot.send` writes a snapshot to a sink and flushes it.
-/

namespace EventScript

/-- A write, or a place where writing cannot go on. -/
inductive Chunk where
  | bytes (bs : List UInt8)
  | stuck (reason : String)
  deriving DecidableEq

namespace Chunk

def tag (t : Tag) : Chunk := bytes [t.byte]

def word (n : Int32) : Chunk := bytes (Bytes.ofNat 4 n.toUInt32.toNat)

def double (d : Double) : Chunk := bytes (Bytes.ofNat 8 d.bits.toNat)

def count (n : Nat) : Chunk :=
  if n < 0x80000000 then bytes (Bytes.ofNat 4 n) else stuck "collection too large"

def text (s : String) : List Chunk :=
  let bs := s.toUTF8.toList
  if bs.length < 0x100000000 then [bytes (Bytes.ofNat 4 bs.length), bytes bs]
  else [stuck "string too long"]

def taggedWord (n : Int32) : List Chunk := [tag .word, word n]

def taggedText (s : String) : List Chunk := tag .text :: text s

def arrayKey : ArrayKey → List Chunk
  | .integer n => [tag .integer, word n]
  | .float d => [tag .float, double d]
  | .string s => tag .string :: text s
  | .key s => tag .key :: text s
  | .vector v => tag .vector :: v.toList.map double
  | .rotation q => tag .rotation :: q.toList.map double

mutual

def value : Value → List Chunk
  | .undefined => [tag .null]
  | .bool b => [tag .bool, bytes [if b then 1 else 0]]
  | .integer n => [tag .integer, word n]
  | .float d => [tag .float, double d]
  | .string s => tag .string :: text s
  | .key s => tag .key :: text s
  | .list vs => tag .list :: count vs.length :: values vs
  | .vector v => tag .vector :: v.toList.map double
  | .rotation q => tag .rotation :: q.toList.map double
  | .array es => tag .array :: count es.length :: entries es

def values : List Value → List Chunk
  | [] => []
  | v :: vs => value v ++ values vs

def entries : List (ArrayKey × Value) → List Chunk
  | [] => []
  | (k, v) :: es => arrayKey k ++ (value v ++ entries es)

end

def taggedValues (vs : List Value) : List Chunk := tag .values :: count vs.length :: values vs

end Chunk

def Receiver.code : Receiver → Int32
  | script => 0
  | api => 1

def Phase.code : Phase → Int32
  | handler => -1
  | entering => -2
  | exiting next => Int32.ofNat next.toNat

/-- A frame; operands are written from the bottom. -/
def Frame.chunks (f : Frame) : List Chunk :=
  [.tag .receiver, .word f.receiver.code] ++ Chunk.taggedWord (Int32.ofNat f.function.toNat) ++
    [.count f.pc] ++ Chunk.taggedValues f.locals ++ Chunk.taggedValues f.operands.reverse

/-- A running handler; frames are written from the outermost. -/
def Activity.chunks (a : Activity) : List Chunk :=
  Chunk.taggedWord ((a.pending.map fun s => Int32.ofNat s.toNat).getD (-1)) ++
    Chunk.taggedWord a.phase.code ++
    (.count a.frames.length :: a.frames.reverse.flatMap Frame.chunks)

def Module.identityChunks (m : Module) : List Chunk :=
  Chunk.taggedText m.name ++ Chunk.taggedWord (Word.clamp m.version.toNat) ++
    Chunk.taggedText m.fingerprintText

namespace Snapshot

def chunks (m : Module) (s : Snapshot) : List Chunk :=
  .bytes [streamVersion] :: (m.identityChunks ++ Chunk.taggedWord s.state ++
    [.tag .eventCode, .word s.event.ordinal] ++ Chunk.taggedWord s.memUsage ++
    Chunk.taggedWord s.memLimit ++ Chunk.taggedValues s.eventArgs ++
    Chunk.taggedValues s.globals ++ (s.active.map Activity.chunks).getD [])

end Snapshot

structure Delivery where
  sink : Nat
  bytes : List UInt8
  error : Option StreamError

namespace Sink

/-- Writes chunks until one is refused, and flushes the sink after the last; `taken` are the bytes
that the sink has, last first. A chunk of nothing is not written. -/
def take (s : Sink) (taken : List UInt8) : List Chunk → List UInt8 × Option StreamError
  | [] => (taken, (s.refuses taken []).map fun r => .refused r.reason)
  | .stuck reason :: _ => (taken, some (.refused reason))
  | .bytes [] :: cs => take s taken cs
  | .bytes (b :: bs) :: cs =>
    match s.refuses taken (b :: bs) with
    | some r => (((b :: bs).take (min r.taken bs.length)).reverse ++ taken, some (.refused r.reason))
    | none => take s ((b :: bs).reverse ++ taken) cs

end Sink

def Snapshot.send (m : Module) (s : Snapshot) (sink : Sink) : Delivery :=
  let (taken, error) := sink.take [] (s.chunks m)
  ⟨sink.id, taken.reverse, error⟩

end EventScript
