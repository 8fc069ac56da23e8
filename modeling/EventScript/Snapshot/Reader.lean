import EventScript.Snapshot
import EventScript.Snapshot.Bytes

/-!
# Reading snapshots

`Snapshot.ofBytes` reads a stream that was written for the same module. Whatever the bytes are, a
snapshot that is read fits the module: its states and functions are there and its global
variables have values of their types.
-/

namespace EventScript

abbrev Reader := StateT (List UInt8) (Except StreamError)

namespace Reader

def fail {α : Type} (e : ContentError) : Reader α := throw (.content e)

def bytes (n : Nat) : Reader (List UInt8) := do
  match Bytes.split? n (← get) with
  | some (bs, rest) =>
    set rest
    return bs
  | none => throw .truncated

def nat (width : Nat) : Reader Nat := do return Bytes.toNat (← bytes width)

def byte : Reader UInt8 := do return UInt8.ofNat (← nat 1)

def word : Reader Int32 := do return (UInt32.ofNat (← nat 4)).toInt32

def double : Reader Double := do return ⟨UInt64.ofNat (← nat 8)⟩

def single : Reader Double := do return .ofSingleBits (UInt32.ofNat (← nat 4))

def text : Reader String := do
  let bs ← bytes (← nat 4)
  match String.fromUTF8? bs.toByteArray with
  | some s => return s
  | none => fail .invalidText

def count : Reader Nat := do
  let n ← word
  if n < 0 then fail (.negativeCount n) else return n.toInt.toNat

def expect (t : Tag) : Reader Unit := do
  let b ← byte
  if Tag.ofByte? b = some t then return () else throw (.tag b (some t))

def taggedWord : Reader Int32 := do
  expect .word
  word

def taggedText : Reader String := do
  expect .text
  text

def times {α : Type} (read : Reader α) : Nat → Reader (List α)
  | 0 => return []
  | n + 1 => do
    let a ← read
    return a :: (← times read n)

def entries (read : Reader Value) (es : Entries) : Nat → Reader Entries
  | 0 => return es
  | n + 1 => do
    let k ← read
    let v ← read
    match ArrayKey.ofValue? k with
    | some key => entries read (es.set key v) n
    | none => fail (.arrayKey k.ty?)

/-- A value; `depth` bounds how deep it is nested, and `exhausted` is for what is deeper. -/
def valueOr (exhausted : Reader Value) : (depth : Nat) → Reader Value
  | 0 => exhausted
  | depth + 1 => do
    let b ← byte
    match Tag.ofByte? b with
    | some .null => return .undefined
    | some .bool => return .bool ((← byte) != 0)
    | some .integer | some .word => return .integer (← word)
    | some .float | some .double => return .float (← double)
    | some .single => return .float (← single)
    | some .string | some .text => return .string (← text)
    | some .key => return .key (← text)
    | some .list => return .list (← times (valueOr exhausted depth) (← count))
    | some .vector => return .vector ⟨← double, ← double, ← double⟩
    | some .rotation => return .rotation ⟨← double, ← double, ← double, ← double⟩
    | some .array => return .array (← entries (valueOr exhausted depth) [] (← count))
    | some .eventCode | some .values | some .receiver | none => throw (.tag b none)

abbrev value (depth : Nat) : Reader Value := valueOr (throw .truncated) depth

/-- Values after their number. A value takes more bytes than it has levels, so the bytes that are
left are depth enough. -/
def taggedValues : Reader (List Value) := do
  expect .values
  let n ← count
  let depth := (← get).length
  times (value (depth + 1)) n

def event : Reader Event := do
  expect .eventCode
  let n ← word
  match Event.ofOrdinal? n with
  | some e => return e
  | none => fail (.unknownEvent n)

/-! ## Frames -/

def receiver (index : Nat) : Reader Receiver := do
  expect .receiver
  let n ← word
  if n = 0 then return .script
  else if n = 1 then return .api
  else throw (.frame index (.unknownReceiver n))

def functionIndex (index : Nat) : Reader UInt16 := do
  let n ← taggedWord
  if 0 ≤ n.toInt ∧ n.toInt < 65536 then return UInt16.ofNat n.toInt.toNat
  else throw (.frame index (.functionRange n.toInt))

end Reader

def Frame.scriptError? (m : Module) (f : Frame) : Option FrameError :=
  match m.function? f.function with
  | none => some (.functionRange f.function.toNat)
  | some g =>
    if g.ops.size < f.pc then some (.pastEnd f.pc g.name)
    else if f.locals.length ≠ g.localCount.toNat then
      some (.localCount g.name g.localCount.toNat f.locals.length)
    else none

def Frame.apiError? (f : Frame) (outermost innermost : Bool) : Option FrameError :=
  match ApiFunction.get? f.function with
  | none => some (.apiRange f.function.toNat)
  | some g =>
    if outermost || !innermost then some (.notInnermost g.name)
    else if f.locals.length ≠ g.params.length ∨ f.pc ≠ 0 ∨ !f.operands.isEmpty then
      some (.malformedCall g.name)
    else none

namespace Reader

/-- The frame with an index, counted from the outermost. -/
def frame (m : Module) (index : Nat) (innermost : Bool) : Reader Frame := do
  let receiver ← receiver index
  let function ← functionIndex index
  let pc ← count
  let locals ← taggedValues
  let operands ← taggedValues
  let f : Frame := ⟨receiver, function, pc, locals, operands.reverse⟩
  let error? := match receiver with
    | .script => f.scriptError? m
    | .api => f.apiError? (index == 0) innermost
  match error? with
  | some e => throw (.frame index e)
  | none => return f

/-- The frames from an index on, outermost first; `n` are left. -/
def frames (m : Module) (index : Nat) : (n : Nat) → Reader (List Frame)
  | 0 => return []
  | n + 1 => do
    let f ← frame m index (n == 0)
    return f :: (← frames m (index + 1) n)

/-! ## Snapshots -/

def stateIndex (m : Module) (role : StateRole) (n : Int32) : Reader UInt16 :=
  if 0 ≤ n.toInt ∧ n.toInt < 65536 ∧ n.toInt < m.states.length then
    return UInt16.ofNat n.toInt.toNat
  else fail (.stateRange role n)

def pending (m : Module) : Reader (Option UInt16) := do
  let n ← taggedWord
  if n = -1 then return none else return some (← stateIndex m .pending n)

def phase (m : Module) : Reader Phase := do
  let n ← taggedWord
  if n = -1 then return .handler
  else if n = -2 then return .entering
  else return .exiting (← stateIndex m .target n)

def activity (m : Module) (event : Event) : Reader Activity := do
  let pending ← pending m
  let phase ← phase m
  let fs ← frames m 0 (← count)
  if fs.isEmpty then fail (.noFrames event) else return ⟨pending, phase, fs.reverse⟩

def checkGlobals (m : Module) (globals : List Value) : Reader Unit := do
  if globals.length ≠ m.globals.length then
    fail (.globalCount m.globals.length globals.length)
  else
    (m.globals.zip globals).forM fun (g, v) =>
      if g.ty ≠ .object ∧ v.ty ≠ g.ty then fail (.globalType g.name g.ty v.ty) else return ()

def identityText (name version fingerprint : String) : String :=
  name ++ " v" ++ version ++ " " ++ fingerprint

def checkIdentity (m : Module) : Reader Unit := do
  let name ← taggedText
  let version ← taggedWord
  let fingerprint ← taggedText
  let found := identityText name (toString version.toInt) fingerprint
  let expected := identityText m.name (toString m.version.toNat) m.fingerprintText
  if found = expected then return () else throw (.otherModule expected found)

def body (m : Module) : Reader Snapshot := do
  let state ← taggedWord
  let _ ← stateIndex m .current state
  let event ← event
  if event = .garbage then fail .disposedSource
  let memUsage ← taggedWord
  let memLimit ← taggedWord
  let eventArgs ← taggedValues
  let globals ← taggedValues
  checkGlobals m globals
  let active ← if event = .none then pure none else some <$> activity m event
  if !(← get).isEmpty then fail .trailing
  return { state, event, memUsage, memLimit, eventArgs, globals, active }

def snapshot (m : Module) : Reader Snapshot := do
  let version ← byte
  if version ≠ streamVersion then throw (.version version)
  checkIdentity m
  body m

end Reader

def Snapshot.ofBytes (m : Module) (bs : List UInt8) : Except StreamError Snapshot :=
  (Reader.snapshot m).run' bs

end EventScript
