import EventScript.Command.Arguments
import EventScript.Host.Recording

/-!
# Execution of commands

`Invocation.outcome` says what a command prints and writes, given the files around it. Scripts need
not end, so there is no outcome if `fuel` is used up.
-/

namespace EventScript

/-- A result, an error, or neither if the fuel is used up. -/
abbrev Attempt := ExceptT CommandError Option

namespace Attempt

def outOfFuel {α : Type} : Attempt α := ExceptT.mk none

def ofExcept {ε α : Type} (wrap : ε → CommandError) : Except ε α → Attempt α
  | .ok a => pure a
  | .error e => throw (wrap e)

def ofOption {α : Type} : Option α → Attempt α
  | some a => pure a
  | none => outOfFuel

def ofError {ε : Type} (wrap : ε → CommandError) : Option ε → Attempt Unit
  | none => pure ()
  | some e => throw (wrap e)

end Attempt

namespace Invocation

def settings (inv : Invocation) (files : Files) : Except SettingsError Settings := do
  let s ← match inv.config with
    | some path => Settings.load (files.read path)
    | none => pure {}
  return match inv.memoryLimit with
    | some memoryLimit => { s with memoryLimit }
    | none => s

end Invocation

namespace Command

def loadModule (files : Files) (path : String) : Except CommandError Module := do
  let text ← (files.read path).mapError .file
  if Path.extension? path = some "json" then (Module.ofText text).mapError .module
  else (Module.ofSource text ((Path.stem? path).getD "script")).mapError .compile

/-! ## Events -/

def splitAt (separator : Char) : List Char → List (List Char)
  | [] => [[]]
  | c :: cs =>
    match splitAt separator cs with
    | [] => [[c]]
    | p :: ps => if c = separator then [] :: p :: ps else (c :: p) :: ps

/-- An argument of an event, converted to the type of the parameter. -/
def argument (text : List Char) (ty : Ty) : Except CommandError Value :=
  ((Value.string (String.ofList (Text.trim text))).cast ty).mapError .argument

/-- An event with its arguments, from `name` or `name:argument;argument`. -/
def parseEvent (text : String) : Except CommandError (Event × List Value) := do
  let cs := text.toList
  let name := cs.takeWhile (· ≠ ':')
  let rest := (cs.dropWhile (· ≠ ':')).drop 1
  match Event.ofName? (String.ofList (Text.trim name)) with
  | none => throw (.unknownEvent (String.ofList name))
  | some event =>
    let raw := if rest.isEmpty then [] else splitAt ';' rest
    let sig := event.signature
    if raw.length ≠ sig.length then
      throw (.eventArgs (String.ofList name) sig.length raw.length)
    return (event, ← (raw.zip sig).mapM fun (text, ty) => argument text ty)

/-! ## Runs -/

structure Tour where
  inst : Instance
  recorder : Recorder
  hops : Nat
  last : List UInt8

namespace Tour

def ran (t : Tour) (r : Option (Instance.Result × Recorder)) :
    Attempt Tour := do
  let ((result, inst), recorder) ← Attempt.ofOption r
  let _ ← Attempt.ofExcept .runtime result
  return { t with inst, recorder }

/-- Goes on until the handler has returned; `move` is done before each part. -/
def finish (move : Tour → Attempt Tour) (fuel : Nat) : Nat → Tour → Attempt Tour
  | 0, _ => Attempt.outOfFuel
  | n + 1, t =>
    if t.inst.status = .suspended then do
      let t ← move t
      finish move fuel n (← t.ran (t.inst.resume Host.recording fuel t.recorder))
    else pure t

def deliver (move : Tour → Attempt Tour) (fuel : Nat) : List (Event × List Value) → Tour → Attempt Tour
  | [], t => pure t
  | (event, args) :: events, t =>
    if t.inst.status = .disposed then pure t
    else do
      let t ← t.ran (t.inst.start Host.recording fuel event args t.recorder)
      deliver move fuel events (← finish move fuel fuel t)

def hop (m : Module) (settings : Settings) (fuel : Nat) (t : Tour) : Attempt Tour := do
  let (error, old) := t.inst.requestMigration (.accepting t.hops)
  Attempt.ofError .migration error
  let last := (old.requests.deliveries.head?.map Delivery.bytes).getD []
  let fresh ← Attempt.ofOption (Instance.new m settings fuel)
  let fresh ← Attempt.ofExcept .runtime fresh
  let (result, inst) := fresh.migrateIn last
  let _ ← Attempt.ofExcept .migration result
  return { t with inst, last, hops := t.hops + 1 }

def calls (t : Tour) : String :=
  String.join (t.recorder.calls.map fun c =>
    c.function ++ "(" ++ ", ".intercalate (c.args.map Value.describe) ++ ")\n")

def summary (t : Tour) : String :=
  let i := t.inst
  "[lsl] state " ++ i.stateName?.getD "?" ++ " | " ++ i.status.name ++ " | memory " ++
    toString i.machine.memUsage.toInt ++ "/" ++ toString i.machine.memLimit.toInt ++ "\n"

end Tour

def itinerary (events : List String) : Except CommandError (List (Event × List Value)) := do
  return (.stateEntry, []) :: (← events.mapM parseEvent)

def tour (m : Module) (settings : Settings) (fuel : Nat) (move : Tour → Attempt Tour)
    (events : List (Event × List Value)) : Attempt Tour := do
  let inst ← Attempt.ofOption (Instance.new m settings fuel)
  let inst ← Attempt.ofExcept .runtime inst
  Tour.deliver move fuel events ⟨inst, {}, 0, []⟩

/-! ## Commands -/

def checked (m : Module) : String :=
  "ok: " ++ toString m.functions.size ++ " function(s), " ++ toString m.states.length ++
    " state(s), " ++ toString m.globals.length ++ " global(s)\n"

def checkOutcome (files : Files) (script : String) : Outcome :=
  match files.read script with
  | .error e => .failed (.file e) ""
  | .ok text =>
    match Module.ofSource text "check" with
    | .ok m => { stdout := checked m }
    | .error errors => .failed (.compile errors) (String.join (errors.map fun e => e.text text ++ "\n"))

def write (files : Files) (path : String) (bytes : List UInt8) (o : Outcome) : Attempt Outcome := do
  Attempt.ofError .file (files.refuses path)
  return { o with writes := o.writes ++ [(path, bytes)] }

def outcome (files : Files) (settings : Settings) (fuel : Nat) : Command → Attempt Outcome
  | check script => pure (checkOutcome files script)
  | compile script out => do
    let m ← Attempt.ofExcept id (loadModule files script)
    match out with
    | some path => write files path m.toText.toUTF8.toList {}
    | none => return { stdout := m.toText ++ "\n" }
  | disasm script => do
    let m ← Attempt.ofExcept id (loadModule files script)
    return { stdout := m.listing }
  | run script events => do
    let m ← Attempt.ofExcept id (loadModule files script)
    let events ← Attempt.ofExcept id (itinerary events)
    let t ← tour m settings fuel pure events
    return { stdout := t.calls, stderr := t.summary }
  | migrate script events stream => do
    let m ← Attempt.ofExcept id (loadModule files script)
    let events ← Attempt.ofExcept id (itinerary events)
    let settings := { settings with alwaysSuspend := true }
    let t ← tour m settings fuel (Tour.hop m settings fuel) events
    let o : Outcome := {
      stdout := t.calls
      stderr := "[lsl] " ++ toString t.hops ++ " migration(s), last stream " ++
        toString t.last.length ++ " bytes\n" ++ t.summary }
    match stream with
    | some path => write files path t.last o
    | none => return o

end Command

def Invocation.outcome (inv : Invocation) (files : Files) (fuel : Nat) : Option Outcome :=
  match inv.settings files with
  | .error e => some (.failed (.settings e) "")
  | .ok settings =>
    (inv.command.outcome files settings fuel).run.map fun
      | .ok o => o
      | .error e => .failed e ""

def runCommandLine (args : List String) (files : Files) (fuel : Nat) : Option Outcome :=
  match Invocation.ofArgs? args with
  | none => some .misused
  | some inv => inv.outcome files fuel

end EventScript
