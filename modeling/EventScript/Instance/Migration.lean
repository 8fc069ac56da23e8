import EventScript.Instance
import EventScript.Snapshot.Reader

/-!
# Migration

An instance at rest can be written to a sink, and an idle instance can take the place of one that
was written. A request that comes while code runs is done when the code stops.
-/

namespace EventScript.Instance

def snapshot (i : Instance) : Snapshot where
  state := i.state
  event := i.event
  memUsage := i.machine.memUsage
  memLimit := i.machine.memLimit
  eventArgs := i.eventArgs
  globals := i.machine.globals
  active := if i.event = .none then none else some ⟨i.machine.pending, i.phase, i.machine.frames⟩

/-- Writes the instance to the sink that has been asked for, if it is at rest. -/
def flush (i : Instance) : Option StreamError × Instance :=
  if i.isAtRest && i.requests.migrate then
    let delivery := i.requests.sink.map (i.snapshot.send i.module)
    (delivery.bind Delivery.error, { i with requests := i.requests.settle delivery })
  else (none, i)

/-- Asks that the instance be written to a sink, which is done at once if it is at rest. -/
def requestMigration (i : Instance) (sink : Sink) : Option StreamError × Instance :=
  if i.status = .disposed then (some (.content .disposed), i)
  else { i with requests := i.requests.post (.migrate sink) }.flush

def restore (i : Instance) (s : Snapshot) : Instance :=
  let i := { i with
    state := s.state
    event := s.event
    eventArgs := s.eventArgs
    machine := { i.machine with
      globals := s.globals, memUsage := s.memUsage, memLimit := s.memLimit } }
  match s.active with
  | some a =>
    { i with
      machine := { i.machine with pending := a.pending, frames := a.frames }
      phase := a.phase
      status := .suspended }
  | none => { i with machine := { i.machine with pending := none, frames := [] } }.finish

/-- Takes the place of the instance that a stream is of. An instance that cannot read the stream
is disposed of. -/
def migrateIn (i : Instance) (bytes : List UInt8) : Except StreamError Status × Instance :=
  if i.status = .idle then
    match Snapshot.ofBytes i.module bytes with
    | .error e => (.error e, i.dispose)
    | .ok s =>
      let i := i.restore s
      (.ok i.status, i)
  else (.error (.content (.busy i.status)), i)

end EventScript.Instance
