import EventScript.Instance.Migration

/-!
# Handling of events

`Instance.start` delivers an event and `Instance.resume` goes on with a handler that was suspended.
The code runs in the environment of a host; `startIn` and `resumeIn` take any environment. When a
handler has asked for another state, the old state is left and the new one is entered by
handlers of their own before the instance is idle again.
-/

namespace EventScript.Instance

def argsError? (event : Event) (args : List Value) : Option ArgsError :=
  let sig := event.signature
  if args.length ≠ sig.length then some (.count sig.length args.length)
  else (args.zip sig).zipIdx.findSome? fun ((v, ty), n) =>
    if v.isOf ty then none else some (.type n ty v.ty)

/-! ## Changes of state -/

/-- A handler that runs during a change of state asked for another one. -/
def transitionFault (i : Instance) (event : Event) : PlacedFault :=
  let state := i.stateName?.getD "?"
  ⟨.nestedTransition event, some ⟨state ++ " " ++ event.name, ⟨0, 0⟩⟩⟩

def clearPending (i : Instance) : Instance :=
  { i with machine := { i.machine with pending := none } }

/-- Whether a handler has been called, and the instance. -/
abbrev Advance := Except PlacedFault Bool × Instance

/-- What a call gives: its result and the instance after it. -/
abbrev Result := Except PlacedFault Status × Instance

/-- Goes on after a handler was to be called; `next` is for when there is none. -/
def proceed (r : Except Fault Bool × Instance) (next : Instance → Advance) : Advance :=
  match r with
  | (.error f, i) => (.error f, i)
  | (.ok true, i) => (.ok true, i)
  | (.ok false, i) => next i

def entered (i : Instance) : Advance :=
  if i.machine.pending.isSome then (.error (i.transitionFault .stateEntry), i.clearPending)
  else (.ok false, i.finish)

def exited (i : Instance) (next : UInt16) : Advance :=
  if i.machine.pending.isSome then (.error (i.transitionFault .stateExit), i.clearPending)
  else
    let i := { i with state := Int32.ofNat next.toNat, phase := .entering }
    proceed (i.begin .stateEntry []) entered

def handled (i : Instance) : Advance :=
  match i.machine.pending with
  | none => (.ok false, i.finish)
  | some next =>
    let i := i.clearPending
    if Int32.ofNat next.toNat = i.state then (.ok false, i.finish)
    else
      let i := { i with phase := .exiting next }
      proceed (i.begin .stateExit []) (·.exited next)

/-- A handler has returned. Calls the next one of a change of state, if there is one. -/
def advance (i : Instance) : Advance :=
  match i.phase with
  | .handler => i.handled
  | .exiting next => i.exited next
  | .entering => i.entered

def reset (i : Instance) (fuel : Nat) : Option Advance :=
  (i.machine.boot Host.null.bareEnv i.module fuel ()).map fun (result, machine, _) =>
    let i := { i with machine }
    match result with
    | .error e => (.error e.toFault, i)
    | .ok () =>
      let i := { i with state := 0 }.finish
      proceed (i.begin .stateEntry []) fun i => (.ok false, i.finish)

/-! ## Runs -/

/-- The status, after what has been asked for has been written. -/
def settled (i : Instance) : Result :=
  match i.flush with
  | (some e, i) => (.error (Fault.migration e), i)
  | (none, i) => (.ok i.status, i)

def suspended (i : Instance) : Result :=
  { i with status := .suspended, requests := { i.requests with suspend := false } }.settled

def failed (i : Instance) (f : PlacedFault) : Result :=
  (.error f, i.abort.flush.2)

/-- What follows when code has stopped: the next handler runs, or the instance is at rest or has
been disposed of. -/
inductive Progress where
  | more (i : Instance)
  | done (result : Result)

def conclude : Advance → Progress
  | (.ok true, i) => .more i
  | (.ok false, i) => .done i.settled
  | (.error f, i) => .done (i.failed f)

def react (i : Instance) (fuel : Nat) : Exit → Option Progress
  | .completed _ => some (conclude i.advance)
  | .suspended => some (.done i.suspended)
  | .fault f => some (.done (i.failed f))
  | .signal .reset => (i.reset fuel).map conclude
  | .signal .terminate => some (.done (.ok .disposed, i.dispose))

variable {σ : Type}

/-- Runs handlers in an environment until the instance is at rest or has been disposed of. -/
def executeIn (env : Env (Surroundings σ)) :
    (fuel : Nat) → Instance → σ → Option (Result × σ)
  | 0, _, _ => none
  | fuel + 1, i, w =>
    match i.machine.run env i.module fuel ⟨w, i.requests⟩ with
    | none => none
    | some (exit, machine, s) =>
      match (i.ran machine s.requests).react fuel exit with
      | none => none
      | some (.more i) => executeIn env fuel i s.host
      | some (.done result) => some (result, s.host)

/-- Delivers an event to the handler of the current state, which runs in an environment. -/
def startIn (env : Env (Surroundings σ)) (fuel : Nat) (i : Instance) (event : Event)
    (args : List Value) (w : σ) : Option (Result × σ) :=
  let refuse (f : Fault) := some ((Except.error (f : PlacedFault), i), w)
  if i.status = .disposed then refuse (.invalidStatus .start i.status)
  else if event = .none then refuse .noneEvent
  else if i.status ≠ .idle ∨ i.event ≠ .none then refuse .handlerActive
  else if event.column?.isNone then refuse (.unknownEvent event.name)
  else
    match argsError? event args with
    | some e => refuse (.badEventArgs event e)
    | none =>
      match i.flush with
      | (some e, i) => some ((.error (Fault.migration e), i), w)
      | (none, i) =>
        let i := { i.clearPending with phase := .handler }
        match i.begin event args with
        | (.error f, i) => some ((.error f, i), w)
        | (.ok false, i) => some ((.ok i.status, i), w)
        | (.ok true, i) => executeIn env fuel i w

def resumeIn (env : Env (Surroundings σ)) (fuel : Nat) (i : Instance) (w : σ) :
    Option (Result × σ) :=
  if i.status = .suspended then executeIn env fuel { i with status := .running } w
  else some ((.error (Fault.invalidStatus .resume i.status), i), w)

def start (h : Host σ) (fuel : Nat) (i : Instance) (event : Event) (args : List Value) (w : σ) :
    Option (Result × σ) :=
  i.startIn (h.env i.alwaysSuspend) fuel event args w

def startNamed (h : Host σ) (fuel : Nat) (i : Instance) (event : String) (args : List Value)
    (w : σ) : Option (Result × σ) :=
  match Event.ofName? event with
  | some e => start h fuel i e args w
  | none => some ((.error (Fault.unknownEvent event), i), w)

def resume (h : Host σ) (fuel : Nat) (i : Instance) (w : σ) : Option (Result × σ) :=
  i.resumeIn (h.env i.alwaysSuspend) fuel w

end EventScript.Instance
