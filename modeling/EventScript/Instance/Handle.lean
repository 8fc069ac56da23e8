import EventScript.Instance.Events

/-!
# Handles

A handle serves several holders of an instance. One of them at a time can have the instance to
itself. A request for migration that another holder posts meanwhile is written when the instance is
let go.
-/

namespace EventScript

structure Handle where
  inst : Instance
  held : Bool := false
  deriving Inhabited

namespace Handle

def lock (h : Handle) : Handle := { h with held := true }

/-- Lets the instance go. What has been asked for meanwhile is written; it does not matter whether
the sink takes it. -/
def unlock (h : Handle) : Handle := ⟨h.inst.flush.2, false⟩

def requestSuspend (h : Handle) : Handle := { h with inst := h.inst.requestSuspend }

/-- Asks that the instance be written to a sink, which is done at once if nobody holds it and it is
at rest. -/
def requestMigration (h : Handle) (sink : Sink) : Option StreamError × Handle :=
  let i := { h.inst with requests := h.inst.requests.post (.migrate sink) }
  if h.held then (none, { h with inst := i })
  else
    let (e, i) := i.flush
    (e, { h with inst := i })

/-- The result of a call that has just let the instance go. What has been asked for meanwhile is
written. -/
def released (result : Except PlacedFault Status) (i : Instance) :
    Except PlacedFault Status × Handle :=
  match i.flush with
  | (some e, i) => (.error (Fault.migration e), ⟨i, false⟩)
  | (none, i) => (result, ⟨i, false⟩)

variable {σ : Type}

def start (host : Host σ) (fuel : Nat) (h : Handle) (event : Event) (args : List Value) (w : σ) :
    Option ((Except PlacedFault Status × Handle) × σ) :=
  (h.inst.start host fuel event args w).map fun ((r, i), w) => (released r i, w)

def resume (host : Host σ) (fuel : Nat) (h : Handle) (w : σ) :
    Option ((Except PlacedFault Status × Handle) × σ) :=
  (h.inst.resume host fuel w).map fun ((r, i), w) => (released r i, w)

end Handle

end EventScript
