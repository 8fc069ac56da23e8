import EventScript.Machine.Run
import EventScript.Snapshot.Writer

/-!
# Requests

What has been asked of an instance and not been done yet. Code that runs does not see requests; it
only stops at a checkpoint when there is one.
-/

namespace EventScript

/-- What has been asked of an instance, and what sinks have got. -/
structure Requests where
  suspend : Bool := false
  migrate : Bool := false
  /-- Where to write when migration is asked for; a later request replaces it. -/
  sink : Option Sink := none
  /-- What sinks have got, last first. -/
  deliveries : List Delivery := []
  deriving Inhabited

namespace Requests

def post (r : Requests) : Request → Requests
  | .suspend => { r with suspend := true }
  | .migrate sink => { r with migrate := true, sink := some sink }

def isPending (r : Requests) : Bool := r.suspend || r.migrate

def settle (r : Requests) (d : Option Delivery) : Requests :=
  { r with migrate := false, sink := none, deliveries := d.toList ++ r.deliveries }

end Requests

/-- A host and the requests to the instance that it serves. -/
structure Surroundings (σ : Type) where
  host : σ
  requests : Requests

namespace Host

variable {σ : Type}

/-- The environment of code that answers to nobody: requests are dropped and it is never
stopped. -/
def bareEnv (h : Host σ) : Env σ where
  call f args w := ((h.call f args w).answer, (h.call f args w).state)
  resume f args w := ((h.resume f args w).answer, (h.resume f args w).state)
  poll w := (false, w)

def ask (call : σ → Reply σ) (w : Surroundings σ) : Except Interrupt Value × Surroundings σ :=
  let r := call w.host
  (r.answer, ⟨r.state, r.posts.foldl Requests.post w.requests⟩)

def env (h : Host σ) (alwaysSuspend : Bool) : Env (Surroundings σ) where
  call f args w := ask (h.call f args) w
  resume f args w := ask (h.resume f args) w
  poll w := (alwaysSuspend || w.requests.isPending, w)

end Host

end EventScript
