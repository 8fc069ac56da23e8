import EventScript.Proofs.Suspension
import EventScript.Proofs.Turns

/-!
# Courses of inputs

An instance is given one input after the other, each an event or the time to go on
(`Instance.Follows`). While it handles one, its code runs (`Instance.Executes`). What single turns
keep of a machine that is idle or runs (`Upkeep`) is so after all inputs that were handled without a
fault, and whenever code runs (`Upkeep.follows`, `Upkeep.executes`).

`Machine.Executed` are the machines that come about when a function is called in an idle one,
whatever the environment does; turns of instances lead to no others (`Machine.executed_upkeep`).
-/

namespace EventScript

/-- What an instance is given: an event, or the time to go on. -/
inductive Input where
  | start (event : Event) (args : List Value)
  | resume

namespace Instance

variable {σ : Type}

def handle (env : Env (Surroundings σ)) (fuel : Nat) (i : Instance) (w : σ) :
    Input → Option (Result × σ)
  | .start event args => i.startIn env fuel event args w
  | .resume => i.resumeIn env fuel w

/-- The instance whose code runs first when an input is handled. -/
inductive Begins (i : Instance) : Input → Instance → Prop
  | start {event : Event} {args : List Value} {q : Requests} {f : UInt16} {machine : Machine} :
      i.refusal? event args = none → i.flush = (none, { i with requests := q }) →
      (i.readied q).handlerOf? event = some f →
      (i.readied q).machine.enter i.module f args = .ok machine →
      Begins i (.start event args) ((i.readied q).entering event args machine)
  | resume : i.status = .suspended → Begins i .resume { i with status := .running }

def begun? (i : Instance) : Input → Option Instance
  | .start event args =>
    if (i.refusal? event args).isSome then none
    else
      match i.flush with
      | (some _, _) => none
      | (none, j) =>
        match (j.readied j.requests).begin event args with
        | (.ok true, k) => some k
        | _ => none
  | .resume => if i.status = .suspended then some { i with status := .running } else none

variable {i : Instance}

theorem begins_iff : i.Begins input i0 ↔ i.begun? input = some i0 := by
  constructor
  · intro h
    cases h with
    | @start event args q f machine hr hq hf hx =>
      have hb : (i.readied q).begin event args =
          (.ok true, (i.readied q).entering event args machine) := by
        rw [begin_eq, hf]
        dsimp only
        rw [show (i.readied q).module = i.module from rfl, hx]
      unfold Instance.begun?
      dsimp only
      rw [hr, hq]
      change (match (i.readied q).begin event args with | (.ok true, k) => some k | _ => none) = _
      rw [hb]
    | resume hs => exact if_pos hs
  · intro h
    unfold Instance.begun? at h
    split at h
    · rename_i event args
      split at h
      · cases h
      rename_i hr
      obtain ⟨q, hq⟩ := flush_eq i
      split at h
      · cases h
      rename_i hflush
      rw [hflush] at hq
      cases hq
      change (match (i.readied q).begin event args with | (.ok true, k) => some k | _ => none) = _
        at h
      split at h
      · rename_i hbegin
        cases h
        obtain hb | ⟨f, hf, ⟨e, -, hb⟩ | ⟨machine, hx, hb⟩⟩ := begin_cases (i.readied q) event args
        · rw [hb] at hbegin; cases hbegin
        · rw [hb] at hbegin; cases hbegin
        rw [hb] at hbegin
        cases hbegin
        exact .start (by simpa using hr) hflush hf hx
      · cases h
    · split at h
      · cases h
        exact .resume ‹_›
      · cases h

def Executes (env : Env (Surroundings σ)) (i : Instance) (input : Input) (w : σ) (j : Instance)
    (v : σ) : Prop :=
  ∃ i₀, i.Begins input i₀ ∧ Passes env i₀ w j v

/-- The second instance comes from the first by inputs that are handled without faults, and with
good turns only. The environment may differ from input to input. -/
inductive Follows (Good : ∀ {σ : Type}, Env (Surroundings σ) → Instance → σ → Prop) :
    Instance → Instance → Prop
  | refl {i : Instance} : Follows Good i i
  | handles {σ : Type} {env : Env (Surroundings σ)} {fuel : Nat} {i j k : Instance} {input : Input}
      {w w' : σ} {status : Status} : Follows Good i j →
      (∀ k v, j.Executes env input w k v → Good env k v) →
      j.handle env fuel w input = some ((.ok status, k), w') → Follows Good i k

/-- What is so of an instance between two inputs. -/
structure Steady (m : Module) (Idle Active : Machine → Prop) (i : Instance) : Prop where
  module : i.module = m
  idle : i.status = .idle → i.machine.frames = [] ∧ Idle i.machine
  suspended : i.status = .suspended → Active i.machine

theorem Steady.withRequests (h : i.Steady m Idle Active) (q : Requests) :
    ({ i with requests := q } : Instance).Steady m Idle Active :=
  ⟨h.module, h.idle, h.suspended⟩

theorem Steady.settled (h : i.Steady m Idle Active) : i.settled.2.Steady m Idle Active := by
  obtain ⟨q, hq⟩ := settled_eq i
  rw [hq]
  exact h.withRequests q

/-- What a call comes to that handles an input: the instance is steady, or a handler that faulted
has been dropped. -/
def Settles (m : Module) (Idle Active : Machine → Prop) (r : Result) :
    Prop :=
  r.2.Steady m Idle Active ∨
    r.1.isOk = false ∧ ∃ (i : Instance) (q : Requests), i.module = m ∧
      r.2 = { i.abort with requests := q }

theorem Settles.steady {status : Status} (h : Settles m Idle Active (.ok status, i)) :
    i.Steady m Idle Active :=
  h.resolve_right fun hdropped => nomatch hdropped.1

theorem failed_settles (hm : i.module = m) : Settles m Idle Active (i.failed f) := by
  obtain ⟨q, hq⟩ := failed_eq i f
  rw [hq]
  exact .inr ⟨rfl, i, q, hm, rfl⟩

theorem length_of_argsError? {event : Event} (h : argsError? event args = none) : args.length =
    event.signature.length := by
  unfold argsError? at h
  dsimp only at h
  split at h
  · cases h
  · rwa [not_not] at *

end Instance

/-- What single turns keep of the machines of instances, as long as they are good. -/
structure Upkeep (m : Module) (Idle Active : Machine → Prop)
    (Good : ∀ {σ : Type}, Env (Surroundings σ) → Instance → σ → Prop) : Prop where
  clear : Idle s → Idle { s with pending := none }
  enter : ∀ {n : Nat} {event : Event} {f : UInt16} {args : List Value}, Idle s →
    s.frames = [] → m.handler? n event = some f → args.length = event.signature.length →
    s.enter m f args = .ok s' → Active s'
  next : i.module = m → Good env i w → Active i.machine →
    i.machine.step env m ⟨w, i.requests⟩ = .next s ws → Active s
  suspend : ∀ {s s' : Machine} {w w' : ω}, Active s →
    s.step env m w = .halt .suspended s' w' → Active s'
  completed : ∀ {s s' : Machine} {w w' : ω} {v : Value}, Active s →
    s.step env m w = .halt (.completed v) s' w' → Idle { s' with pending := none }
  reset : ∀ {ws : Surroundings σ} {fuel : Nat}, i.module = m → Good env i w →
    i.machine.step env m ⟨w, i.requests⟩ = .halt (.signal .reset) s ws →
    s.boot Host.null.bareEnv m fuel () = some (.ok (), s', ()) → Idle s'

namespace Upkeep

variable {σ : Type}
  {Good : ∀ {σ : Type}, Env (Surroundings σ) → Instance → σ → Prop}
  (hU : Upkeep m Idle Active Good)

include hU

variable {i : Instance}

section

variable (hm : i.module = m)

include hm

theorem enter_handler (hf : i.handlerOf? event = some f)
    (hargs : args.length = event.signature.length) (hframes : s.frames = []) (hs : Idle s)
    (h : s.enter m f args = .ok s') : Active s' := by
  obtain ⟨n, -, hn⟩ := Option.bind_eq_some_iff.1 hf
  rw [hm] at hn
  exact hU.enter hs hframes hn hargs h

theorem meets_advances (hframes : i.machine.frames = [])
    (hs : Idle { i.machine with pending := none }) (ha : Instance.Advances i a) :
    (Instance.conclude a).Meets (fun j => j.module = m ∧ Active j.machine)
      (Instance.Settles m Idle Active) := by
  cases ha with
  | rests _ => exact .inl (Instance.Steady.settled ⟨hm, fun _ => ⟨hframes, hs⟩, nofun⟩)
  | @calls state phase event f machine _ he hf hx =>
    rw [hm] at hx
    refine ⟨hm, hU.enter_handler (i := i.moved state phase) (s := i.clearPending.machine) hm hf ?_
      hframes hs hx⟩
    obtain ⟨rfl, -⟩ | ⟨rfl, -⟩ := he <;> rfl
  | refuses _ _ _ | nests _ => exact Instance.failed_settles hm

theorem meets_resets
    (hboot : ∀ s', i.machine.boot Host.null.bareEnv m fuel () = some (.ok (), s', ()) → Idle s')
    (ha : Instance.Resets i fuel a) :
    (Instance.conclude a).Meets (fun j => j.module = m ∧ Active j.machine)
      (Instance.Settles m Idle Active) := by
  subst hm
  cases ha with
  | fails _ | refuses _ _ _ => exact Instance.failed_settles (by rfl)
  | @rests s _ hb =>
    exact .inl (Instance.Steady.settled ⟨rfl, fun _ => ⟨Machine.boot_leaves hb, hboot s hb⟩, nofun⟩)
  | @calls s machine _ f hb hf hx =>
    exact ⟨rfl, hU.enter_handler (i := i.rebooted s) rfl hf rfl (Machine.boot_leaves hb)
      (hboot s hb) hx⟩

theorem meets_react (hi : Active i.machine) (hgood : Good env i w)
    (hs : i.machine.step env i.module ⟨w, i.requests⟩ = .halt why s ws)
    (hp : (i.ran s ws.requests).react fuel (s.exit i.module why) = some p) :
    p.Meets (fun j => j.module = m ∧ Active j.machine) (Instance.Settles m Idle Active) := by
  rw [hm] at hs
  cases why with
  | completed v =>
    cases hp
    exact hU.meets_advances (i := i.ran s ws.requests) hm
      (Machine.step_leaves hs) (hU.completed hi hs) (Instance.advance_advances _)
  | suspended =>
    cases hp
    exact .inl (Instance.Steady.settled ⟨hm, nofun, fun _ => hU.suspend hi hs⟩)
  | fault f =>
    cases hp
    exact Instance.failed_settles hm
  | signal x =>
    cases x with
    | reset =>
      obtain ⟨a, ha, rfl⟩ := Option.map_eq_some_iff.1 hp
      exact hU.meets_resets (i := i.ran s ws.requests) hm
        (fun s' hb => hU.reset hm hgood hs hb) (Instance.reset_resets ha)
    | terminate =>
      cases hp
      exact .inl ⟨hm, nofun, nofun⟩

theorem turn (hi : Active i.machine) (hgood : Good env i w)
    (h : Instance.Turns env i w i' w') : i'.module = m ∧ Active i'.machine := by
  cases h with
  | runs hs =>
    rw [hm] at hs
    exact ⟨hm, hU.next hm hgood hi hs⟩
  | follows hs hp => exact hU.meets_react hm hi hgood hs hp

theorem passes (hi : Active i.machine)
    (hgood : ∀ j v, Instance.Passes env i w j v → Good env j v) (h : Instance.Passes env i w i' w') :
    i'.module = m ∧ Active i'.machine := by
  induction h with
  | refl => exact ⟨hm, hi⟩
  | next ht _ ih =>
    obtain ⟨hm', hi'⟩ := hU.turn hm hi (hgood _ _ .refl) ht
    exact ih hm' hi' fun j v hp => hgood j v (.next ht hp)

end

variable (hi : i.Steady m Idle Active)

include hi

theorem begins (h : i.Begins input i') : i'.module = m ∧ Active i'.machine := by
  cases h with
  | start hr _ hf hx =>
    obtain ⟨hstatus, -, -, hargs⟩ := Instance.refusal?_eq_none hr
    obtain ⟨hframes, hidle⟩ := hi.idle hstatus
    rw [hi.module] at hx
    exact ⟨hi.module, hU.enter_handler (s := i.clearPending.machine)
      hi.module hf (Instance.length_of_argsError? hargs) hframes (hU.clear hidle) hx⟩
  | resume hs => exact ⟨hi.module, hi.suspended hs⟩

theorem executes
    (hgood : ∀ j v, i.Executes env input w j v → Good env j v) (h : i.Executes env input w j v) :
    j.module = m ∧ Active j.machine := by
  obtain ⟨i0, hb, hp⟩ := h
  obtain ⟨hm, hi0⟩ := hU.begins hi hb
  exact hU.passes hm hi0 (fun j v hp => hgood j v ⟨i0, hb, hp⟩) hp

theorem execute (hgood : ∀ j v, i.Executes env input w j v → Good env j v)
    (hb : i.Begins input i0) (h : Instance.executeIn env fuel i0 w = some (r, w')) :
    Instance.Settles m Idle Active r := by
  obtain ⟨j, v, why, s, q, fuel', hp, hc⟩ := Instance.executeIn_passes h
  obtain ⟨hm, hj⟩ := hU.executes hi hgood ⟨i0, hb, hp⟩
  exact hU.meets_react hm hj (hgood j v ⟨i0, hb, hp⟩) hc.halts hc.reacts

theorem handle (hgood : ∀ j v, i.Executes env input w j v → Good env j v)
    (h : i.handle env fuel w input = some (r, w')) : Instance.Settles m Idle Active r := by
  cases input with
  | start event args =>
    have hs := Instance.startIn_starts env fuel i event args w
    rw [show i.startIn env fuel event args w = _ from h] at hs
    generalize ho : some (r, w') = o at hs
    have hcleared {k : Instance} (hr : i.refusal? event args = none) (hm : k.module = i.module)
        (hmachine : k.machine = i.clearPending.machine) (hstatus : k.status = i.status) :
        k.Steady m Idle Active := by
      obtain ⟨hidle, -, -, -⟩ := Instance.refusal?_eq_none hr
      obtain ⟨hframes, hmem⟩ := hi.idle hidle
      refine ⟨hm.trans hi.module, fun _ => hmachine ▸ ⟨hframes, hU.clear hmem⟩, fun hs => ?_⟩
      exact absurd (hstatus.symm.trans hs) (by rw [hidle]; decide)
    cases hs with
    | refuses _ => cases ho; exact .inl hi
    | undelivered _ _ => cases ho; exact .inl (hi.withRequests _)
    | unhandled hr _ | uncalled hr _ _ _ => cases ho; exact .inl (hcleared hr rfl rfl rfl)
    | calls hr hq hf hx => exact hU.execute hi hgood (.start hr hq hf hx) ho.symm
  | resume =>
    change i.resumeIn env fuel w = _ at h
    unfold Instance.resumeIn at h
    split at h
    · exact hU.execute hi hgood (.resume ‹_›) h
    · cases h; exact .inl hi

theorem follows (h : Instance.Follows Good i j) : j.Steady m Idle Active := by
  induction h with
  | refl => exact hi
  | handles _ hgood hh ih => exact (hU.handle (ih hi) hgood hh).steady

end Upkeep

/-! ## Executions -/

/-- The machines that come about when a function is called in an idle one, in any environment and
with any stops. -/
inductive Machine.Executed (m : Module) : Machine → Prop
  | enter {s s' : Machine} {i : UInt16} {args : List Value} : s.frames = [] → s.pending = none →
      s.enter m i args = .ok s' → Executed m s'
  | next {s s' : Machine} {w w' : ω} : Executed m s → s.step env m w = .next s' w' → Executed m s'
  | resume {s s' : Machine} {w w' : ω} : Executed m s →
      s.step env m w = .halt .suspended s' w' → Executed m s'

theorem Machine.Executed.reaches (hs : s.Executed m) (h : Reaches env m s w s' w') : s'.Executed m
    := by
  induction h with
  | refl => exact hs
  | next hstep _ ih => exact ih (hs.next hstep)

def Machine.after? {ω : Type} (env : Env ω) (m : Module) : Nat → Machine → ω → Option (Machine × ω)
  | 0, s, w => some (s, w)
  | n + 1, s, w =>
    match step env m s w with
    | .next s w => after? env m n s w
    | .halt .. => none

theorem Machine.reaches_of_after? (h : after? env m n s w = some (s', w')) : Reaches env m s w s' w'
    := by
  induction n generalizing s w with
  | zero => cases h; exact .refl
  | succ n ih =>
    unfold after? at h
    split at h
    · rename_i hstep
      exact .next hstep (ih h)
    · cases h

/-- Turns lead to executions, as long as the initializer asks for no state. -/
theorem Machine.executed_upkeep (hboot : ∀ {s s' : Machine} {fuel : Nat},
      s.boot Host.null.bareEnv m fuel () = some (.ok (), s', ()) → s'.pending = none) :
    Upkeep m (·.pending = none) (Executed m) fun _ _ _ => True where
  clear _ := rfl
  enter hs hframes _ _ h := .enter hframes hs h
  next _ _ hi h := hi.next h
  suspend hs h := hs.resume h
  completed _ _ := rfl
  reset _ _ _ hb := hboot hb

end EventScript
