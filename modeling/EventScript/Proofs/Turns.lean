import EventScript.Proofs.Reachability
import EventScript.Proofs.Steps

/-!
# Turns of an instance

The code of an instance runs in turns (`Instance.Turns`): an instruction, or the call of the next
handler when one has returned. `Instance.executeIn_passes` splits a run into its turns, and
`Instance.Running` are the instances that come about between them.

A `Regime` says what is so of a machine that is idle, that runs, or that is suspended. If single
steps keep it (`Regime.Kept`), so does everything that can be done with an instance
(`Regime.Kept.stands`, `Regime.Kept.works`).
-/

namespace EventScript

open Machine Option

abbrev Module.Boots (m : Module) (settings : Settings) : Prop :=
  ∃ fuel s, (settings.machine m).boot Host.null.bareEnv m fuel () = some (.ok (), s, ())

namespace Machine

variable {s : Machine}

/-! ## Limits -/

theorem step_limits (h : step env m s w = .next s' w') :
    s'.memLimit = s.memLimit ∧ s'.maxCallDepth = s.maxCallDepth := by
  cases step_goes h with
  | runs hframes hr hg hop hdoes =>
    cases hdoes with
    | store var _ _ | @arraySet var _ _ _ _ _ _ _ _ => cases var <;> exact ⟨rfl, rfl⟩
    | call _ _ he =>
      obtain ⟨g, -, -, rfl⟩ := enter_ok he
      exact ⟨rfl, rfl⟩
    | _ => exact ⟨rfl, rfl⟩
  | answers _ _ _ _ => exact ⟨rfl, rfl⟩

theorem step_halt_limits (h : step env m s w = .halt why s' w') :
    s'.memLimit = s.memLimit ∧ s'.maxCallDepth = s.maxCallDepth := by
  rw [step_halt_keeps h]
  exact ⟨rfl, rfl⟩

theorem Reaches.limits (h : Reaches env m s w s' w') :
    s'.memLimit = s.memLimit ∧ s'.maxCallDepth = s.maxCallDepth := by
  induction h with
  | refl => exact ⟨rfl, rfl⟩
  | next hs _ ih => exact ⟨ih.1.trans (step_limits hs).1, ih.2.trans (step_limits hs).2⟩

theorem boot_reaches (h : boot env m fuel s w = some (.ok (), s', w')) :
    ∃ s0 s1 w1 v, (s.rewound m).enter m m.init [] = .ok s0 ∧
      Reaches env.unpolled m s0 w s1 w1 ∧
      step env.unpolled m s1 w1 = .halt (.completed v) s' w' := by
  unfold boot at h
  dsimp only at h
  split at h
  · cases h
  rename_i s0 hs0
  obtain ⟨⟨e, s2, w2⟩, hrun, he⟩ := map_eq_some_iff.1 h
  obtain ⟨s1, w1, why, hreach, hstep, rfl⟩ := run_reaches hrun
  cases why with
  | completed v => cases he; exact ⟨s0, s1, w1, v, hs0, hreach, hstep⟩
  | suspended | fault f | signal x => cases he

theorem boot_limits (h : boot env m fuel s w = some (.ok (), s', w')) :
    s'.memLimit = s.memLimit ∧ s'.maxCallDepth = s.maxCallDepth ∧ 0 < s.maxCallDepth := by
  obtain ⟨s0, s1, w1, v, he, hreach, hstep⟩ := boot_reaches h
  obtain ⟨g, -, hdepth, rfl⟩ := enter_ok he
  obtain ⟨h1, h2⟩ := hreach.limits
  obtain ⟨h3, h4⟩ := step_halt_limits hstep
  exact ⟨h3.trans h1, h4.trans h2, hdepth⟩

theorem enter_of_nil (hg : m.function? i = some g)
    (hframes : s.frames = []) (hdepth : 0 < s.maxCallDepth) : s.enter m i args = .ok { s with
      frames := [⟨.script, i, 0, fillLocals g.localCount.toNat args, []⟩] } := by
  unfold enter
  rw [hg, hframes]
  exact if_neg (Nat.not_le.2 hdepth)

end Machine

namespace Instance

variable {σ : Type}

theorem new_rests (h : Instance.new m settings fuel = some (.ok i)) :
    i.module = m ∧ i.status = .idle ∧ i.machine.frames = [] := by
  obtain ⟨⟨r, s, u⟩, hb, h⟩ := map_eq_some_iff.1 h
  cases r <;> cases h
  exact ⟨rfl, rfl, boot_leaves hb⟩

/-- One turn of an instance whose code runs: an instruction, or the call of the handler that
follows one that has stopped. -/
inductive Turns (env : Env (Surroundings σ)) : Instance → σ → Instance → σ → Prop
  | runs : i.machine.step env i.module ⟨w, i.requests⟩ = .next s ws →
      Turns env i w (i.ran s ws.requests) ws.host
  | follows {why : Halt} {s : Machine} {ws : Surroundings σ} {fuel : Nat} :
      i.machine.step env i.module ⟨w, i.requests⟩ = .halt why s ws →
      (i.ran s ws.requests).react fuel
        (s.exit i.module why) = some (.more i') → Turns env i w i' ws.host

/-- The instances that one goes through, turn by turn. -/
inductive Passes (env : Env (Surroundings σ)) : Instance → σ → Instance → σ → Prop
  | refl : Passes env i w i w
  | next {w w₁ w' : σ} : Turns env i w i₁ w₁ → Passes env i₁ w₁ i' w' → Passes env i w i' w'

theorem Passes.trans (h : Passes env i w i1 w1)
    (h' : Passes env i1 w1 i' w') : Passes env i w i' w' := by
  induction h with
  | refl => exact h'
  | next ht _ ih => exact .next ht (ih h')

theorem passes_of_reaches {i : Instance} (hm : i.module = m) (h : Machine.Reaches env m s ws s' ws') :
    Passes env (i.ran s ws.requests) ws.host (i.ran s' ws'.requests) ws'.host := by
  subst hm
  induction h with
  | refl => exact .refl
  | next hs _ ih =>
    refine .next ?_ ih
    exact Turns.runs hs

/-- How the code of an instance comes to its end: a machine stops, and no handler follows. -/
structure Ceases (env : Env (Surroundings σ)) (i : Instance) (w : σ)
    (r : Result) (w' : σ) (why : Halt) (s : Machine)
    (q : Requests) (fuel : Nat) : Prop where
  halts : i.machine.step env i.module ⟨w, i.requests⟩ = .halt why s ⟨w', q⟩
  reacts : (i.ran s q).react fuel (s.exit i.module why) = some (.done r)

/-- A run goes through turns to an instance whose code comes to its end. -/
theorem executeIn_passes (h : executeIn env fuel i w = some (r, w')) :
    ∃ j v why s q fuel', Passes env i w j v ∧ Ceases env j v r w' why s q fuel' := by
  induction fuel generalizing i w with
  | zero => cases h
  | succ fuel ih =>
    unfold executeIn at h
    split at h
    · cases h
    rename_i s ws hrun
    obtain ⟨s1, ws1, why, hreach, hstep, rfl⟩ := run_reaches hrun
    have hpass := passes_of_reaches rfl hreach
    split at h
    · cases h
    · rename_i hreact
      obtain ⟨j, v, why', s', q, fuel', hp, hc⟩ := ih h
      refine ⟨j, v, why', s', q, fuel', hpass.trans (.next ?_ hp), hc⟩
      exact Turns.follows hstep hreact
    · rename_i hreact
      cases h
      exact ⟨_, _, why, s, ws.requests, fuel, hpass, hstep, hreact⟩

variable (m : Module) (settings : Settings) (Allowed : Allows) (Given : List Value → Prop) in
/-- The instances whose code runs, of those that come about in environments of a kind. -/
inductive Running : Instance → Prop
  | start {event : Event} {args : List Value} {q : Requests} {f : UInt16}
      {machine : Machine} : Reachable m settings Allowed Given i → Given args →
      i.refusal? event args = none → i.flush = (none, { i with requests := q }) →
      (i.readied q).handlerOf? event = some f →
      (i.readied q).machine.enter i.module f args = .ok machine →
      Running ((i.readied q).entering event args machine)
  | resume : Reachable m settings Allowed Given i → i.status = .suspended →
      Running { i with status := .running }
  | turn {σ : Type} {env : Env (Surroundings σ)} {i i' : Instance} {w w' : σ} :
      Running i → Allowed env → Turns env i w i' w' → Running i'

theorem Reachable.boots (h : Reachable m settings Allowed Given i) : m.Boots settings := by
  induction h with
  | @new fuel i hn =>
    obtain ⟨⟨result, s, u⟩, hb, hr⟩ := map_eq_some_iff.1 hn
    cases result with
    | error e => cases hr
    | ok u => exact ⟨fuel, s, hb⟩
  | start _ _ _ _ ih | resume _ _ _ ih | requestSuspend _ ih | requestMigration _ _ ih
  | migrateIn _ _ _ _ ih _ | dispose _ ih => exact ih

theorem Running.boots (h : Running m settings Allowed Given i) : m.Boots settings := by
  induction h with
  | start h _ _ _ _ _ | resume h _ => exact h.boots
  | turn _ _ _ ih => exact ih

end Instance

/-! ## Regimes -/

/-- What is so of the machines of instances, of the states that they can be in, and of the
arguments of the events. -/
structure Regime where
  Idle : Machine → Prop
  Active : Machine → Prop
  Stopped : Machine → Prop
  Target : UInt16 → Prop
  Given : List Value → Prop

namespace Regime

/-- What is so of an instance of a module that has not been disposed of. -/
structure Serves (R : Regime) (m : Module) (settings : Settings) (i : Instance) : Prop where
  module : i.module = m
  memLimit : i.machine.memLimit = settings.memoryLimit
  maxCallDepth : i.machine.maxCallDepth = settings.maxCallDepth
  state : ∃ n : UInt16, i.state = Int32.ofNat n.toNat ∧ R.Target n
  phase : ∀ t, i.phase = .exiting t → R.Target t

structure Rests (R : Regime) (m : Module) (settings : Settings) (i : Instance) : Prop
    extends R.Serves m settings i where
  status : i.status = .idle
  event : i.event = .none
  eventArgs : i.eventArgs = []
  settled : i.phase = .handler
  frames : i.machine.frames = []
  pending : i.machine.pending = none
  machine : R.Idle i.machine

structure Waits (R : Regime) (m : Module) (settings : Settings) (i : Instance) : Prop
    extends R.Serves m settings i where
  status : i.status = .suspended
  event : i.event ∈ Event.handled
  eventArgs : R.Given i.eventArgs
  frames : i.machine.frames ≠ []
  machine : R.Stopped i.machine

structure Works (R : Regime) (m : Module) (settings : Settings) (i : Instance) : Prop
    extends R.Serves m settings i where
  status : i.status = .running
  event : i.event ∈ Event.handled
  eventArgs : R.Given i.eventArgs
  machine : R.Active i.machine

/-- What is so of an instance at rest, or disposed of. -/
def Stands (R : Regime) (m : Module) (settings : Settings) (i : Instance) : Prop :=
  R.Rests m settings i ∨ R.Waits m settings i ∨ i.status = .disposed

/-- Single steps keep the regime. -/
structure Kept (R : Regime) (m : Module) (settings : Settings) (Allowed : Instance.Allows) :
    Prop where
  zero : R.Target 0
  nil : R.Given []
  handler : m.handler? n event = some f → event ∈ Event.handled ∧ ∃ g, m.function? f = some g
  boot : (settings.machine m).boot Host.null.bareEnv m fuel () = some (.ok (), s, ()) →
    s.pending = none ∧ R.Idle s
  enter : ∀ {n : Nat} {event : Event} {f : UInt16} {args : List Value},
    R.Idle s → s.frames = [] → s.pending = none → m.handler? n event = some f →
    Instance.argsError? event args = none → R.Given args → s.enter m f args = .ok s' → R.Active s'
  next : ∀ {w w' : Surroundings σ},
    Allowed env → R.Active s → s.step env m w = .next s' w' → R.Active s'
  suspend : ∀ {s s' : Machine} {w w' : Surroundings σ},
    R.Active s → s.step env m w = .halt .suspended s' w' → R.Stopped s'
  resume : R.Stopped s → R.Active s
  halt : ∀ {s s' : Machine} {w w' : Surroundings σ}
    {why : Halt}, R.Active s → s.step env m w = .halt why s' w' →
    ∀ n, R.Idle { s' with frames := [], pending := none, memUsage := n }
  target : R.Active s → ∀ t ∈ s.pending, R.Target t
  /-- An instance that takes the place of another one. -/
  hop : R.Rests m settings i → R.Stands m settings j →
    j.isAtRest = true → (j.snapshot.send m sink).error = none →
    R.Stands m settings (i.migrateIn (j.snapshot.send m sink).bytes).2

variable {R : Regime} {i : Instance} {Allowed : Instance.Allows}

theorem Rests.withRequests (h : R.Rests m settings i) (q : Requests) :
    R.Rests m settings { i with requests := q } :=
  ⟨⟨h.module, h.memLimit, h.maxCallDepth, h.state, h.phase⟩, h.status, h.event, h.eventArgs,
    h.settled, h.frames, h.pending, h.machine⟩

theorem Waits.withRequests (h : R.Waits m settings i) (q : Requests) :
    R.Waits m settings { i with requests := q } :=
  ⟨⟨h.module, h.memLimit, h.maxCallDepth, h.state, h.phase⟩, h.status, h.event, h.eventArgs,
    h.frames, h.machine⟩

theorem Stands.withRequests (h : R.Stands m settings i) (q : Requests) :
    R.Stands m settings { i with requests := q } := by
  obtain h | h | h := h
  · exact .inl (h.withRequests q)
  · exact .inr (.inl (h.withRequests q))
  · exact .inr (.inr h)

theorem Stands.settled (h : R.Stands m settings i) : R.Stands m settings i.settled.2 := by
  obtain ⟨q, hq⟩ := Instance.settled_eq i
  rw [hq]
  exact h.withRequests q

namespace Kept

variable (hR : R.Kept m settings Allowed)

include hR

omit hR in
theorem failed (hi : R.Serves m settings i)
    (hm : ∀ n, R.Idle { i.machine with frames := [], pending := none, memUsage := n })
    (f : PlacedFault) : R.Stands m settings (i.failed f).2 := by
  obtain ⟨q, hq⟩ := Instance.failed_eq i f
  rw [hq]
  exact .inl ⟨⟨hi.module, hi.memLimit, hi.maxCallDepth, hi.state, nofun⟩, rfl, rfl, rfl, rfl, rfl,
    rfl, hm _⟩

theorem handlerOf (h : i.handlerOf? event = some f) (hi : i.module = m) :
    ∃ n g, m.handler? n event = some f ∧ event ∈ Event.handled ∧ m.function? f = some g := by
  obtain ⟨n, -, hn⟩ := bind_eq_some_iff.1 h
  rw [hi] at hn
  obtain ⟨he, g, hg⟩ := hR.handler hn
  exact ⟨n, g, hn, he, hg⟩

variable (hboot : m.Boots settings)

include hboot

omit hR in
theorem maxCallDepth_pos : 0 < settings.maxCallDepth := by
  obtain ⟨fuel, s, h⟩ := hboot
  exact (boot_limits h).2.2

omit hR in
theorem enter_ne_error {s : Machine} (hg : m.function? f = some g) (hframes : s.frames = [])
    (hdepth : s.maxCallDepth = settings.maxCallDepth) : s.enter m f args ≠ .error e := by
  rw [enter_of_nil hg hframes (by rw [hdepth]; exact maxCallDepth_pos hboot)]
  nofun

omit hR in
theorem boot_ok {s : Machine} (hlimit : s.memLimit = settings.memoryLimit)
    (hdepth : s.maxCallDepth = settings.maxCallDepth)
    (h : s.boot Host.null.bareEnv m fuel () = some (r, s', ())) : r = .ok () ∧
      (settings.machine m).boot Host.null.bareEnv m fuel () = some (.ok (), s', ()) := by
  have hsame : s.boot Host.null.bareEnv m fuel () =
      (settings.machine m).boot Host.null.bareEnv m fuel () := by
    unfold Machine.boot Machine.rewound
    rw [hlimit, hdepth]
    rfl
  obtain ⟨fuel', s0, h0⟩ := hboot
  rw [hsame] at h
  have h1 := boot_mono h (Nat.le_max_left fuel fuel')
  have h2 := boot_mono h0 (Nat.le_max_right fuel fuel')
  rw [h1] at h2
  cases h2
  exact ⟨rfl, h⟩

omit hboot in
theorem works_entering
    (hi : R.Serves m settings i) (hm : R.Idle i.machine) (hframes : i.machine.frames = [])
    (hpending : i.machine.pending = none) (hf : i.handlerOf? event = some f)
    (hargs : Instance.argsError? event args = none) (hgiven : R.Given args)
    (he : i.machine.enter m f args = .ok machine) :
    R.Works m settings (i.entering event args machine) := by
  obtain ⟨n, g, hn, hevent, -⟩ := hR.handlerOf hf hi.module
  have hactive := hR.enter hm hframes hpending hn hargs hgiven he
  obtain ⟨g', -, -, rfl⟩ := enter_ok he
  exact ⟨⟨hi.module, hi.memLimit, hi.maxCallDepth, hi.state, hi.phase⟩, rfl, hevent, hgiven, hactive⟩

theorem meets_advances {i : Instance} (hi : R.Serves m settings i)
    (hm : ∀ n, R.Idle { i.machine with frames := [], pending := none, memUsage := n })
    (hframes : i.machine.frames = []) (htarget : ∀ t ∈ i.machine.pending, R.Target t)
    (ha : Instance.Advances i a) :
    (Instance.conclude a).Meets (R.Works m settings) fun r => R.Stands m settings r.2 := by
  have hidle : R.Idle { i.machine with pending := none } := by
    have := hm i.machine.memUsage
    rwa [← hframes] at this
  have hmoved {state : Int32} {phase : Phase} (h : Instance.Moves i state phase) :
      R.Serves m settings (i.moved state phase) := by
    refine ⟨hi.module, hi.memLimit, hi.maxCallDepth, ?_, ?_⟩
    · cases h with
      | stays | exits _ => exact hi.state
      | @enters next h => exact ⟨next, rfl, h.elim (htarget next) (hi.phase next)⟩
    · cases h with
      | stays => exact hi.phase
      | exits h => rintro t ⟨⟩; exact htarget _ h
      | enters _ => nofun
  cases ha with
  | rests h =>
    refine Stands.settled (.inl ?_)
    exact ⟨⟨hi.module, hi.memLimit, hi.maxCallDepth, (hmoved h).state, nofun⟩, rfl, rfl, rfl, rfl,
      hframes, rfl, hidle⟩
  | @calls state phase event f machine h he hf hx =>
    have hargs : Instance.argsError? event [] = none := by
      obtain ⟨rfl, -⟩ | ⟨rfl, -⟩ := he <;> rfl
    rw [hi.module] at hx
    exact hR.works_entering (hmoved h) hidle hframes rfl hf hargs hR.nil hx
  | refuses h hf hx =>
    obtain ⟨n, g, -, -, hg⟩ := hR.handlerOf hf (hmoved h).module
    rw [hi.module] at hx
    exact absurd hx (enter_ne_error hboot hg hframes hi.maxCallDepth)
  | nests _ => exact failed (hmoved .stays) hm _

theorem meets_resets {i : Instance} (hi : R.Serves m settings i) (ha : Instance.Resets i fuel a) :
    (Instance.conclude a).Meets (R.Works m settings) fun r => R.Stands m settings r.2 := by
  have hserves {s : Machine} (hb : (settings.machine m).boot Host.null.bareEnv m fuel () =
      some (.ok (), s, ())) : R.Serves m settings (i.rebooted s) := by
    obtain ⟨hlimit, hdepth, -⟩ := boot_limits hb
    exact ⟨hi.module, hlimit, hdepth, ⟨0, rfl, hR.zero⟩, nofun⟩
  have hok {s : Machine} {r : Except Machine.BootError Unit} (hb : i.machine.boot Host.null.bareEnv
      i.module fuel () = some (r, s, ())) := boot_ok hboot hi.memLimit hi.maxCallDepth
        (hi.module ▸ hb)
  cases ha with
  | fails hb => cases (hok hb).1
  | rests hb =>
    obtain ⟨-, hb⟩ := hok hb
    obtain ⟨hpending, hidle⟩ := hR.boot hb
    refine Stands.settled (.inl ?_)
    exact { hserves hb with
      status := rfl, event := rfl, eventArgs := rfl, settled := rfl
      frames := boot_leaves hb, pending := hpending, machine := hidle }
  | calls hb hf hx =>
    obtain ⟨-, hb⟩ := hok hb
    obtain ⟨hpending, hidle⟩ := hR.boot hb
    rw [hi.module] at hx
    exact hR.works_entering (hserves hb) hidle (boot_leaves hb) hpending hf rfl hR.nil hx
  | refuses hb hf hx =>
    obtain ⟨-, hb⟩ := hok hb
    obtain ⟨n, g, -, -, hg⟩ := hR.handlerOf hf (hserves hb).module
    rw [hi.module] at hx
    exact absurd hx (enter_ne_error hboot hg (boot_leaves hb) (hserves hb).maxCallDepth)

theorem meets_react {ws : Surroundings σ} {p : Instance.Progress}
    (hi : R.Works m settings i) (hs : i.machine.step env m w = .halt why s ws)
    (hp : (i.ran s q).react fuel (s.exit i.module why) =
      some p) : p.Meets (R.Works m settings) fun r => R.Stands m settings r.2 := by
  obtain ⟨hlimit, hdepth⟩ := step_halt_limits hs
  have hserves : R.Serves m settings (i.ran s q) :=
    ⟨hi.module, hlimit.trans hi.memLimit, hdepth.trans hi.maxCallDepth, hi.state, hi.phase⟩
  have hidle := hR.halt hi.machine hs
  have hleaves := step_leaves hs
  cases why with
  | completed v =>
    cases hp
    refine hR.meets_advances hboot hserves hidle hleaves ?_ (Instance.advance_advances _)
    rw [show s.pending = i.machine.pending by rw [step_halt_keeps hs]]
    exact hR.target hi.machine
  | suspended =>
    cases hp
    refine Stands.settled (.inr (.inl ?_))
    exact ⟨⟨hi.module, hserves.memLimit, hserves.maxCallDepth, hi.state, hi.phase⟩, rfl, hi.event,
      hi.eventArgs, hleaves, hR.suspend hi.machine hs⟩
  | fault f => cases hp; exact failed hserves hidle _
  | signal x =>
    cases x with
    | reset =>
      obtain ⟨a, ha, rfl⟩ := map_eq_some_iff.1 hp
      exact hR.meets_resets hboot hserves (Instance.reset_resets ha)
    | terminate => cases hp; exact .inr (.inr rfl)

theorem works_turn (henv : Allowed env)
    (hi : R.Works m settings i) (h : Instance.Turns env i w i' w') : R.Works m settings i' := by
  cases h with
  | runs hs =>
    rw [hi.module] at hs
    obtain ⟨hlimit, hdepth⟩ := step_limits hs
    exact ⟨⟨hi.module, hlimit.trans hi.memLimit, hdepth.trans hi.maxCallDepth, hi.state, hi.phase⟩,
      hi.status, hi.event, hi.eventArgs, hR.next henv hi.machine hs⟩
  | follows hs hp =>
    rw [hi.module] at hs
    exact hR.meets_react hboot hi hs hp

theorem works_passes (henv : Allowed env)
    (hi : R.Works m settings i) (h : Instance.Passes env i w i' w') : R.Works m settings i' := by
  induction h with
  | refl => exact hi
  | next ht _ ih => exact ih (hR.works_turn hboot henv hi ht)

theorem stands_execute (henv : Allowed env) (hi : R.Works m settings i)
    (h : Instance.executeIn env fuel i w = some (r, w')) : R.Stands m settings r.2 := by
  obtain ⟨j, v, why, s, q, fuel', hp, hc⟩ := Instance.executeIn_passes h
  have hj := hR.works_passes hboot henv hi hp
  have hs := hc.halts
  rw [hj.module] at hs
  exact hR.meets_react hboot hj hs hc.reacts

omit hboot in
theorem works_start
    (hi : R.Stands m settings i) (hargs : R.Given args) (hr : i.refusal? event args = none)
    (hf : (i.readied q).handlerOf? event = some f)
    (he : (i.readied q).machine.enter i.module f args = .ok machine) :
    R.Works m settings ((i.readied q).entering event args machine) := by
  obtain ⟨hstatus, -, -, herror⟩ := Instance.refusal?_eq_none hr
  obtain hi | hi | hi := hi
  · have hm : (i.readied q).machine = i.machine := by
      rw [← Instance.clearPending_of_none hi.pending]; rfl
    rw [hi.module, hm] at he
    have hserves : R.Serves m settings (i.readied q) :=
      ⟨hi.module, hi.memLimit, hi.maxCallDepth, hi.state, nofun⟩
    refine hR.works_entering hserves (hm ▸ hi.machine) (hm ▸ hi.frames) (hm ▸ hi.pending) hf
      herror hargs ?_
    rw [hm]
    exact he
  · exact absurd (hstatus.symm.trans hi.status) (by decide)
  · exact absurd (hstatus.symm.trans hi) (by decide)

theorem start_ne_error {i : Instance} (hi : R.Stands m settings i)
    (hr : i.refusal? event args = none) (hf : (i.readied q).handlerOf? event = some f) :
    (i.readied q).machine.enter i.module f args ≠ .error e := by
  obtain ⟨hstatus, -, -, -⟩ := Instance.refusal?_eq_none hr
  obtain hi | hi | hi := hi
  · obtain ⟨n, g, -, -, hg⟩ := hR.handlerOf hf hi.module
    rw [hi.module]
    exact enter_ne_error hboot hg hi.frames hi.maxCallDepth
  · exact absurd (hstatus.symm.trans hi.status) (by decide)
  · exact absurd (hstatus.symm.trans hi) (by decide)

omit hboot in
theorem works_resume (hi : R.Stands m settings i) (hs : i.status = .suspended) :
    R.Works m settings { i with status := .running } := by
  obtain hi | hi | hi := hi
  · exact absurd (hs.symm.trans hi.status) (by decide)
  · exact ⟨⟨hi.module, hi.memLimit, hi.maxCallDepth, hi.state, hi.phase⟩, rfl, hi.event,
      hi.eventArgs, hR.resume hi.machine⟩
  · exact absurd (hs.symm.trans hi) (by decide)

theorem stands_start (henv : Allowed env) (hi : R.Stands m settings i) (hargs : R.Given args)
    (h : i.startIn env fuel event args w = some (r, w')) : R.Stands m settings r.2 := by
  have hs := Instance.startIn_starts env fuel i event args w
  rw [h] at hs
  generalize ho : some (r, w') = o at hs
  cases hs with
  | refuses _ => cases ho; exact hi
  | undelivered _ _ => cases ho; exact hi.withRequests _
  | @unhandled q hr _ =>
    cases ho
    obtain ⟨hstatus, -, -, -⟩ := Instance.refusal?_eq_none hr
    obtain hi | hi | hi := hi
    · exact .inl ⟨⟨hi.module, hi.memLimit, hi.maxCallDepth, hi.state, nofun⟩, hi.status, hi.event,
        hi.eventArgs, rfl, hi.frames, rfl, by
          rw [show (i.readied q).machine = i.machine by
            rw [← Instance.clearPending_of_none hi.pending]; rfl]
          exact hi.machine⟩
    · exact absurd (hstatus.symm.trans hi.status) (by decide)
    · exact absurd (hstatus.symm.trans hi) (by decide)
  | uncalled hr _ hf hx => exact absurd hx (hR.start_ne_error hboot hi hr hf)
  | calls hr _ hf hx =>
    exact hR.stands_execute hboot henv (hR.works_start hi hargs hr hf hx) ho.symm

theorem stands_resume
    (henv : Allowed env) (hi : R.Stands m settings i) (h : i.resumeIn env fuel w = some (r, w')) :
    R.Stands m settings r.2 := by
  unfold Instance.resumeIn at h
  split at h
  · exact hR.stands_execute hboot henv (hR.works_resume hi ‹_›) h
  · cases h; exact hi

end Kept

theorem Kept.stands (hR : R.Kept m settings Allowed)
    (h : Instance.Reachable m settings Allowed R.Given i) : R.Stands m settings i := by
  induction h with
  | new hn =>
    obtain ⟨⟨result, s, u⟩, hb, hr⟩ := map_eq_some_iff.1 hn
    cases result with
    | error e => cases hr
    | ok u =>
      cases hr
      obtain ⟨hlimit, hdepth, -⟩ := boot_limits hb
      obtain ⟨hpending, hidle⟩ := hR.boot hb
      exact .inl ⟨⟨rfl, hlimit, hdepth, ⟨0, rfl, hR.zero⟩, nofun⟩, rfl, rfl, rfl, rfl,
        boot_leaves hb, hpending, hidle⟩
  | start hi henv hargs h ih => exact hR.stands_start hi.boots henv ih hargs h
  | resume hi henv h ih => exact hR.stands_resume hi.boots henv ih h
  | requestSuspend _ ih => exact ih.withRequests _
  | requestMigration sink _ ih =>
    obtain ⟨q, hq⟩ := Instance.requestMigration_snd _ sink
    rw [hq]
    exact ih.withRequests q
  | @migrateIn i j sink _ _ hrest herror ihi ihj =>
    by_cases hs : i.status = .idle
    · obtain ihi | ihi | ihi := ihi
      · exact hR.hop ihi ihj hrest herror
      · exact absurd (hs.symm.trans ihi.status) (by decide)
      · exact absurd (hs.symm.trans ihi) (by decide)
    · unfold Instance.migrateIn
      rw [if_neg hs]
      exact ihi
  | dispose _ _ => exact .inr (.inr rfl)

theorem Kept.works (hR : R.Kept m settings Allowed)
    (h : Instance.Running m settings Allowed R.Given i) : R.Works m settings i := by
  induction h with
  | start hi hargs hr _ hf he => exact hR.works_start (hR.stands hi) hargs hr hf he
  | resume hi hs => exact hR.works_resume (hR.stands hi) hs
  | turn hi henv ht ih => exact hR.works_turn hi.boots henv ih ht

end Regime

end EventScript
