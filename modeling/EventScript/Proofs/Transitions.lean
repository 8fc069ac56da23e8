import EventScript.Proofs.Lifecycle

/-!
# Changes of state

The handler of an event can ask for another state. When it has returned, the old state is left and
the new one is entered, each by its own handler if the script has one
(`Instance.transitions_sequenced`). This is so however often the handlers are suspended meanwhile,
and wherever the instance is written to.

`Instance.Handling` follows an event through all that, and `Instance.Leads` through one of its calls,
which comes to an `Instance.Outcome`. They keep the handlers that have returned and the one that
runs, each with the state that it has asked for last (`Stage`). What follows a handler that has
returned depends on the phase of the instance (`Instance.Transits`), and the phase says which
handlers there have been (`Stage.Sequence`).
-/

namespace EventScript

open Machine Option

def Module.handlerIn? (m : Module) (state : Int32) (event : Event) : Option UInt16 :=
  if state < 0 then none else m.handler? state.toInt.toNat event

theorem Instance.handlerOf?_eq (i : Instance) (event : Event) :
    i.handlerOf? event = i.module.handlerIn? i.state event := by
  unfold handlerOf? stateIndex? Module.handlerIn?
  split <;> rfl

/-! ## What follows a handler -/

namespace Instance

variable {i : Instance}

/-- The old state has been left for another one: it has no handler for that, or the handler has
returned and has not asked for a state. -/
def LeftFor (i : Instance) (n : UInt16) : Prop :=
  i.phase = .handler ∧ i.machine.pending = some n ∧ Int32.ofNat n.toNat ≠ i.state ∧
      i.module.handlerIn? i.state .stateExit = none ∨
    i.phase = .exiting n ∧ i.machine.pending = none

/-- What follows a handler that has returned. -/
inductive Transits (i : Instance) : Advance → Prop
  | stays : i.phase = .handler → (∀ n ∈ i.machine.pending, Int32.ofNat n.toNat = i.state) →
      Transits i (.ok false, (i.moved i.state i.phase).finish)
  | exits {machine : Machine} : i.phase = .handler → i.machine.pending = some n →
      Int32.ofNat n.toNat ≠ i.state → i.module.handlerIn? i.state .stateExit = some f →
      i.clearPending.machine.enter i.module f [] = .ok machine →
      Transits i (.ok true, (i.moved i.state (.exiting n)).entering .stateExit [] machine)
  | enters {machine : Machine} : i.LeftFor n →
      i.module.handlerIn? (Int32.ofNat n.toNat) .stateEntry = some f →
      i.clearPending.machine.enter i.module f [] = .ok machine → Transits i
        (.ok true, (i.moved (Int32.ofNat n.toNat) .entering).entering .stateEntry [] machine)
  | arrives : i.LeftFor n → i.module.handlerIn? (Int32.ofNat n.toNat) .stateEntry = none →
      Transits i (.ok false, (i.moved (Int32.ofNat n.toNat) .entering).finish)
  | entered : i.phase = .entering → i.machine.pending = none →
      Transits i (.ok false, (i.moved i.state i.phase).finish)
  | nestsExit : i.phase = .exiting n → i.machine.pending.isSome = true →
      Transits i (.error (i.transitionFault .stateExit), i.moved i.state i.phase)
  | nestsEntry : i.phase = .entering → i.machine.pending.isSome = true →
      Transits i (.error (i.transitionFault .stateEntry), i.moved i.state i.phase)

def CanCall (i : Instance) : Prop :=
  ∀ state event f e, i.module.handlerIn? state event = some f →
    i.clearPending.machine.enter i.module f [] ≠ .error e

theorem begin_moved (hcan : i.CanCall) (state : Int32) (phase : Phase) (event : Event) :
    i.module.handlerIn? state event = none ∧
      (i.moved state phase).begin event [] = (.ok false, i.moved state phase) ∨
    ∃ f machine, i.module.handlerIn? state event = some f ∧
      i.clearPending.machine.enter i.module f [] = .ok machine ∧
      (i.moved state phase).begin event [] =
        (.ok true, (i.moved state phase).entering event [] machine) := by
  have hhandler : (i.moved state phase).handlerOf? event = i.module.handlerIn? state event :=
    handlerOf?_eq ..
  rw [begin_eq, hhandler]
  cases hf : i.module.handlerIn? state event with
  | none => exact .inl ⟨rfl, rfl⟩
  | some f =>
    cases hx : i.clearPending.machine.enter i.module f [] with
    | error e => exact absurd hx (hcan state event f e hf)
    | ok machine =>
      refine .inr ⟨f, machine, rfl, hx, ?_⟩
      dsimp only
      rw [show (i.moved state phase).machine.enter (i.moved state phase).module f [] =
        i.clearPending.machine.enter i.module f [] from rfl, hx]

theorem enter_transits (hcan : i.CanCall) (h : i.LeftFor n) :
    Transits i (proceed ((i.moved (Int32.ofNat n.toNat) .entering).begin .stateEntry []) entered) := by
  obtain ⟨hf, hb⟩ | ⟨f, machine, hf, hx, hb⟩ :=
    begin_moved hcan (Int32.ofNat n.toNat) .entering .stateEntry
  · rw [hb]
    exact .arrives h hf
  · rw [hb]
    exact .enters h hf hx

theorem advance_transits (hcan : i.CanCall) : Transits i i.advance := by
  unfold advance
  split
  · rename_i hphase
    unfold handled
    split
    · rename_i hp
      rw [show i.finish = (i.moved i.state i.phase).finish by rw [moved_of_none hp]]
      exact .stays hphase (by rw [hp]; rintro _ ⟨⟩)
    · rename_i n hp
      dsimp only
      split
      · rename_i hn
        refine .stays hphase ?_
        rw [hp]
        rintro _ ⟨⟩
        exact hn
      · rename_i hn
        change Transits i (proceed ((i.moved i.state (.exiting n)).begin .stateExit []) (·.exited n))
        obtain ⟨hf, hb⟩ | ⟨f, machine, hf, hx, hb⟩ := begin_moved hcan i.state (.exiting n) .stateExit
        · rw [hb]
          exact enter_transits hcan (.inl ⟨hphase, hp, hn, hf⟩)
        · rw [hb]
          exact .exits hphase hp hn hf hx
  · rename_i hphase
    unfold exited
    split
    · exact .nestsExit hphase ‹_›
    rename_i h
    have hp : i.machine.pending = none := by simpa using h
    have henter := enter_transits hcan (.inr ⟨hphase, hp⟩)
    unfold moved at henter
    rwa [clearPending_of_none hp] at henter
  · rename_i hphase
    unfold entered
    split
    · exact .nestsEntry hphase ‹_›
    rename_i h
    have hp : i.machine.pending = none := by simpa using h
    rw [show i.finish = (i.moved i.state i.phase).finish by rw [moved_of_none hp]]
    exact .entered hphase hp

end Instance

/-! ## Handlers in a row -/

structure Stage where
  event : Event
  /-- The state that the script is in. -/
  state : Int32
  function : UInt16
  /-- The state that the handler has asked for last. -/
  asked : Option UInt16
  deriving DecidableEq

/-- The handler of an event in a state, if there is one, when it has asked for no state. -/
def Module.stages (m : Module) (state : Int32) (event : Event) : List Stage :=
  ((m.handlerIn? state event).map fun f => ⟨event, state, f, none⟩).toList

/-- The state that has been asked for last, after the next instruction. -/
def Machine.asksFor (s : Machine) (m : Module) (asked : Option UInt16) : Option UInt16 :=
  match s.nextOp? m with
  | some (_, .setState t) => some t
  | _ => asked

/-- The handlers that there have been by the time of a phase, and the one that runs. -/
inductive Stage.Sequence (m : Module) (state : Int32) (event : Event) :
    Phase → List Stage → Stage → Prop
  | handling {asked : Option UInt16} : m.handlerIn? state event = some f →
      Sequence m state event .handler [] ⟨event, state, f, asked⟩
  | exiting {asked : Option UInt16} : m.handlerIn? state event = some f →
      Int32.ofNat n.toNat ≠ state → m.handlerIn? state .stateExit = some g →
      Sequence m state event (.exiting n) [⟨event, state, f, some n⟩] ⟨.stateExit, state, g, asked⟩
  | entering {asked : Option UInt16} : m.handlerIn? state event = some f →
      Int32.ofNat n.toNat ≠ state → m.handlerIn? (Int32.ofNat n.toNat) .stateEntry = some g →
      Sequence m state event .entering (⟨event, state, f, some n⟩ :: m.stages state .stateExit)
        ⟨.stateEntry, Int32.ofNat n.toNat, g, asked⟩

namespace Instance

variable (env : Env (Surroundings σ)) (past : List Stage) (now : Stage) (i : Instance) (w : σ) in
/-- One step of the code that handles an event: the handler runs on, or it has returned and another
one is called. -/
inductive Proceeds : List Stage → Stage → Instance → σ → Prop
  | runs {s : Machine} {ws : Surroundings σ} :
      i.machine.step env i.module ⟨w, i.requests⟩ = .next s ws →
      Proceeds past { now with asked := i.machine.asksFor i.module now.asked }
        (i.ran s ws.requests) ws.host
  | follows {i' : Instance} {v : Value} {s : Machine} {ws : Surroundings σ} {f : UInt16} :
      i.machine.step env i.module ⟨w, i.requests⟩ = .halt (.completed v) s ws →
      (i.ran s ws.requests).advance = (.ok true, i') →
      i'.machine.bottom? = some f →
      Proceeds (past ++ [now]) ⟨i'.event, i'.state, f, none⟩ i' ws.host

/-- The way of a call through the handlers of an event. The lists have the handlers that have
returned, and the stages are those of the handlers that run. -/
inductive Leads (env : Env (Surroundings σ)) :
    List Stage → Stage → Instance → σ → List Stage → Stage → Instance → σ → Prop
  | refl : Leads env past now i w past now i w
  | next {w₁ : σ} : Proceeds env past now i w past₁ now₁ i₁ w₁ →
      Leads env past₁ now₁ i₁ w₁ past' now' j v → Leads env past now i w past' now' j v

variable (m : Module) (settings : Settings) (start : Instance) (event : Event) in
/-- The event that was delivered to an idle instance is being handled, in one call or in many. Each
part of the way can have an environment of its own. -/
inductive Handling : List Stage → Stage → Instance → Prop
  | begins {machine : Machine} :
      start.refusal? event args = none → start.flush = (none, { start with requests := q }) →
      (start.readied q).handlerOf? event = some f →
      (start.readied q).machine.enter start.module f args = .ok machine →
      Handling [] ⟨event, start.state, f, none⟩
        ((start.readied q).entering event args machine)
  | proceeds {w w' : σ} : Handling past now i → i.status = .running →
      Proceeds env past now i w past' now' i' w' → Handling past' now' i'
  | suspends {past : List Stage} {now : Stage} {i : Instance}
      {w : σ} {s : Machine} {ws : Surroundings σ} :
      Handling past now i → i.status = .running →
      i.machine.step env i.module ⟨w, i.requests⟩ = .halt .suspended s ws →
      Handling past now (i.ran s ws.requests).suspended.2
  | resumes : Handling past now i → i.status = .suspended →
      Handling past now { i with status := .running }
  | requestSuspend : Handling past now i → Handling past now i.requestSuspend
  | requestMigration (sink : Sink) : Handling past now i →
      Handling past now (i.requestMigration sink).2
  /-- Another instance takes the place of the one that was written. -/
  | migrates {sink : Sink} {status : Status} :
      Handling past now i → i.status = .suspended → Arises m settings k → k.status = .idle →
      k.migrateIn (i.snapshot.send m sink).bytes = (.ok status, k') → Handling past now k'

/-- What is so while an event is handled. -/
structure Handled (m : Module) (settings : Settings) (start : Instance) (event : Event)
    (past : List Stage) (now : Stage) (i : Instance) : Prop where
  stands : m.stacking.Works m settings i ∨ m.stacking.Waits m settings i
  sequence : Stage.Sequence m start.state event i.phase past now
  state : i.state = now.state
  event : i.event = now.event
  bottom : i.machine.bottom? = some now.function
  pending : i.machine.pending = now.asked

end Instance

/-! ## Steps -/

variable {m : Module}

theorem Machine.step_pending {s s' : Machine} (h : s.step env m w = .next s' w') : s'.pending =
    s.asksFor m s.pending := by
  cases step_goes h with
  | @runs f fs g op _ _ hframes hr hg hop hdoes =>
    have hnext : s.nextOp? m = some (f, op) := by
      simp only [nextOp?, hframes, hr, hg, hop, bind_some, map_some]
    unfold asksFor
    rw [hnext]
    cases hdoes with
    | operands hg _ =>
      cases op with
      | setState t => cases hg
      | _ => rfl
    | load var _ | store var _ _ | @arraySet var _ _ _ _ _ _ _ _ => cases var <;> rfl
    | call _ _ he =>
      obtain ⟨g, -, -, rfl⟩ := enter_ok he
      rfl
    | _ => rfl
  | answers hframes hr _ _ =>
    have hnext : s.nextOp? m = none := by simp only [nextOp?, hframes, hr]
    unfold asksFor
    rw [hnext]

variable {state : Int32} {event : Event} {past : List Stage} {now : Stage}

theorem Stage.Sequence.withAsked (h : Sequence m state event phase past now)
    (asked : Option UInt16) : Sequence m state event phase past { now with asked } := by
  cases h with
  | handling hf => exact .handling hf
  | exiting hf hn hg => exact .exiting hf hn hg
  | entering hf hn hg => exact .entering hf hn hg

theorem Stage.Sequence.exits (h : Sequence m state event .handler past now)
    (hasked : now.asked = some n) (hn : Int32.ofNat n.toNat ≠ now.state)
    (hg : m.handlerIn? now.state .stateExit = some g) :
    Sequence m state event (.exiting n) (past ++ [now]) ⟨.stateExit, now.state, g, none⟩ := by
  cases h with
  | handling hf =>
    cases hasked
    exact .exiting hf hn hg

/-- When the old state has been left, there have been the handler of the event and the one for
that. -/
theorem Stage.Sequence.left (h : Sequence m state event phase past now)
    (hleft : phase = .handler ∧ now.asked = some n ∧ Int32.ofNat n.toNat ≠ now.state ∧
        m.handlerIn? now.state .stateExit = none ∨
      phase = .exiting n ∧ now.asked = none) :
    ∃ f, m.handlerIn? state event = some f ∧ Int32.ofNat n.toNat ≠ state ∧
      past ++ [now] = ⟨event, state, f, some n⟩ :: m.stages state .stateExit := by
  unfold Module.stages
  cases h with
  | handling hf =>
    obtain ⟨-, hasked, hn, hnone⟩ | ⟨hphase, -⟩ := hleft
    · cases hasked
      exact ⟨_, hf, hn, by rw [show m.handlerIn? state .stateExit = none from hnone]; rfl⟩
    · cases hphase
  | exiting hf hn hg =>
    obtain ⟨hphase, -⟩ | ⟨hphase, hasked⟩ := hleft
    · cases hphase
    cases hphase
    cases hasked
    exact ⟨_, hf, hn, by rw [hg]; rfl⟩
  | entering _ _ _ =>
    obtain ⟨hphase, -⟩ | ⟨hphase, -⟩ := hleft
    · cases hphase
    · cases hphase

namespace Instance

section

variable {start i i' : Instance}
  (hR : m.stacking.Kept m settings fun _ => True)
  (hboot : m.Boots settings)

section

variable (h : Handled m settings start event past now i)

include h

theorem Handled.works (hs : i.status = .running) : m.stacking.Works m settings i := by
  obtain h | h := h.stands
  · exact h
  · exact absurd (hs.symm.trans h.status) (by decide)

theorem Handled.waits (hs : i.status = .suspended) : m.stacking.Waits m settings i := by
  obtain h | h := h.stands
  · exact absurd (hs.symm.trans h.status) (by decide)
  · exact h

theorem Handled.withRequests (q : Requests) :
    Handled m settings start event past now { i with requests := q } := by
  refine ⟨?_, h.sequence, h.state, h.event, h.bottom, h.pending⟩
  obtain h | h := h.stands
  · exact .inl ⟨⟨h.module, h.memLimit, h.maxCallDepth, h.state, h.phase⟩, h.status, h.event,
      h.eventArgs, h.machine⟩
  · exact .inr (h.withRequests q)

end

include hR hboot

theorem canCall {ws : Surroundings σ} (hi : m.stacking.Works m settings i)
    (hstep : i.machine.step env i.module w = .halt (.completed v) s ws) :
    (i.ran s ws.requests).CanCall := by
  intro state event f e hf
  have hframes : s.frames = [] := step_leaves hstep
  have hdepth := (step_halt_limits hstep).2.trans hi.maxCallDepth
  unfold Module.handlerIn? at hf
  split at hf
  · cases hf
  rw [hi.module] at hf
  obtain ⟨-, g, hg⟩ := hR.handler hf
  rw [hi.module]
  exact Regime.Kept.enter_ne_error hboot hg hframes hdepth

omit hR hboot in
theorem Handled.leftFor (h : Handled m settings start event past now i)
    (hm : i.module = m) (hs : s.pending = i.machine.pending)
    (hleft : (i.ran s q).LeftFor n) :
    ∃ f, m.handlerIn? start.state event = some f ∧ Int32.ofNat n.toNat ≠ start.state ∧
      past ++ [now] = ⟨event, start.state, f, some n⟩ :: m.stages start.state .stateExit := by
  refine h.sequence.left ?_
  rw [← h.pending, ← h.state, ← hs, ← hm]
  exact hleft

theorem Handled.follows {ws : Surroundings σ} (h : Handled m settings start event past now i)
    (hs : i.status = .running)
    (hstep : i.machine.step env i.module ⟨w, i.requests⟩ = .halt (.completed v) s ws)
    (ha : (i.ran s ws.requests).advance = (.ok true, i'))
    (hf : i'.machine.bottom? = some f) :
    Handled m settings start event (past ++ [now]) ⟨i'.event, i'.state, f, none⟩ i' := by
  have hworks := h.works hs
  have hreact : (i.ran s ws.requests).react 0
      (s.exit i.module (.completed v)) = some (.more i') := by
    show some (conclude (advance _)) = _
    rw [ha]
    rfl
  have hworks' := hR.works_turn hboot trivial hworks (.follows hstep hreact)
  have hpending : s.pending = i.machine.pending := by rw [step_halt_keeps hstep]
  -- the new handler is the only function that is called
  have hcalled {g : UInt16} {machine : Machine}
      (hx : Machine.enter { s with pending := none } i.module g [] = .ok machine) :
      machine.bottom? = some g ∧ machine.pending = none := by
    obtain ⟨g', -, -, rfl⟩ := enter_ok hx
    refine ⟨?_, rfl⟩
    simp only [Machine.bottom?, show s.frames = [] from step_leaves hstep]
    rfl
  have htransits := advance_transits (canCall hR hboot hworks hstep)
  rw [ha] at htransits
  cases htransits with
  | exits hphase hp hn hg hx =>
    obtain ⟨hbottom, hnone⟩ := hcalled hx
    cases hbottom.symm.trans hf
    refine ⟨.inl hworks', ?_, rfl, rfl, hf, hnone⟩
    have hsequence := h.sequence
    rw [show i.phase = .handler from hphase] at hsequence
    have hexits := hsequence.exits (h.pending.symm.trans (hpending.symm.trans hp))
      (h.state ▸ hn) (by rw [← h.state, ← hworks.module]; exact hg)
    rw [← h.state] at hexits
    exact hexits
  | enters hleft hg hx =>
    obtain ⟨hbottom, hnone⟩ := hcalled hx
    cases hbottom.symm.trans hf
    refine ⟨.inl hworks', ?_, rfl, rfl, hf, hnone⟩
    obtain ⟨f', hf', hn, heq⟩ := h.leftFor hworks.module hpending hleft
    rw [heq]
    exact .entering hf' hn (by rw [← hworks.module]; exact hg)

theorem Handled.proceeds {w w' : σ} (h : Handled m settings start event past now i)
    (hs : i.status = .running) (hp : Proceeds env past now i w past' now' i' w') :
    Handled m settings start event past' now' i' := by
  cases hp with
  | runs hstep =>
    have hworks := h.works hs
    refine ⟨.inl (hR.works_turn hboot trivial hworks (.runs hstep)), h.sequence.withAsked _, h.state,
      h.event, ?_, ?_⟩
    · rw [← h.bottom]
      exact (step_shifts hstep).bottom
    · rw [← h.pending]
      exact Machine.step_pending hstep
  | follows hstep ha hf => exact h.follows hR hboot hs hstep ha hf

theorem Handling.handled (hstart : Arises m settings start)
    (h : Handling m settings start event past now i) : Handled m settings start event past now i := by
  induction h with
  | @begins args q f machine hr hflush hf hx =>
    have hstands := hR.stands hstart
    have hrests := hstands.rests (refusal?_eq_none hr).1
    refine ⟨.inl (hR.works_start hstands trivial hr hf hx), .handling ?_, rfl, rfl, ?_, ?_⟩
    · rw [handlerOf?_eq] at hf
      rw [← hrests.module]
      exact hf
    · have hplaced := placed_entering (i := start.readied q) hrests.frames hf hx nofun nofun
      exact hplaced.bottom.trans hf
    · obtain ⟨g, -, -, rfl⟩ := enter_ok hx
      rfl
  | proceeds _ hs hp ih => exact ih.proceeds hR hboot hs hp
  | @suspends σ env past now i w s ws _ hs hstep ih =>
    have hworks := ih.works hs
    obtain ⟨q, hq⟩ := settled_eq ({ i with
      machine := s, status := .suspended, requests := { ws.requests with suspend := false } } :
        Instance)
    show Handled m settings start event past now (settled _).2
    rw [hq]
    rw [hworks.module] at hstep
    obtain ⟨hlimit, hdepth⟩ := step_halt_limits hstep
    refine ⟨.inr ⟨⟨hworks.module, hlimit.trans hworks.memLimit, hdepth.trans hworks.maxCallDepth,
      hworks.state, hworks.phase⟩, rfl, hworks.event, hworks.eventArgs, step_leaves hstep,
      hR.suspend hworks.machine hstep⟩, ih.sequence, ih.state, ih.event, ?_, ?_⟩
    · rw [← ih.bottom]
      exact (step_pauses hstep).same.1
    · rw [← ih.pending, step_halt_keeps hstep]
  | resumes _ hs ih =>
    exact ⟨.inl (hR.works_resume (.inr (.inl (ih.waits hs))) hs), ih.sequence, ih.state, ih.event,
      ih.bottom, ih.pending⟩
  | requestSuspend _ ih => exact ih.withRequests _
  | @requestMigration past now i sink _ ih =>
    obtain ⟨q, hq⟩ := requestMigration_snd i sink
    rw [hq]
    exact ih.withRequests q
  | @migrates past now i k k' sink status _ hs hk hidle hmigrate ih =>
    have hstands : m.stacking.Stands m settings i := .inr (.inl (ih.waits hs))
    have hrest : i.isAtRest = true := by rw [isAtRest, hs]; rfl
    obtain ⟨e, h⟩ | ⟨s, hc, -, h, houtline⟩ :=
      ((hR.stands hk).rests hidle).migrateIn_cases hstands hrest sink
    · rw [h] at hmigrate
      cases hmigrate
    · rw [h] at hmigrate
      cases hmigrate
      have hstatus := (congrArg Instance.status houtline :).trans hs
      have hphase := (congrArg Instance.phase houtline :)
      refine ⟨.inr ?_, hphase ▸ ih.sequence, ?_, ?_, ?_, ?_⟩
      · obtain h | h | h := Module.stacking_restored hstands hrest hc houtline
        · exact absurd (hstatus.symm.trans h.status) (by decide)
        · exact h
        · exact absurd (hstatus.symm.trans h) (by decide)
      · exact (congrArg Instance.state houtline :).trans ih.state
      · exact (congrArg Instance.event houtline :).trans ih.event
      · exact (bottom?_of_outline houtline).trans ih.bottom
      · exact (congrArg (·.machine.pending) houtline :).trans ih.pending

end

/-! ## The end of an event -/

/-- The instance is idle in a state. What has been asked for may not have been taken. -/
def RestsIn (i : Instance) (state : Int32) (r : Except PlacedFault Status) : Prop :=
  i.status = .idle ∧ i.state = state ∧ (r = .ok .idle ∨ ∃ e, r = .error (Fault.migration e))

theorem settled_result {i i' : Instance} (h : i.settled = (r, i')) :
    r = .ok i.status ∨ ∃ e, r = .error (Fault.migration e) := by
  have hstatus := status_settled i
  rw [h] at hstatus
  unfold settled at h
  split at h
  · cases h
    exact .inr ⟨_, rfl⟩
  · cases h
    exact .inl (congrArg _ hstatus)

theorem settled_restsIn {i i' : Instance} (hi : i.status = .idle)
    (h : i.settled = (r, i')) : i'.RestsIn i.state r := by
  have hr := settled_result h
  rw [hi] at hr
  obtain ⟨q, hq⟩ := settled_eq i
  rw [h] at hq
  cases hq
  exact ⟨hi, rfl, hr⟩

theorem failed_nests {i i' : Instance} (h : i.failed (i.transitionFault event) = (r, i')) :
    r = .error (i'.transitionFault event) ∧ i'.status = .idle ∧ i'.state = i.state := by
  obtain ⟨q, hq⟩ := failed_eq i (i.transitionFault event)
  cases hq.symm.trans h
  exact ⟨rfl, rfl, rfl⟩

variable (m : Module) (state : Int32) (event : Event) in
/-- All the handlers that an event has led to, with the result and the instance. -/
inductive Sequenced : List Stage → Except PlacedFault Status → Instance → Prop
  | stays : m.handlerIn? state event = some f → (∀ n ∈ asked, Int32.ofNat n.toNat = state) →
      i.RestsIn state r → Sequenced [⟨event, state, f, asked⟩] r i
  | changes : m.handlerIn? state event = some f → Int32.ofNat n.toNat ≠ state →
      i.RestsIn (Int32.ofNat n.toNat) r → Sequenced (⟨event, state, f, some n⟩ ::
        (m.stages state .stateExit ++ m.stages (Int32.ofNat n.toNat) .stateEntry)) r i
  /-- The handler for leaving the state has asked for a state. -/
  | nestsExit : m.handlerIn? state event = some f → Int32.ofNat n.toNat ≠ state →
      m.handlerIn? state .stateExit = some g → i.status = .idle → i.state = state →
      Sequenced [⟨event, state, f, some n⟩, ⟨.stateExit, state, g, some t⟩]
        (.error (i.transitionFault .stateExit)) i
  /-- The handler for entering the state has asked for a state. -/
  | nestsEntry : m.handlerIn? state event = some f → Int32.ofNat n.toNat ≠ state →
      m.handlerIn? (Int32.ofNat n.toNat) .stateEntry = some g → i.status = .idle →
      i.state = Int32.ofNat n.toNat → Sequenced (⟨event, state, f, some n⟩ ::
        (m.stages state .stateExit ++ [⟨.stateEntry, Int32.ofNat n.toNat, g, some t⟩]))
        (.error (i.transitionFault .stateEntry)) i

section

variable {start i i' : Instance}
  (hR : m.stacking.Kept m settings fun _ => True)
  (hboot : m.Boots settings)

include hR hboot

theorem Handled.finishes
    {ws : Surroundings σ}
    (h : Handled m settings start event past now i) (hs : i.status = .running)
    (hstep : i.machine.step env i.module ⟨w, i.requests⟩ = .halt (.completed v) s ws)
    (hdone : conclude (i.ran s ws.requests).advance = .done (r, i')) :
    Sequenced m start.state event (past ++ [now]) r i' := by
  have hworks := h.works hs
  have hpending : s.pending = i.machine.pending := by rw [step_halt_keeps hstep]
  have hasked : s.pending = now.asked := hpending.trans h.pending
  have hsequence := h.sequence
  have hstate := h.state
  have htransits := advance_transits (canCall hR hboot hworks hstep)
  generalize advance _ = a at htransits hdone
  cases htransits with
  | stays hphase hsame =>
    have hrests := settled_restsIn rfl (Progress.done.inj hdone)
    rw [show i.phase = .handler from hphase] at hsequence
    cases hsequence with
    | handling hf =>
      have hstate : i.state = start.state := hstate
      rw [show s.pending = _ from hasked, hstate] at hsame
      exact .stays hf hsame ⟨hrests.1, hrests.2.1.trans hstate, hrests.2.2⟩
  | exits _ _ _ _ _ | enters _ _ _ => cases hdone
  | @arrives n hleft hnone =>
    have hrests := settled_restsIn rfl (Progress.done.inj hdone)
    obtain ⟨f, hf, hn, heq⟩ := h.leftFor hworks.module hpending hleft
    have hentry : m.stages (Int32.ofNat n.toNat) .stateEntry = [] := by
      rw [Module.stages, ← hworks.module, show i.module.handlerIn? _ _ = none from hnone]
      rfl
    have hchanges := Sequenced.changes hf hn hrests
    rwa [hentry, List.append_nil, ← heq] at hchanges
  | entered hphase hnone =>
    have hrests := settled_restsIn rfl (Progress.done.inj hdone)
    rw [show i.phase = .entering from hphase] at hsequence
    rw [show s.pending = none from hnone] at hasked
    cases hsequence with
    | @entering f g n _ hf hn hg =>
      cases hasked
      have hentry : m.stages (Int32.ofNat n.toNat) .stateEntry =
          [⟨.stateEntry, Int32.ofNat n.toNat, g, none⟩] := by
        rw [Module.stages, hg]
        rfl
      have hchanges := Sequenced.changes hf hn ⟨hrests.1, hrests.2.1.trans hstate, hrests.2.2⟩
      rwa [hentry] at hchanges
  | nestsExit hphase hsome =>
    obtain ⟨t, ht⟩ := isSome_iff_exists.1 hsome
    rw [show s.pending = some t from ht] at hasked
    rw [show i.phase = _ from hphase] at hsequence
    cases hsequence with
    | exiting hf hn hg =>
      cases hasked
      obtain ⟨rfl, hidle, hsame⟩ := failed_nests (Progress.done.inj hdone)
      exact .nestsExit hf hn hg hidle (hsame.trans hstate)
  | nestsEntry hphase hsome =>
    obtain ⟨t, ht⟩ := isSome_iff_exists.1 hsome
    rw [show s.pending = some t from ht] at hasked
    rw [show i.phase = _ from hphase] at hsequence
    cases hsequence with
    | entering hf hn hg =>
      cases hasked
      obtain ⟨rfl, hidle, hsame⟩ := failed_nests (Progress.done.inj hdone)
      exact .nestsEntry hf hn hg hidle (hsame.trans hstate)

end

/-! ## Calls -/

/-- What becomes of a call when its code has stopped. -/
def ensue (env : Env (Surroundings σ)) (fuel : Nat) (w : σ) :
    Progress → Option (Result × σ)
  | .more i => executeIn env fuel i w
  | .done result => some (result, w)

variable (env : Env (Surroundings σ)) (m : Module) (settings : Settings) (start : Instance)
  (event : Event) (past : List Stage) (now : Stage) (i : Instance) (w : σ) in
/-- What a call comes to that goes on with the handling of an event: the last handler has returned,
or one is suspended, or a fault or a signal has stopped one. -/
inductive Outcome : Except PlacedFault Status → Instance → σ → Prop
  | finishes {v : σ} : Leads env past now i w past' now' j v →
      j.machine.step env j.module ⟨v, j.requests⟩ = .halt (.completed x) s ws →
      Sequenced m start.state event (past' ++ [now']) r i' → Outcome r i' ws.host
  | suspends {v : σ} : Leads env past now i w past' now' j v →
      j.machine.step env j.module ⟨v, j.requests⟩ = .halt .suspended s ws →
      Handling m settings start event past' now' i' → i'.status = .suspended →
      r = .ok .suspended ∨ (∃ e, r = .error (Fault.migration e)) → Outcome r i' ws.host
  | faults {v : σ} : Leads env past now i w past' now' j v →
      j.machine.step env j.module ⟨v, j.requests⟩ = .halt (.fault f) s ws →
      i'.status = .idle → i'.state = now'.state → Outcome (.error ⟨f, s.place? m⟩) i' ws.host
  | signals {v w' : σ} : Leads env past now i w past' now' j v →
      j.machine.step env j.module ⟨v, j.requests⟩ = .halt (.signal x) s ws →
      ((j.ran s ws.requests).react fuel (.signal x)).bind
        (ensue env fuel ws.host) = some ((r, i'), w') → Outcome r i' w'

section

variable {start i j : Instance} {σ : Type} {env : Env (Surroundings σ)}

theorem Leads.trans {w v u : σ} (h : Leads env past now i w past₁ now₁ j v)
    (h' : Leads env past₁ now₁ j v past' now' k u) : Leads env past now i w past' now' k u := by
  induction h with
  | refl => exact h'
  | next hp _ ih => exact .next hp (ih h')

theorem leads_of_reaches (past : List Stage) (now : Stage) {i : Instance} (hm : i.module = m)
    (h : Machine.Reaches env m s ws s' ws') : ∃ now', Leads env past now
      (i.ran s ws.requests) ws.host past now'
      (i.ran s' ws'.requests) ws'.host := by
  subst hm
  induction h generalizing now with
  | refl => exact ⟨now, .refl⟩
  | next hs _ ih =>
    obtain ⟨now', h⟩ := ih _
    refine ⟨now', .next ?_ h⟩
    exact Proceeds.runs hs

theorem advance_of_conclude (h : conclude i.advance = .more i') : i.advance = (.ok true, i') := by
  generalize i.advance = a at h
  obtain ⟨r, k⟩ := a
  cases r with
  | error f => cases h
  | ok called =>
    cases called with
    | false => cases h
    | true => cases h; rfl

/-- A handler that has been called is active. -/
theorem bottom?_of_advance (h : i.advance = (.ok true, i')) :
    ∃ f, i'.machine.bottom? = some f ∧ i'.status = .running := by
  have hadvances := advance_advances i
  rw [h] at hadvances
  cases hadvances with
  | calls _ _ _ hx =>
    obtain ⟨g, -, -, rfl⟩ := enter_ok hx
    exact ⟨_, congrArg _ List.getLast?_cons, rfl⟩

/-- A run leads through handlers to the one that is the last, or that a signal stops. -/
theorem executeIn_leads (past : List Stage) (now : Stage)
    (h : executeIn env fuel i w = some (x, w')) :
    ∃ past' now' j v why s ws fuel', Leads env past now i w past' now' j v ∧
      j.machine.step env j.module ⟨v, j.requests⟩ = .halt why s ws ∧
      ((∃ y, why = .signal y ∧
          ((j.ran s ws.requests).react fuel' (.signal y)).bind
            (ensue env fuel' ws.host) = some (x, w')) ∨
        w' = ws.host ∧ (j.ran s ws.requests).react fuel'
          (s.exit j.module why) = some (.done x)) := by
  induction fuel generalizing i w past now with
  | zero => cases h
  | succ fuel ih =>
    unfold executeIn at h
    split at h
    · cases h
    rename_i s ws hrun
    obtain ⟨s₁, ws₁, why, hreach, hstep, rfl⟩ := run_reaches hrun
    obtain ⟨now₁, hleads⟩ := leads_of_reaches past now rfl hreach
    split at h
    · cases h
    · rename_i k hreact
      cases why with
      | completed v =>
        have ha := advance_of_conclude (some.inj hreact)
        obtain ⟨f, hf, -⟩ := bottom?_of_advance ha
        obtain ⟨past', now', j, v, why, s', ws', fuel', hl, hend⟩ := ih _ _ h
        exact ⟨past', now', j, v, why, s', ws', fuel',
          hleads.trans (.next (Proceeds.follows hstep ha hf) hl), hend⟩
      | suspended | fault f => cases hreact
      | signal y =>
        refine ⟨past, now₁, _, _, _, s, ws, fuel, hleads, hstep, .inl ⟨y, rfl, ?_⟩⟩
        rw [show react _ fuel (.signal y) = _ from hreact]
        exact h
    · rename_i hreact
      cases h
      exact ⟨past, now₁, _, _, why, s, ws, fuel, hleads, hstep, .inr ⟨rfl, hreact⟩⟩

theorem Handling.leads {w v : σ} (h : Handling m settings start event past now i)
    (hs : i.status = .running) (hl : Leads env past now i w past' now' j v) :
    Handling m settings start event past' now' j ∧ j.status = .running := by
  induction hl with
  | refl => exact ⟨h, hs⟩
  | next hp _ ih =>
    refine ih (h.proceeds hs hp) ?_
    cases hp with
    | runs _ => exact hs
    | follows _ ha _ =>
      obtain ⟨f, -, hrunning⟩ := bottom?_of_advance ha
      exact hrunning

/-- Whatever a call comes to, it has gone through the handlers of the event. -/
theorem Handling.outcome (hR : m.stacking.Kept m settings fun _ => True) (hboot : m.Boots settings)
    (hstart : Arises m settings start)
    (h : Handling m settings start event past now i) (hs : i.status = .running)
    (hx : executeIn env fuel i w = some ((r, i'), w')) :
    Outcome env m settings start event past now i w r i' w' := by
  obtain ⟨past', now', j, v, why, s, ws, fuel', hl, hstep, ⟨y, rfl, hreact⟩ | ⟨rfl, hreact⟩⟩ :=
    executeIn_leads past now hx
  · exact .signals hl hstep hreact
  obtain ⟨hj, hrunning⟩ := h.leads hs hl
  have hhandled := hj.handled hR hboot hstart
  cases why with
  | completed v =>
    exact .finishes hl hstep (hhandled.finishes hR hboot hrunning hstep (some.inj hreact))
  | suspended =>
    have hsettled := Progress.done.inj (some.inj hreact)
    have hi' := congrArg Prod.snd hsettled
    dsimp only at hi'
    refine .suspends hl hstep (hi' ▸ hj.suspends hrunning hstep) (hi' ▸ status_settled _) ?_
    exact settled_result hsettled
  | fault f =>
    obtain ⟨q, hq⟩ := failed_eq (j.ran s ws.requests) ⟨f, s.place? j.module⟩
    cases hq.symm.trans (Progress.done.inj (some.inj hreact))
    rw [(hhandled.works hrunning).module]
    exact .faults hl hstep rfl hhandled.state
  | signal x => exact .signals hl hstep (congrArg (·.bind (ensue env fuel' ws.host)) hreact)

end

end Instance

/-! ## Compiled modules -/

/-- Changes of state are sequenced. Let an event be delivered to an idle instance of a compiled
module. If it has a handler, the call leads through handlers until the last has returned, one is
suspended, or a fault or a signal stops one; so does every call that goes on with a suspended one.
At all times the handler that runs is the one of its stage. When the last has returned, there have
been the handler of the event and, if it asked for another state, the ones for leaving the old and
entering the new state. -/
theorem Instance.transitions_sequenced {source name : String} {m : Module}
    (hm : Module.ofSource source name = .ok m) {settings : Settings} {start : Instance}
    (hstart : Arises m settings start)
    (hidle : start.status = .idle) (event : Event) :
    (∀ {σ : Type} (env : Env (Surroundings σ)) fuel args w r i w',
      start.startIn env fuel event args w = some ((r, i), w') →
      start.begun? (.start event args) = none ∧ i.status = .idle ∧ i.state = start.state ∨
      ∃ f i₀, m.handlerIn? start.state event = some f ∧
        start.begun? (.start event args) = some i₀ ∧
        Outcome env m settings start event [] ⟨event, start.state, f, none⟩ i₀ w r i w') ∧
    ∀ past now i, Handling m settings start event past now i →
      (i.state = now.state ∧ i.event = now.event ∧ i.machine.bottom? = some now.function ∧
        i.machine.pending = now.asked) ∧
      (i.status = .suspended → ∀ {σ : Type} (env : Env (Surroundings σ)) fuel w r i' w',
        i.resumeIn env fuel w = some ((r, i'), w') →
        Outcome env m settings start event past now { i with status := .running } w r i' w') := by
  obtain ⟨script, tests, hcoded⟩ := Module.exists_coded hm
  have hR := hcoded.stacking_kept settings
  have hboot := hstart.boots
  refine ⟨fun env fuel args w r i w' h => ?_, fun past now i h => ⟨?_, ?_⟩⟩
  · cases hb : start.begun? (.start event args) with
    | none =>
      refine .inl ?_
      have hs := startIn_starts env fuel start event args w
      rw [h] at hs
      generalize ho : some ((r, i), w') = o at hs
      cases hs with
      | refuses _ | undelivered _ _ | unhandled _ _ => cases ho; exact ⟨rfl, hidle, rfl⟩
      | uncalled hr _ hf hx =>
        exact absurd hx (hR.start_ne_error hboot (hR.stands hstart) hr hf)
      | calls hr hq hf hx => cases hb.symm.trans (begins_iff.1 (.start hr hq hf hx))
    | some i₀ =>
      cases begins_iff.2 hb with
      | @start _ _ q f machine hr hq hf hx =>
        have hmodule := ((hR.stands hstart).rests hidle).module
        refine .inr ⟨f, _, ?_, rfl, ?_⟩
        · rw [handlerOf?_eq] at hf
          rw [← hmodule]
          exact hf
        rw [startIn_eq, hr, hq] at h
        change delivered env fuel w ((start.readied q).begin event args) = _ at h
        rw [begin_eq, hf] at h
        dsimp only at h
        rw [show (start.readied q).module = start.module from rfl, hx] at h
        exact (Handling.begins hr hq hf hx).outcome hR hboot hstart rfl h
  · have hi := h.handled hR hboot hstart
    exact ⟨hi.state, hi.event, hi.bottom, hi.pending⟩
  · intro hs σ env fuel w r i' w' hresume
    unfold resumeIn at hresume
    rw [if_pos hs] at hresume
    exact (h.resumes hs).outcome hR hboot hstart rfl hresume

def nomad : String :=
  "integer seen;
   default \x7b touch_start(integer c) \x7b state away; \x7d state_exit() \x7b ++seen; \x7d \x7d
   state away \x7b state_entry() \x7b seen *= 2; \x7d \x7d"

theorem Host.null_quiet : ¬Machine.Signals (Host.null.env always) w x := by
  have hcall (f : ApiFunction) (args : List Value) :
      (Host.null.call f args ()).answer ≠ .error (.signal x) := by
    unfold Host.null
    dsimp only
    split <;> rintro ⟨⟩
  rintro ⟨f, args, h | h⟩ <;> exact hcall f args h

set_option maxRecDepth 10000 in
/-- The nomad runs three handlers, and is idle in its second state. -/
theorem nomad_sequenced :
    Script.Sample nomad "nomad" 100 fun _ m i =>
      ∃ i' w' stages, i.startIn (Host.null.env false) 100 .touchStart [.integer 1] () =
      some ((.ok .idle, i'), w') ∧ i.state = 0 ∧ i'.state = 1 ∧
      Instance.Sequenced m i.state .touchStart stages (.ok .idle) i' ∧
      stages.map (fun s => (s.event, s.state)) =
      [(.touchStart, 0), (.stateExit, 0), (.stateEntry, 1)] := by
  refine .of_test (fun _ m i =>
      ∃ x ∈ i.startIn (Host.null.env false) 100 .touchStart [.integer 1] (),
        i.state = 0 ∧ x.1.1 = .ok .idle ∧ x.1.2.state = 1 ∧
        m.stages 0 .stateExit = [⟨.stateExit, 0, 1, none⟩] ∧
        m.stages 1 .stateEntry = [⟨.stateEntry, 1, 2, none⟩]) ?_
  rintro _ m i hs hm hmade ⟨⟨⟨_, i'⟩, w'⟩, hstarted, hstate, rfl, hstate', hexit, hentry⟩
  obtain ⟨-, hidle, -⟩ := Instance.new_rests hmade
  obtain ⟨hstarts, -⟩ :=
    Instance.transitions_sequenced hm (.new hmade) hidle .touchStart
  obtain ⟨-, -, hsame⟩ | ⟨f, i₀, -, -, houtcome⟩ := hstarts _ _ _ _ _ _ _ hstarted
  · exact absurd (hstate'.symm.trans (hsame.trans hstate)) (by decide)
  cases houtcome with
  | suspends _ _ _ _ hr => obtain hr | ⟨e, hr⟩ := hr <;> cases hr
  | signals _ hstep _ =>
    cases Machine.step_stops hstep with
    | signals hx => exact absurd hx Host.null_quiet
  | @finishes past now _ _ _ _ _ _ _ _ _ hsequenced =>
    generalize past ++ [now] = stages at hsequenced
    refine ⟨i', _, _, hstarted, hstate, hstate', hsequenced, ?_⟩
    cases hsequenced with
    | stays _ _ hrests =>
      exact absurd (hstate'.symm.trans (hrests.2.1.trans hstate)) (by decide)
    | changes _ _ hrests =>
      rw [List.map_cons, List.map_append, ← hrests.2.1, hstate, hstate', hexit, hentry]
      rfl

end EventScript
