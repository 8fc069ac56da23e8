import EventScript.Proofs.Transitions

/-!
# Rejected operations and faults

What an instance refuses to do changes nothing, and a fault costs no more than the handler that
runs (`Instance.faults_contained`). Wherever a handler faults, the call ends with the fault
(`Instance.handle_of_faults`); the instance keeps its state and its global variables, and takes the
next event as any idle one does.
-/

namespace EventScript

open Option

namespace Instance

variable {σ : Type} {i i0 j : Instance} {w v w' : σ} {fuel : Nat}

/-! ## Calls that go through an instance -/

theorem executeIn_of_turn (ht : Turns env i w j v) (h : executeIn env fuel j v = some x) :
    ∃ fuel', executeIn env fuel' i w = some x := by
  cases ht with
  | runs hstep =>
    obtain ⟨n, rfl⟩ : ∃ n, fuel = n + 1 := by
      cases fuel with
      | zero => cases h
      | succ n => exact ⟨n, rfl⟩
    refine ⟨n + 2, ?_⟩
    unfold executeIn at h ⊢
    rw [Machine.run, hstep]
    dsimp only at h ⊢
    split at h
    · cases h
    rename_i hrun
    rw [hrun]
    dsimp only at h ⊢
    split at h
    · cases h
    · rename_i hp
      rw [react_mono hp (Nat.le_succ n)]
      exact executeIn_mono h (Nat.le_succ n)
    · rename_i hp
      rw [react_mono hp (Nat.le_succ n)]
      exact h
  | @follows _ why s ws fuel1 hstep hreact =>
    refine ⟨fuel + fuel1 + 2, ?_⟩
    unfold executeIn
    rw [Machine.run, hstep]
    dsimp only
    rw [react_mono hreact (by omega)]
    exact executeIn_mono h (by omega)

theorem executeIn_of_passes (hp : Passes env i w j v) (h : executeIn env fuel j v = some x) :
    ∃ fuel', executeIn env fuel' i w = some x := by
  induction hp with
  | refl => exact ⟨fuel, h⟩
  | next ht _ ih =>
    obtain ⟨n, hn⟩ := ih h
    exact executeIn_of_turn ht hn

theorem handle_of_begins (h : i.Begins input i0) :
    i.handle env fuel w input = executeIn env fuel i0 w := by
  cases h with
  | @start event args q f machine hr hq hf hx =>
    change i.startIn env fuel event args w = _
    rw [startIn_eq, hr, hq]
    change delivered env fuel w ((i.readied q).begin event args) = _
    rw [begin_eq, hf]
    dsimp only
    rw [show (i.readied q).module = i.module from rfl, hx]
    rfl
  | resume hs => exact if_pos hs

/-! ## Faults -/

/-- The handler that runs faults: an instruction does, or the handler has returned during a change
of state and has asked for another one. -/
inductive Faults (env : Env (Surroundings σ)) (i : Instance) (w : σ) :
    PlacedFault → Machine → Surroundings σ → Prop
  | code : i.machine.step env i.module ⟨w, i.requests⟩ = .halt (.fault f) s ws →
      Faults env i w ⟨f, s.place? i.module⟩ s ws
  | exiting : i.machine.step env i.module ⟨w, i.requests⟩ = .halt (.completed x) s ws →
      i.phase = .exiting n → s.pending.isSome = true →
      Faults env i w (i.transitionFault .stateExit) s ws
  | entering : i.machine.step env i.module ⟨w, i.requests⟩ = .halt (.completed x) s ws →
      i.phase = .entering → s.pending.isSome = true →
      Faults env i w (i.transitionFault .stateEntry) s ws

def dropped (i : Instance) (s : Machine) (ws : Surroundings σ) : Instance :=
  (i.ran s ws.requests).abort.flush.2

theorem executeIn_of_faults (h : Faults env i w f s ws) :
    executeIn env 2 i w = some ((.error f, i.dropped s ws), ws.host) := by
  cases h with
  | code hstep => simp only [executeIn, Machine.run, hstep]; rfl
  | exiting hstep hphase hpending | entering hstep hphase hpending =>
    simp only [executeIn, Machine.run, hstep, Machine.exit, react, advance, hphase, exited, entered,
      if_pos hpending]
    rfl

theorem handle_of_faults (hx : i.Executes env input w j v) (h : Faults env j v f s ws) :
    ∃ fuel0, ∀ fuel ≥ fuel0,
      i.handle env fuel w input = some ((.error f, j.dropped s ws), ws.host) := by
  obtain ⟨i0, hb, hp⟩ := hx
  obtain ⟨fuel0, hfuel⟩ := executeIn_of_passes hp (executeIn_of_faults h)
  exact ⟨fuel0, fun fuel hle => (handle_of_begins hb).trans (executeIn_mono hfuel hle)⟩

/-! ## Idle instances -/

variable {m : Module} {settings : Settings} {event : Event} {args : List Value}

theorem readied_of_rests {R : Regime} (hi : R.Rests m settings i) : i.readied i.requests = i := by
  unfold readied
  rw [clearPending_of_none hi.pending, ← hi.settled]

/-- An idle instance to which nothing is to be written takes an event that it has a handler for. -/
theorem begins_of_rests (hR : m.stacking.Kept m settings fun _ => True) (hboot : m.Boots settings)
    (hi : m.stacking.Rests m settings i) (hnone : i.requests.migrate = false)
    (hf : i.handlerOf? event = some g) (hargs : argsError? event args = none) :
    ∃ machine, i.machine.enter i.module g args = .ok machine ∧
      i.Begins (.start event args) (i.entering event args machine) := by
  obtain ⟨-, -, -, hhandled, -⟩ := hR.handlerOf hf hi.module
  have hall : ∀ e ∈ Event.handled, e ≠ .none ∧ e.column?.isNone = false := by decide
  have hrefusal : i.refusal? event args = none := by
    unfold refusal?
    rw [hi.status, hi.event, hargs]
    simp [hall event hhandled]
  have hready := readied_of_rests hi
  cases hx : i.machine.enter i.module g args with
  | error e =>
    refine absurd ?_ (hR.start_ne_error hboot (.inl hi) (e := e) hrefusal
      (by rwa [hready]))
    rwa [hready]
  | ok machine =>
    refine ⟨machine, rfl, ?_⟩
    have hbegins := Begins.start hrefusal (flush_of_not_migrate hnone)
      (by rwa [hready]) (by rwa [hready])
    rwa [hready] at hbegins

theorem flush_migrate (h : i.isAtRest = true) : i.flush.2.requests.migrate = false := by
  unfold flush
  rw [h, Bool.true_and]
  split
  · rfl
  · exact Bool.eq_false_iff.2 ‹_›

/-- The state in which an event is handled: the old one until it has been left, and then the one
that was asked for. -/
theorem Handled.state_cases {start : Instance} (h : Handled m settings start event past now i) :
    i.phase ≠ .entering ∧ i.state = start.state ∨ i.phase = .entering ∧
      ∃ f n, past.head? = some ⟨event, start.state, f, some n⟩ ∧ i.state = Int32.ofNat n.toNat := by
  have hsequence := h.sequence
  generalize i.phase = phase at hsequence ⊢
  cases hsequence with
  | handling _ | exiting _ _ _ => exact .inl ⟨Phase.noConfusion, h.state⟩
  | entering _ _ _ => exact .inr ⟨rfl, _, _, rfl, h.state⟩

theorem Faults.halts (h : Faults env i w f s ws) :
    ∃ why, i.machine.step env i.module ⟨w, i.requests⟩ = .halt why s ws := by
  cases h with
  | code hstep | exiting hstep _ _ | entering hstep _ _ => exact ⟨_, hstep⟩

/-- A fault leaves the state and the global variables, and nothing else of the handler. -/
theorem dropped_of_faults (h : Faults env i w f s ws) :
    (i.dropped s ws).status = .idle ∧ (i.dropped s ws).machine.frames = [] ∧
      (i.dropped s ws).machine.globals = i.machine.globals ∧ (i.dropped s ws).state = i.state ∧
      (i.dropped s ws).requests.migrate = false := by
  obtain ⟨why, hstep⟩ := h.halts
  have hglobals := congrArg Machine.globals (Machine.step_halt_keeps hstep)
  obtain ⟨q, hq⟩ := flush_eq (i.ran s ws.requests).abort
  have hmigrate : (i.dropped s ws).requests.migrate = false := flush_migrate rfl
  unfold dropped at hmigrate ⊢
  rw [hq] at hmigrate ⊢
  exact ⟨rfl, rfl, hglobals, rfl, hmigrate⟩

/-- Rejected operations change nothing, and a fault costs only the handler. An event that is refused
or has no handler, the resumption of an instance that is not suspended, and a stream for one that is
not idle leave the instance as it is. Where a handler faults, the call ends with the fault; the
instance is idle, with the state and the global variables of that moment, and the next event that
has a handler is handled. A change of state has happened by then only if the new state is being
entered. -/
theorem faults_contained {source name : String} (hm : Module.ofSource source name = .ok m)
    (hi : Arises m settings i) :
    ((∀ {σ : Type} (env : Env (Surroundings σ)) fuel event args w f,
        i.refusal? event args = some f →
          i.startIn env fuel event args w = some ((.error f, i), w)) ∧
      (∀ {σ : Type} (h : Host σ) fuel word args w, Event.ofName? word = none →
        i.startNamed h fuel word args w = some ((.error (Fault.unknownEvent word), i), w)) ∧
      (∀ {σ : Type} (env : Env (Surroundings σ)) fuel event args w, i.refusal? event args = none →
        i.requests.migrate = false → i.handlerOf? event = none →
          i.startIn env fuel event args w = some ((.ok .idle, i), w)) ∧
      (∀ {σ : Type} (env : Env (Surroundings σ)) fuel w, i.status ≠ .suspended →
        i.resumeIn env fuel w = some ((.error (Fault.invalidStatus .resume i.status), i), w)) ∧
      ∀ bytes, i.status ≠ .idle → i.migrateIn bytes = (.error (.content (.busy i.status)), i)) ∧
    (∀ {σ : Type} (env : Env (Surroundings σ)) input w j v f s ws,
      i.Executes env input w j v → Faults env j v f s ws →
      (∃ fuel₀, ∀ fuel ≥ fuel₀,
        i.handle env fuel w input = some ((.error f, j.dropped s ws), ws.host)) ∧
      (j.dropped s ws).status = .idle ∧ (j.dropped s ws).machine.frames = [] ∧
      (j.dropped s ws).machine.globals = j.machine.globals ∧ (j.dropped s ws).state = j.state ∧
      ∀ event args g, (j.dropped s ws).handlerOf? event = some g → argsError? event args = none →
        ∃ machine, (j.dropped s ws).machine.enter m g args = .ok machine ∧
          (j.dropped s ws).Begins (.start event args)
            ((j.dropped s ws).entering event args machine)) ∧
    ∀ event past now j, Handling m settings i event past now j →
      j.phase ≠ .entering ∧ j.state = i.state ∨ j.phase = .entering ∧
        ∃ f n, past.head? = some ⟨event, i.state, f, some n⟩ ∧ j.state = Int32.ofNat n.toNat := by
  obtain ⟨script, tests, hcoded⟩ := Module.exists_coded hm
  have hR := hcoded.stacking_kept settings
  have hboot := hi.boots
  refine ⟨⟨?_, ?_, ?_, ?_, ?_⟩, ?_, ?_⟩
  · intro σ env fuel event args w f hf
    rw [startIn_eq, hf]
  · intro σ h fuel word args w hword
    unfold startNamed
    rw [hword]
  · intro σ env fuel event args w hr hnone hf
    obtain ⟨hidle, -⟩ := refusal?_eq_none hr
    have hready := readied_of_rests ((hR.stands hi).rests hidle)
    rw [startIn_eq, hr, flush_of_not_migrate hnone]
    dsimp only
    rw [hready, begin_eq, hf]
    show some ((Except.ok i.status, i), w) = _
    rw [hidle]
  · intro σ env fuel w hstatus
    unfold resumeIn
    rw [if_neg hstatus]
  · intro bytes hstatus
    exact if_neg hstatus
  · intro σ env input w j v f s ws hx hfaults
    obtain ⟨fuel₀, hfuel⟩ := handle_of_faults hx hfaults
    obtain ⟨hidle, hframes, hglobals, hstate, hnone⟩ := dropped_of_faults hfaults
    have hreach : Arises m settings (j.dropped s ws) := by
      have hhandled := hfuel fuel₀ le_rfl
      cases input with
      | start event args => exact .start hi trivial trivial hhandled
      | resume => exact .resume hi trivial hhandled
    have hrests := (hR.stands hreach).rests hidle
    refine ⟨⟨fuel₀, hfuel⟩, hidle, hframes, hglobals, hstate, fun event args g hg hargs => ?_⟩
    have hbegins := begins_of_rests hR hboot hrests hnone hg hargs
    rwa [hrests.module] at hbegins
  · intro event past now j hj
    exact (hj.handled hR hboot hi).state_cases

end Instance

def Step.fault? {ω : Type} : Step ω → Option (Fault × Machine × ω)
  | .halt (.fault f) s w => some (f, s, w)
  | _ => none

theorem Step.eq_of_fault? {o : Step ω} (h : o.fault? = some (f, s, w)) :
    o = .halt (.fault f) s w := by
  unfold fault? at h
  split at h
  · cases h; rfl
  · cases h

def gambler : String :=
  "integer seen;
   integer odds(integer n) \x7b return 6 / n; \x7d
   default \x7b touch_start(integer c) \x7b seen = c; seen = 1 + odds(c - 2); \x7d \x7d"

set_option maxRecDepth 10000 in
/-- The gambler loses the handler, keeps its variable and takes the next event. -/
theorem gambler_contained :
    Script.Sample gambler "gambler" 100 fun _ _ i =>
      ∃ j v f s ws, i.Executes (Host.recording.env false) (.start .touchStart [.integer 2]) {} j v ∧
      j.machine.frames.length = 2 ∧ Instance.Faults (Host.recording.env false) j v f s ws ∧
      f.fault = .divisionByZero ∧
      (∃ fuel, i.startIn (Host.recording.env false) fuel .touchStart [.integer 2] {} =
        some ((.error f, j.dropped s ws), ws.host)) ∧
      Value.describeAll (j.dropped s ws).machine.globals = ["2"] ∧
      ∃ machine, (j.dropped s ws).Begins (.start .touchStart [.integer 3])
        ((j.dropped s ws).entering .touchStart [.integer 3] machine) := by
  refine .of_test (fun _ m i =>
      ∃ i₀ ∈ i.begun? (.start .touchStart [.integer 2]),
      ∃ x ∈ i₀.machine.after? (Host.recording.env false) m 14 ⟨{}, i₀.requests⟩,
      ∃ y ∈ (x.1.step (Host.recording.env false) m x.2).fault?, x.1.frames.length = 2 ∧
        Value.describeAll x.1.globals = ["2"] ∧ y.1 = .divisionByZero ∧
        ((i₀.ran x.1 x.2.requests).dropped y.2.1 y.2.2).handlerOf? .touchStart = some 1) ?_
  rintro _ m i hs hm hmade ⟨i₀, hbegun, ⟨s₀, ws₀⟩, hafter, ⟨_, s, ws⟩, hfault, hframes, hglobals,
    rfl, hhandler⟩
  have hbegins := Instance.begins_iff.2 hbegun
  have hm₀ : i₀.module = m := by cases hbegins; exact (Instance.new_rests hmade).1
  let j : Instance := (i₀.ran s₀ ws₀.requests)
  have hx : i.Executes (Host.recording.env false) (.start .touchStart [.integer 2]) {} j ws₀.host :=
    ⟨i₀, hbegins, Instance.passes_of_reaches hm₀ (Machine.reaches_of_after? hafter)⟩
  have hfaults : Instance.Faults (Host.recording.env false) j ws₀.host
      ⟨.divisionByZero, s.place? j.module⟩ s ws :=
    .code (by rw [← hm₀] at hfault; exact Step.eq_of_fault? hfault)
  obtain ⟨-, hcontained, -⟩ := Instance.faults_contained hm (.new hmade)
  obtain ⟨⟨fuel, hfuel⟩, -, -, hkept, -, hnext⟩ := hcontained _ _ _ _ _ _ _ _ hx hfaults
  obtain ⟨machine, -, hnext⟩ := hnext .touchStart [.integer 3] 1 hhandler rfl
  exact ⟨j, _, _, s, ws, hx, hframes, hfaults, rfl,
    ⟨fuel, hfuel fuel le_rfl⟩, hkept ▸ hglobals, machine, hnext⟩

end EventScript
