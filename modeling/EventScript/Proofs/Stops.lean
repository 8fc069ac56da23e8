import EventScript.Instance.Events
import EventScript.Proofs.Worlds

/-!
# How code stops

A machine stops at a checkpoint or at a library call that has no answer yet (`Machine.Pauses`), when
the outermost call returns, or with a fault (`Machine.Stops`). `Machine.run_leaves` says what is
left of the active calls then, and the rest what an instance does: which handler it calls next, or
how it comes to rest (`Instance.advance_advances`, `Instance.executeIn_induct`).
`Instance.startIn_starts` says what becomes of an event.
-/

namespace EventScript

open Option

/-! ## How code stops -/

/-- What is left of the active calls when a machine stops. -/
def Halt.Leaves (s : Machine) : Halt → Prop
  | .completed _ => s.frames = []
  | .suspended => s.frames ≠ []
  | .fault _ | .signal _ => True

/-- What is left of the active calls at the end of a run. -/
def Exit.Leaves (s : Machine) : Exit → Prop
  | .completed _ => s.frames = []
  | .suspended => s.frames ≠ []
  | .fault _ | .signal _ => True

namespace Machine

variable {ω : Type}

/-- A machine has stopped with a fault, and only the innermost frame is another one. -/
def Faulted (s : Machine) (why : Halt) (s' : Machine) : Prop :=
  ∃ e f, why = .fault e ∧ s' = s.setTop f

theorem stop_faulted (h : stop s f e w = .halt why s' w') : s.Faulted why s' := by
  cases h
  exact ⟨e, f, rfl, rfl⟩

theorem replace_faulted (h : replace s f r w = .halt why s' w') : s.Faulted why s' := by
  unfold replace at h
  split at h
  · cases h
  · exact stop_faulted h

theorem load_faulted (h : load s f v? e w = .halt why s' w') : s.Faulted why s' := by
  unfold load at h
  split at h
  · cases h
  · exact stop_faulted h

theorem store_faulted (h : store s f var w = .halt why s' w') : s.Faulted why s' := by
  unfold store at h
  split at h
  · exact stop_faulted h
  dsimp only at h
  split at h
  · cases h
  · exact stop_faulted h

theorem storeElement_faulted (h : storeElement s f var w = .halt why s' w') : s.Faulted why s' := by
  unfold storeElement at h
  split at h
  · dsimp only at h
    split at h
    · exact stop_faulted h
    split at h
    · cases h
    · exact stop_faulted h
  · exact stop_faulted h

theorem branch_faulted (h : branch s f test target w = .halt why s' w') : s.Faulted why s' := by
  unfold branch at h
  split at h
  · exact stop_faulted h
  · cases h

theorem callFunction_faulted (h : callFunction m s f index w = .halt why s' w') :
    s.Faulted why s' := by
  unfold callFunction at h
  split at h
  · exact stop_faulted h
  split at h
  · exact stop_faulted h
  dsimp only at h
  split at h
  · cases h
  · exact stop_faulted h

/-- A machine stops at an instruction that neither asks nor returns only by a fault. -/
theorem exec_faulted (ha : op.asks = false) (hr : op ≠ .ret)
    (h : exec env m ret op f s w = .halt why s' w') : s.Faulted why s' := by
  cases op with
  | callApi _ | checkRun => cases ha
  | ret => exact absurd rfl hr
  | pushConst i | loadLocal slot | loadGlobal index => exact load_faulted h
  | storeLocal slot | storeGlobal index => exact store_faulted h
  | arraySet var => exact storeElement_faulted h
  | jumpIfFalse target | jumpIfTrue target => exact branch_faulted h
  | call index => exact callFunction_faulted h
  | jump target | jumpIfNoStateChange target => cases h
  | memStatic n | setState state | pushDefault ty | pushUndefined => cases h
  | memIncr var | memDecr var =>
    unfold exec at h
    dsimp only at h
    split at h
    · cases h
    · exact stop_faulted h
  | _ => exact replace_faulted h

theorem exec_halt_fault (ha : op.asks = false) (hr : op ≠ .ret)
    (h : exec env m ret op f s w = .halt why s' w') : ∃ e, why = .fault e := by
  obtain ⟨e, -, he, -⟩ := exec_faulted ha hr h
  exact ⟨e, he⟩

theorem step_script (hframes : s.frames = f :: fs)
    (hr : f.receiver = .script) (hg : m.function? f.function = some g)
    (hop : g.ops[f.pc]? = some op) :
    step env m s w = exec env m g.ret op { f with pc := f.pc + 1 } s w := by
  simp only [step, hframes, hr, hg, hop]

theorem step_api (hframes : s.frames = f :: fs) (hr : f.receiver = .api) :
    step env m s w = resumeApi env s f fs w := by
  simp only [step, hframes, hr]

/-- A step is one of the innermost call, unless there is nothing that the call could do. -/
theorem step_cons (hframes : s.frames = f :: fs) (h : step env m s w = o) :
    f.receiver = .api ∧ resumeApi env s f fs w = o ∨
    (∃ g op, f.receiver = .script ∧ m.function? f.function = some g ∧ g.ops[f.pc]? = some op ∧
      exec env m g.ret op { f with pc := f.pc + 1 } s w = o) ∨
    ∃ c, o = .halt (.fault (.corrupt c)) s w ∧ c ≠ .underflow := by
  simp only [step, hframes] at h
  split at h
  · exact .inl ⟨‹_›, h⟩
  rename_i hr
  split at h
  · exact .inr (.inr ⟨_, h.symm, by rintro ⟨⟩⟩)
  rename_i g hg
  split at h
  · exact .inr (.inr ⟨_, h.symm, by rintro ⟨⟩⟩)
  · rename_i op hop
    exact .inr (.inl ⟨g, op, hr, hg, hop, h⟩)

/-- How a machine is suspended. -/
inductive Pauses (env : Env ω) (m : Module) (s : Machine) (w : ω) : Machine → ω → Prop
  | checkpoint : s.frames = f :: fs → f.receiver = .script → m.function? f.function = some g →
      g.ops[f.pc]? = some .checkRun → Pauses env m s w (s.setTop { f with pc := f.pc + 1 }) w'
  | asks : s.frames = f :: fs → f.receiver = .script → m.function? f.function = some g →
      g.ops[f.pc]? = some (.callApi i) → ApiFunction.get? i = some h →
      Operands.split? h.params.length f.operands = some (args, rest) → Pauses env m s w
        { s with frames := .waiting i args :: { f with pc := f.pc + 1, operands := rest } :: fs } w'
  /-- A library call has no answer again. -/
  | waits : s.frames = f :: fs → f.receiver = .api → ApiFunction.get? f.function = some g →
      Pauses env m s w { s with frames := .waiting f.function f.locals :: fs } w'

/-- A library function answers with a signal. -/
def Signals (env : Env ω) (w : ω) (x : Signal) : Prop :=
  ∃ f args, (env.call f args w).1 = .error (.signal x) ∨ (env.resume f args w).1 = .error (.signal x)

/-- How a machine stops. -/
inductive Stops (env : Env ω) (m : Module) (s : Machine) (w w' : ω) : Halt → Machine → Prop
  | faults {frames : List Frame} : Stops env m s w w' (.fault e) { s with frames }
  | signals {frames : List Frame} : Signals env w x → Stops env m s w w' (.signal x) { s with frames }
  | rests : s.frames = [] → Stops env m s w w' (.completed v) s
  | returns : s.frames = [f] → f.receiver = .script → m.function? f.function = some g →
      g.ops[f.pc]? = some .ret → Stops env m s w w' (.completed v) { s with frames := [] }
  | pauses : Pauses env m s w s' w' → Stops env m s w w' .suspended s'

theorem interrupt_stops
    (h : interrupt { s with frames := fs } x index args name v = .halt why s' w')
    (hx : ∀ y, x = .signal y → Signals env w y)
    (hp : Pauses env m s w { s with frames := .waiting index args :: fs } w') :
    Stops env m s w w' why s' := by
  cases x with
  | failed message => cases h; exact .faults
  | signal x => cases h; exact .signals (hx x rfl)
  | suspend => cases h; exact .pauses hp

theorem exec_stops (hframes : s.frames = f :: fs) (hr : f.receiver = .script)
    (hg : m.function? f.function = some g) (hop : g.ops[f.pc]? = some op)
    (h : exec env m g.ret op { f with pc := f.pc + 1 } s w = .halt why s' w') :
    Stops env m s w w' why s' := by
  cases op with
  | callApi i =>
    unfold exec at h
    simp only [callApi] at h
    split at h
    · cases h; exact .faults
    rename_i hg'
    split at h
    · cases h; exact .faults
    rename_i hs
    split at h
    · cases h
    · rename_i hcall
      refine interrupt_stops h (fun y hy => ⟨_, _, .inl (by rw [hcall, hy])⟩) ?_
      rw [hframes]
      exact .asks hframes hr hg hop hg' hs
  | checkRun =>
    unfold exec at h
    simp only [check] at h
    split at h
    · cases h; exact .faults
    split at h
    · cases h; exact .pauses (.checkpoint hframes hr hg hop)
    · cases h
  | ret =>
    unfold exec at h
    simp only [leave, setTop, hframes, List.tail_cons] at h
    split at h
    · cases h; exact .faults
    split at h
    · cases h; exact .returns hframes hr hg hop
    · cases h
  | _ =>
    obtain ⟨e, f', rfl, rfl⟩ := exec_faulted rfl (by rintro ⟨⟩) h
    exact .faults

theorem step_stops (h : step env m s w = .halt why s' w') : Stops env m s w w' why s' := by
  cases hframes : s.frames with
  | nil => simp only [step, hframes] at h; cases h; exact .rests hframes
  | cons f fs =>
    obtain ⟨hr, h⟩ | ⟨g, op, hr, hg, hop, h⟩ | ⟨_, ⟨⟩, _⟩ := step_cons hframes h
    · unfold resumeApi at h
      split at h
      · cases h; exact .faults
      rename_i hg
      split at h
      · split at h <;> cases h
        exact .faults
      · rename_i hresume
        exact interrupt_stops h (fun y hy => ⟨_, _, .inr (by rw [hresume, hy])⟩)
          (.waits hframes hr hg)
    · exact exec_stops hframes hr hg hop h
    · exact .faults

theorem step_leaves (h : step env m s w = .halt why s' w') : why.Leaves s' := by
  cases step_stops h with
  | faults | signals _ => trivial
  | rests hframes => exact hframes
  | returns => rfl
  | pauses hp => cases hp <;> exact List.cons_ne_nil _ _

theorem step_halt_keeps (h : step env m s w = .halt why s' w') :
    s' = { s with frames := s'.frames } := by
  cases step_stops h with
  | pauses hp => cases hp <;> rfl
  | _ => rfl

theorem step_pauses (h : step env m s w = .halt .suspended s' w') : Pauses env m s w s' w' := by
  cases step_stops h with
  | pauses hp => exact hp

theorem step_completed (h : step env m s w = .halt (.completed v) s' w') :
    s.frames = [] ∨ ∃ f g, s.frames = [f] ∧ f.receiver = .script ∧
      m.function? f.function = some g ∧ g.ops[f.pc]? = some .ret := by
  cases step_stops h with
  | rests hframes => exact .inl hframes
  | returns hframes hr hg hop => exact .inr ⟨_, _, hframes, hr, hg, hop⟩

theorem run_leaves (h : run env m fuel s w = some (e, s', w')) : Exit.Leaves s' e := by
  induction fuel generalizing s w with
  | zero => cases h
  | succ fuel ih =>
    rw [run_succ] at h
    cases hs : step env m s w with
    | next s1 w1 =>
      rw [hs] at h
      exact ih h
    | halt why s1 w1 =>
      rw [hs] at h
      cases h
      have hl := step_leaves hs
      cases why <;> exact hl

theorem boot_leaves (h : boot env m fuel s w = some (.ok (), s', w')) : s'.frames = [] := by
  unfold boot at h
  dsimp only at h
  split at h
  · cases h
  obtain ⟨⟨e, s1, w1⟩, hr, he⟩ := map_eq_some_iff.1 h
  cases e with
  | completed v => cases he; exact run_leaves hr
  | suspended | fault f | signal x => cases he

end Machine

/-! ## Handlers -/

namespace Instance

variable {σ : Type}

def handlerOf? (i : Instance) (event : Event) : Option UInt16 :=
  i.stateIndex?.bind fun n => i.module.handler? n event

def entering (i : Instance) (event : Event) (args : List Value) (machine : Machine) : Instance :=
  { i with event, eventArgs := args, machine, status := .running }

theorem begin_eq (i : Instance) (event : Event) (args : List Value) : i.begin event args =
      match i.handlerOf? event with
      | none => (.ok false, i)
      | some f =>
        match i.machine.enter i.module f args with
        | .error e => (.error e, { i with event, eventArgs := args })
        | .ok machine => (.ok true, i.entering event args machine) := rfl

theorem begin_cases (i : Instance) (event : Event) (args : List Value) :
    i.begin event args = (.ok false, i) ∨ ∃ f, i.handlerOf? event = some f ∧
      ((∃ e, i.machine.enter i.module f args = .error e ∧
          i.begin event args = (.error e, { i with event, eventArgs := args })) ∨
        ∃ machine, i.machine.enter i.module f args = .ok machine ∧
          i.begin event args = (.ok true, i.entering event args machine)) := by
  rw [begin_eq]
  cases hf : i.handlerOf? event with
  | none => exact .inl rfl
  | some f =>
    refine .inr ⟨f, rfl, ?_⟩
    cases he : i.machine.enter i.module f args with
    | error e => exact .inl ⟨e, rfl, by simp only [he]⟩
    | ok machine => exact .inr ⟨machine, rfl, by simp only [he]⟩

/-! ## Changes of state -/

inductive Moves (i : Instance) : Int32 → Phase → Prop
  /-- The handler has asked for no other state, or the new state has been entered. -/
  | stays : Moves i i.state i.phase
  | exits : i.machine.pending = some next → Moves i i.state (.exiting next)
  | enters : i.machine.pending = some next ∨ i.phase = .exiting next →
      Moves i (Int32.ofNat next.toNat) .entering

/-- The instance in a state and a phase, with no state asked for. -/
def moved (i : Instance) (state : Int32) (phase : Phase) : Instance :=
  { i.clearPending with state, phase }

/-- What can follow a handler that has returned: rest, another handler, or a fault. -/
inductive Advances (i : Instance) : Advance → Prop
  | rests {state : Int32} {phase : Phase} : Moves i state phase →
      Advances i (.ok false, (i.moved state phase).finish)
  | calls {state : Int32} {phase : Phase} {event : Event} {f : UInt16} {machine : Machine} :
      Moves i state phase →
      event = .stateExit ∧ phase ≠ .entering ∨ event = .stateEntry ∧ phase = .entering →
      (i.moved state phase).handlerOf? event = some f →
      i.clearPending.machine.enter i.module f [] = .ok machine →
      Advances i (.ok true, (i.moved state phase).entering event [] machine)
  | refuses {state : Int32} {phase : Phase} {event : Event} {f : UInt16} {e : Fault} :
      Moves i state phase → (i.moved state phase).handlerOf? event = some f →
      i.clearPending.machine.enter i.module f [] = .error e →
      Advances i (.error e, { i.moved state phase with event, eventArgs := [] })
  | nests {event : Event} : i.machine.pending.isSome = true →
      Advances i (.error (i.transitionFault event), i.moved i.state i.phase)

variable {i : Instance}

theorem clearPending_of_none (h : i.machine.pending = none) : i.clearPending = i := by
  obtain ⟨m, ⟨g, f, u, l, p, d⟩, _⟩ := i
  cases h
  rfl

theorem moved_of_none (h : i.machine.pending = none) : i.moved i.state i.phase = i := by
  unfold moved; rw [clearPending_of_none h]

theorem proceed_advances {state : Int32} {phase : Phase} {event : Event} (hm : Moves i state phase)
    (he : event = .stateExit ∧ phase ≠ .entering ∨ event = .stateEntry ∧ phase = .entering)
    (hn : Advances i (next (i.moved state phase))) :
    Advances i (proceed ((i.moved state phase).begin event []) next) := by
  obtain hb | ⟨f, hf, ⟨e, hx, hb⟩ | ⟨machine, hx, hb⟩⟩ := begin_cases (i.moved state phase) event []
  · rw [hb]; exact hn
  · rw [hb]; exact .refuses hm hf hx
  · rw [hb]; exact .calls hm he hf hx

theorem entering_advances {next : UInt16}
    (h : i.machine.pending = some next ∨ i.phase = .exiting next) :
    Advances i (proceed ((i.moved (Int32.ofNat next.toNat) .entering).begin .stateEntry [])
      entered) := by
  refine proceed_advances (.enters h) (.inr ⟨rfl, rfl⟩) ?_
  exact .rests (.enters h)

theorem entered_advances : Advances i i.entered := by
  unfold entered
  split
  · exact .nests ‹_›
  rename_i h
  have hp : i.machine.pending = none := by simpa using h
  rw [show i.finish = (i.moved i.state i.phase).finish by rw [moved_of_none hp]]
  exact .rests .stays

theorem exited_advances (hi : i.phase = .exiting next) : Advances i (i.exited next) := by
  unfold exited
  split
  · exact .nests ‹_›
  rename_i h
  have hp : i.machine.pending = none := by simpa using h
  have := entering_advances (.inr hi)
  unfold moved at this
  rwa [clearPending_of_none hp] at this

theorem handled_advances : Advances i i.handled := by
  unfold handled
  split
  · rename_i hp
    rw [show i.finish = (i.moved i.state i.phase).finish by rw [moved_of_none hp]]
    exact .rests .stays
  · rename_i hp
    dsimp only
    split
    · exact .rests .stays
    · refine proceed_advances (.exits hp) (.inl ⟨rfl, by simp⟩) ?_
      exact entering_advances (.inl hp)

theorem advance_advances (i : Instance) : Advances i i.advance := by
  unfold advance
  split
  · exact handled_advances
  · exact exited_advances ‹_›
  · exact entered_advances

def rebooted (i : Instance) (s : Machine) : Instance := ({ i with machine := s, state := 0 }).finish

variable (i : Instance) (fuel : Nat) in
/-- What can follow a reset: a fault of the first values, rest, a handler, or a handler that cannot
be called. -/
inductive Resets : Advance → Prop
  | fails {s : Machine} {u : Unit} :
      i.machine.boot Host.null.bareEnv i.module fuel () = some (.error e, s, u) →
      Resets (.error e.toFault, { i with machine := s })
  | rests : i.machine.boot Host.null.bareEnv i.module fuel () = some (.ok (), s, u) →
      Resets (.ok false, i.rebooted s)
  | calls {machine : Machine} {u : Unit} {f : UInt16} :
      i.machine.boot Host.null.bareEnv i.module fuel () = some (.ok (), s, u) →
      (i.rebooted s).handlerOf? .stateEntry = some f → s.enter i.module f [] = .ok machine →
      Resets (.ok true, (i.rebooted s).entering .stateEntry [] machine)
  | refuses : i.machine.boot Host.null.bareEnv i.module fuel () = some (.ok (), s, u) →
      (i.rebooted s).handlerOf? .stateEntry = some f → s.enter i.module f [] = .error e →
      Resets (.error e, { i.rebooted s with event := .stateEntry, eventArgs := [] })

theorem reset_resets (h : i.reset fuel = some a) : Resets i fuel a := by
  obtain ⟨⟨result, s, u⟩, hb, ha⟩ := map_eq_some_iff.1 h
  cases result with
  | error e => cases ha; exact .fails hb
  | ok r =>
    cases r
    change proceed ((i.rebooted s).begin .stateEntry []) (fun i => (.ok false, i.finish)) = a at ha
    subst ha
    obtain hn | ⟨f, hf, ⟨e, hx, hn⟩ | ⟨machine, hx, hn⟩⟩ :=
      begin_cases (i.rebooted s) .stateEntry []
    · rw [hn]; exact .rests hb
    · rw [hn]; exact .refuses hb hf hx
    · rw [hn]; exact .calls hb hf hx

/-! ## Rest -/

theorem flush_eq (i : Instance) : ∃ q, i.flush.2 = { i with requests := q } := by
  unfold flush
  split
  · exact ⟨_, rfl⟩
  · exact ⟨i.requests, rfl⟩

theorem requestMigration_snd (i : Instance) (sink : Sink) :
    ∃ q, (i.requestMigration sink).2 = { i with requests := q } := by
  unfold requestMigration
  split
  · exact ⟨i.requests, rfl⟩
  · exact flush_eq _

theorem flush_of_not_migrate (h : i.requests.migrate = false) : i.flush = (none, i) := by
  unfold flush
  rw [h, Bool.and_false]
  rfl

theorem settled_eq (i : Instance) : ∃ q, i.settled.2 = { i with requests := q } := by
  obtain ⟨q, hq⟩ := flush_eq i
  refine ⟨q, ?_⟩
  unfold settled
  split
  · rename_i hj; rw [hj] at hq; exact hq
  · rename_i hj; rw [hj] at hq; exact hq

theorem failed_eq (i : Instance) (f : PlacedFault) :
    ∃ q, i.failed f = (.error f, { i.abort with requests := q }) := by
  obtain ⟨q, hq⟩ := flush_eq i.abort
  exact ⟨q, by unfold failed; rw [hq]⟩

/-- What is so of an instance whose next handler runs, or of a result. -/
def Progress.Meets (Inv : Instance → Prop) (Post : Result → Prop) :
    Progress → Prop
  | .more i => Inv i
  | .done r => Post r

/-- What every reaction to the end of a run makes so is so at the end of all runs. -/
theorem executeIn_induct (Inv : Instance → Prop)
    (Post : Result → Prop)
    (hr : ∀ {fuel : Nat} {i : Instance} {w : σ} {e : Exit} {s : Machine} {ws : Surroundings σ}
      {p : Progress}, Inv i →
      i.machine.run env i.module fuel ⟨w, i.requests⟩ = some (e, s, ws) →
      (i.ran s ws.requests).react fuel e = some p →
      p.Meets Inv Post) (hi : Inv i) (h : executeIn env fuel i w = some (r, w')) : Post r := by
  induction fuel generalizing i w with
  | zero => cases h
  | succ fuel ih =>
    unfold executeIn at h
    split at h
    · cases h
    rename_i hrun
    split at h
    · cases h
    · rename_i hp
      exact ih (hr hi hrun hp) h
    · rename_i hp
      cases h
      exact hr hi hrun hp

/-! ## Events -/

def readied (i : Instance) (q : Requests) : Instance :=
  { i.clearPending with phase := .handler, requests := q }

def refusal? (i : Instance) (event : Event) (args : List Value) : Option Fault :=
  if i.status = .disposed then some (.invalidStatus .start i.status)
  else if event = .none then some .noneEvent
  else if i.status ≠ .idle ∨ i.event ≠ .none then some .handlerActive
  else if event.column?.isNone then some (.unknownEvent event.name)
  else (argsError? event args).map (.badEventArgs event)

theorem refusal?_eq_none {event : Event} (h : i.refusal? event args = none) :
    i.status = .idle ∧ i.event = .none ∧ event ≠ .none ∧ argsError? event args = none := by
  unfold refusal? at h
  split at h
  · cases h
  split at h
  · cases h
  rename_i hev
  split at h
  · cases h
  rename_i hst
  split at h
  · cases h
  obtain ⟨hs, he⟩ : i.status = .idle ∧ i.event = .none := by simpa using hst
  exact ⟨hs, he, hev, map_eq_none_iff.1 h⟩

/-- What becomes of an event whose handler was to be called. -/
def delivered (env : Env (Surroundings σ)) (fuel : Nat) (w : σ) :
    Except Fault Bool × Instance → Option (Result × σ)
  | (.error f, i) => some ((.error f, i), w)
  | (.ok false, i) => some ((.ok i.status, i), w)
  | (.ok true, i) => executeIn env fuel i w

theorem startIn_eq (env : Env (Surroundings σ)) (fuel : Nat) (i : Instance) (event : Event)
    (args : List Value) (w : σ) : i.startIn env fuel event args w =
      match i.refusal? event args with
      | some f => some ((.error f, i), w)
      | none =>
        match i.flush with
        | (some e, j) => some ((.error (Fault.migration e), j), w)
        | (none, j) => delivered env fuel w ((j.readied j.requests).begin event args) := by
  unfold startIn refusal?
  split
  · rfl
  split
  · rfl
  split
  · rfl
  split
  · rfl
  cases argsError? event args with
  | some e => rfl
  | none =>
    obtain ⟨e, j⟩ := i.flush
    cases e with
    | some e => rfl
    | none =>
      dsimp only
      rw [show (j.readied j.requests).begin event args =
        ({ j.clearPending with phase := .handler } : Instance).begin event args from rfl]
      obtain ⟨r, k⟩ := ({ j.clearPending with phase := .handler } : Instance).begin event args
      cases r with
      | error f => rfl
      | ok called => cases called <;> rfl

variable (env : Env (Surroundings σ)) (fuel : Nat) (i : Instance) (event : Event)
  (args : List Value) (w : σ) in
/-- What becomes of an event: it is refused, what was asked for before cannot be written, it has
no handler, its handler cannot be called, or its handler runs. -/
inductive Starts : Option (Result × σ) → Prop
  | refuses : i.refusal? event args = some f → Starts (some ((.error f, i), w))
  | undelivered : i.refusal? event args = none → i.flush = (some e, { i with requests := q }) →
      Starts
        (some ((.error (Fault.migration e), { i with requests := q }), w))
  | unhandled : i.refusal? event args = none → i.flush = (none, { i with requests := q }) →
      Starts (some ((.ok .idle, i.readied q), w))
  | uncalled : i.refusal? event args = none → i.flush = (none, { i with requests := q }) →
      (i.readied q).handlerOf? event = some f →
      (i.readied q).machine.enter i.module f args = .error e → Starts
        (some ((.error e, { i.readied q with event, eventArgs := args }), w))
  | calls {machine : Machine} :
      i.refusal? event args = none → i.flush = (none, { i with requests := q }) →
      (i.readied q).handlerOf? event = some f →
      (i.readied q).machine.enter i.module f args = .ok machine → Starts
        (executeIn env fuel ((i.readied q).entering event args machine) w)

theorem startIn_starts (env : Env (Surroundings σ)) (fuel : Nat) (i : Instance) (event : Event)
    (args : List Value) (w : σ) :
    Starts env fuel i event args w (i.startIn env fuel event args w) := by
  rw [startIn_eq]
  cases hr : i.refusal? event args with
  | some f => exact .refuses hr
  | none =>
    obtain ⟨q, hq⟩ := flush_eq i
    obtain ⟨hidle, -, -, -⟩ := refusal?_eq_none hr
    cases hf : i.flush with
    | mk e j =>
      rw [hf] at hq
      cases hq
      cases e with
      | some e => exact .undelivered hr hf
      | none =>
        show Starts env fuel i event args w (delivered env fuel w ((i.readied q).begin event args))
        obtain hb | ⟨f, hh, ⟨e, hx, hb⟩ | ⟨machine, hx, hb⟩⟩ := begin_cases (i.readied q) event args
        · rw [hb]
          show Starts env fuel i event args w (some ((.ok i.status, i.readied q), w))
          rw [hidle]
          exact .unhandled hr hf
        · rw [hb]
          exact .uncalled hr hf hh hx
        · rw [hb]
          exact .calls hr hf hh hx

end Instance

end EventScript
