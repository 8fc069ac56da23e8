import EventScript.Proofs.Delivery

/-!
# Disposal

An instance that has been disposed of stays what it is. `Instance.Disposed` says what is left of it,
and `Handle.Runs` what the holders of a handle can do one after another: nothing changes any more but
the requests, and nothing is written. Every operation is answered with an error, but for a request
for migration through the handle, which is taken and forgotten (`Handle.disposal_terminal`).
-/

namespace EventScript

open Instance Option

namespace Instance

/-- What is left of an instance that has been disposed of. -/
structure Disposed (i : Instance) : Prop where
  status : i.status = .disposed
  state : i.state = disposedState
  event : i.event = .garbage
  eventArgs : i.eventArgs = []
  frames : i.machine.frames = []
  pending : i.machine.pending = none
  globals : ∀ (n : Nat) (g : GlobalSlot) (v : Value), i.module.globals[n]? = some g →
    i.machine.globals[n]? = some v → v = disposedValue g.ty

variable {i : Instance}

/-! ## What disposal leaves -/

theorem disposeGlobals_marks {n : Nat} (hg : gs[n]? = some g)
    (hv : (disposeGlobals gs vs)[n]? = some v) : v = disposedValue g.ty := by
  induction gs generalizing vs n with
  | nil => cases hg
  | cons g' gs ih =>
    cases vs with
    | nil => cases hv
    | cons v' vs =>
      cases n with
      | zero => cases hg; cases hv; rfl
      | succ n => exact ih hg hv

theorem disposeGlobals_eq_self
    (h : ∀ (n : Nat) (g : GlobalSlot) (v : Value), gs[n]? = some g → vs[n]? = some v →
      v = disposedValue g.ty) : disposeGlobals gs vs = vs := by
  induction gs generalizing vs with
  | nil => rfl
  | cons g gs ih =>
    cases vs with
    | nil => rfl
    | cons v vs =>
      rw [disposeGlobals, ih fun n => h (n + 1), ← h 0 g v rfl rfl]

theorem dispose_disposed : i.dispose.Disposed :=
  ⟨rfl, rfl, rfl, rfl, rfl, rfl, fun _ _ _ => disposeGlobals_marks⟩

theorem Disposed.dispose_eq (h : i.Disposed) : i.dispose = i := by
  obtain ⟨m, s, state, event, eventArgs, status, phase, alwaysSuspend, requests⟩ := i
  obtain ⟨rfl, rfl, rfl, rfl, hframes, hpending, hglobals⟩ := h
  unfold dispose
  rw [disposeGlobals_eq_self hglobals, ← hframes, ← hpending]

theorem flush_of_disposed (hi : i.status = .disposed) : i.flush = (none, i) := by
  unfold flush isAtRest
  rw [hi]
  rfl

theorem flush_disposed (hi : i.status = .disposed → i.Disposed) (hd : i.flush.2.status = .disposed) :
    i.flush.2.Disposed := by
  rw [flush_status] at hd
  rw [flush_of_disposed hd]
  exact hi hd

theorem Disposed.withRequests (h : i.Disposed) (q : Requests) : (i.withRequests q).Disposed :=
  ⟨h.status, h.state, h.event, h.eventArgs, h.frames, h.pending, h.globals⟩

/-! ## Operations are refused -/

section

variable (hi : i.status = .disposed)
include hi

theorem start_of_disposed (host : Host σ) (fuel : Nat) (event : Event) (args : List Value) (w : σ) :
    i.start host fuel event args w =
      some ((.error (Fault.invalidStatus .start .disposed), i), w) := by
  rw [start, startIn, if_pos hi, hi]

theorem startNamed_of_disposed (host : Host σ) (fuel : Nat) (event : String) (args : List Value)
    (w : σ) : ∃ f, i.startNamed host fuel event args w = some ((.error f, i), w) := by
  unfold startNamed
  cases Event.ofName? event with
  | none => exact ⟨_, rfl⟩
  | some e => exact ⟨_, start_of_disposed hi host fuel e args w⟩

theorem resume_of_disposed (host : Host σ) (fuel : Nat) (w : σ) :
    i.resume host fuel w = some ((.error (Fault.invalidStatus .resume .disposed), i), w) := by
  rw [resume, resumeIn, if_neg (by rw [hi]; decide), hi]

theorem requestMigration_of_disposed (sink : Sink) :
    i.requestMigration sink = (some (.content .disposed), i) := if_pos hi

theorem migrateIn_of_disposed : i.migrateIn bytes = (.error (.content (.busy .disposed)), i) := by
  rw [migrateIn, if_neg (by rw [hi]; decide), hi]

end

/-- An operation on an instance that has been disposed of changes nothing but what is asked of it. -/
theorem Disposed.operates (hi : i.Disposed) (h : Operates i posted i' posted') :
    ∃ q, i' = i.withRequests q ∧ q.deliveries = i.requests.deliveries := by
  have hsame : ∃ q, i = i.withRequests q ∧ q.deliveries = i.requests.deliveries := ⟨_, rfl, rfl⟩
  cases h with
  | start h =>
    rw [start_of_disposed hi.status] at h
    cases h
    exact hsame
  | @startNamed _ host fuel event args w _ _ _ h =>
    obtain ⟨f, hf⟩ := startNamed_of_disposed hi.status host fuel event args w
    rw [hf] at h
    cases h
    exact hsame
  | resume h =>
    rw [resume_of_disposed hi.status] at h
    cases h
    exact hsame
  | requestSuspend => exact ⟨_, rfl, rfl⟩
  | requestMigration sink => rwa [requestMigration_of_disposed hi.status]
  | migrateIn bytes => rwa [migrateIn_of_disposed hi.status]
  | dispose => rwa [hi.dispose_eq]

/-! ## How an instance is disposed of -/

theorem executeIn_disposed (h : executeIn env fuel i w = some ((r, i'), w'))
    (hi' : i'.status = .disposed) : i'.Disposed := by
  obtain ⟨k, v, why, s, q, fuel', -, hceases⟩ := executeIn_passes h
  obtain ⟨j, hj⟩ := react_halted hceases.reacts
  obtain rfl : i' = j.flush.2 := hj.flushed
  rw [flush_status] at hi'
  obtain hrest | rfl := hj.stopped
  · rw [isAtRest, hi'] at hrest
    cases hrest
  · exact dispose_disposed

theorem start_disposed {event : Event} (h : i.start host fuel event args w = some ((r, i'), w'))
    (hi : i.status = .disposed → i.Disposed) (hi' : i'.status = .disposed) : i'.Disposed := by
  have hs := startIn_starts (host.env i.alwaysSuspend) fuel i event args w
  rw [show i.startIn _ fuel event args w = _ from h] at hs
  have hidle {k : Instance} (hr : i.refusal? event args = none) (hk : k.status = i.status)
      (hdisposed : k.status = .disposed) : False := by
    rw [hk, (refusal?_eq_none hr).1] at hdisposed
    cases hdisposed
  generalize ho : some ((r, i'), w') = o at hs
  cases hs with
  | refuses _ => cases ho; exact hi hi'
  | undelivered hr _ | unhandled hr _ | uncalled hr _ _ _ => cases ho; exact (hidle hr rfl hi').elim
  | calls _ _ _ _ => exact executeIn_disposed ho.symm hi'

theorem Operates.disposed (h : Operates i posted i' posted')
    (hi : i.status = .disposed → i.Disposed) (hi' : i'.status = .disposed) : i'.Disposed := by
  by_cases hd : i.status = .disposed
  · obtain ⟨q, rfl, -⟩ := (hi hd).operates h
    exact (hi hd).withRequests q
  cases h with
  | start h => exact start_disposed h hi hi'
  | startNamed h =>
    unfold Instance.startNamed at h
    split at h
    · exact start_disposed h hi hi'
    · cases h; exact hi hi'
  | resume h =>
    unfold Instance.resume resumeIn at h
    split at h
    · exact executeIn_disposed h hi'
    · cases h; exact hi hi'
  | requestSuspend => exact absurd hi' hd
  | requestMigration sink =>
    unfold Instance.requestMigration at hi'
    rw [if_neg hd, flush_status] at hi'
    exact absurd hi' hd
  | migrateIn bytes =>
    revert hi'
    unfold Instance.migrateIn
    split
    · split
      · exact fun _ => dispose_disposed
      rename_i s _
      intro hi'
      obtain ⟨-, hrest, -⟩ := restore_stands i s
      rw [isAtRest, hi'] at hrest
      cases hrest
    · exact fun hi' => absurd hi' hd
  | dispose => exact dispose_disposed

end Instance

namespace Handle

variable {m : Module} {h h' : Handle}

/-! ## What can be done with a handle -/

theorem unlock_of_disposed (hd : h.inst.status = .disposed) : h.unlock.inst = h.inst := by
  rw [unlock, flush_of_disposed hd]

theorem released_of_disposed (hd : i.status = .disposed) : released r i = (r, ⟨i, false⟩) := by
  rw [released, flush_of_disposed hd]

theorem start_of_disposed (hd : h.inst.status = .disposed) (host : Host σ) (fuel : Nat)
    (event : Event) (args : List Value) (w : σ) : h.start host fuel event args w =
      some ((.error (Fault.invalidStatus .start .disposed), ⟨h.inst, false⟩), w) := by
  rw [start, Instance.start_of_disposed hd, map_some]
  dsimp only
  rw [released_of_disposed hd]

theorem resume_of_disposed (hd : h.inst.status = .disposed) (host : Host σ) (fuel : Nat)
    (w : σ) : h.resume host fuel w =
      some ((.error (Fault.invalidStatus .resume .disposed), ⟨h.inst, false⟩), w) := by
  rw [resume, Instance.resume_of_disposed hd, map_some]
  dsimp only
  rw [released_of_disposed hd]

theorem requestMigration_of_disposed (hd : h.inst.status = .disposed) (sink : Sink) :
    h.requestMigration sink = (none, { h with
      inst := h.inst.withRequests (h.inst.requests.post (.migrate sink)) }) := by
  have hflush : (h.inst.withRequests (h.inst.requests.post (.migrate sink))).flush = _ :=
    flush_of_disposed hd
  unfold Instance.withRequests at hflush ⊢
  unfold requestMigration
  dsimp only
  split
  · rfl
  · rw [hflush]

theorem Does.of_disposed (h1 : h.Does posted h' posted') (hd : h.inst.Disposed) :
    ∃ q, h'.inst = h.inst.withRequests q ∧ q.deliveries = h.inst.requests.deliveries := by
  cases h1 with
  | start _ hstart =>
    rw [Handle.start_of_disposed hd.status] at hstart
    cases hstart
    exact ⟨_, rfl, rfl⟩
  | resume _ hresume =>
    rw [Handle.resume_of_disposed hd.status] at hresume
    cases hresume
    exact ⟨_, rfl, rfl⟩
  | requestSuspend | lock _ => exact ⟨_, rfl, rfl⟩
  | requestMigration sink =>
    rw [requestMigration_of_disposed hd.status]
    exact ⟨_, rfl, rfl⟩
  | operate _ ho => exact hd.operates ho
  | unlock _ =>
    rw [unlock_of_disposed hd.status]
    exact ⟨_, rfl, rfl⟩

/-- However long the holders go on, an instance that has been disposed of stays what it is. -/
theorem Runs.of_disposed (h1 : h.Runs posted h' posted' past) (hd : h.inst.Disposed) :
    ∃ q, h'.inst = h.inst.withRequests q ∧ q.deliveries = h.inst.requests.deliveries := by
  induction h1 with
  | refl => exact ⟨_, rfl, rfl⟩
  | does _ hdoes ih =>
    obtain ⟨q, hq, hdeliveries⟩ := ih
    obtain ⟨q', hq', hdeliveries'⟩ := hdoes.of_disposed (by rw [hq]; exact hd.withRequests q)
    rw [hq] at hq' hdeliveries'
    exact ⟨q', hq', hdeliveries'.trans hdeliveries⟩

theorem Does.disposed (h1 : h.Does posted h' posted')
    (hd : h.inst.status = .disposed → h.inst.Disposed) (hd' : h'.inst.status = .disposed) :
    h'.inst.Disposed := by
  cases h1 with
  | start _ hstart =>
    obtain ⟨⟨⟨r, i⟩, v⟩, hrun, heq⟩ := map_eq_some_iff.1 hstart
    obtain rfl : (Handle.released r i).2 = h' := congrArg (·.1.2) heq
    have ho : h.inst.Operates [] i _ := .start hrun
    rw [released_snd] at hd' ⊢
    exact flush_disposed (ho.disposed hd) hd'
  | resume _ hresume =>
    obtain ⟨⟨⟨r, i⟩, v⟩, hrun, heq⟩ := map_eq_some_iff.1 hresume
    obtain rfl : (Handle.released r i).2 = h' := congrArg (·.1.2) heq
    have ho : h.inst.Operates [] i _ := .resume hrun
    rw [released_snd] at hd' ⊢
    exact flush_disposed (ho.disposed hd) hd'
  | requestSuspend => exact (hd hd').withRequests _
  | requestMigration sink =>
    have hposted : ∀ q, (h.inst.withRequests q).status = .disposed → (h.inst.withRequests q).Disposed :=
      fun q hq => (hd hq).withRequests q
    unfold Handle.requestMigration at hd' ⊢
    split at hd'
    · rw [if_pos ‹_›]
      exact hposted _ hd'
    · rw [if_neg ‹_›]
      exact flush_disposed (hposted _) hd'
  | lock _ => exact hd hd'
  | operate _ ho => exact ho.disposed hd hd'
  | unlock _ => exact flush_disposed hd hd'

/-- An instance that was disposed of by a holder, by a host that ended it or because a stream could
not be read. -/
theorem Session.disposed (hs : Session m settings h posted past)
    (hd : h.inst.status = .disposed) : h.inst.Disposed := by
  induction hs with
  | new hnew =>
    rw [(new_rests hnew).2.1] at hd
    cases hd
  | does _ hdoes ih => exact hdoes.disposed ih hd

/-- Everything that is asked of the instance is answered with an error and changes nothing, but for a
request for migration through the handle: it is taken like one to an instance that is alive. -/
structure Refuses (h : Handle) : Prop where
  start (host : Host σ) (fuel : Nat) (event : Event) (args : List Value) (w : σ) :
    ∃ f, h.inst.start host fuel event args w = some ((.error f, h.inst), w)
  startNamed (host : Host σ) (fuel : Nat) (event : String) (args : List Value) (w : σ) :
    ∃ f, h.inst.startNamed host fuel event args w = some ((.error f, h.inst), w)
  resume (host : Host σ) (fuel : Nat) (w : σ) :
    ∃ f, h.inst.resume host fuel w = some ((.error f, h.inst), w)
  requestMigration (sink : Sink) : ∃ e, h.inst.requestMigration sink = (some e, h.inst)
  migrateIn (bytes : List UInt8) : ∃ e, h.inst.migrateIn bytes = (.error e, h.inst)
  sharedStart (host : Host σ) (fuel : Nat) (event : Event) (args : List Value) (w : σ) :
    ∃ f, h.start host fuel event args w = some ((.error f, ⟨h.inst, false⟩), w)
  sharedResume (host : Host σ) (fuel : Nat) (w : σ) :
    ∃ f, h.resume host fuel w = some ((.error f, ⟨h.inst, false⟩), w)
  sharedRequest (sink : Sink) : h.requestMigration sink =
    (none, { h with inst := h.inst.withRequests (h.inst.requests.post (.migrate sink)) })

theorem refuses_of_disposed (hd : h.inst.status = .disposed) : h.Refuses where
  start host fuel event args w := ⟨_, Instance.start_of_disposed hd host fuel event args w⟩
  startNamed := startNamed_of_disposed hd
  resume host fuel w := ⟨_, Instance.resume_of_disposed hd host fuel w⟩
  requestMigration sink := ⟨_, Instance.requestMigration_of_disposed hd sink⟩
  migrateIn _ := ⟨_, migrateIn_of_disposed hd⟩
  sharedStart host fuel event args w := ⟨_, start_of_disposed hd host fuel event args w⟩
  sharedResume host fuel w := ⟨_, resume_of_disposed hd host fuel w⟩
  sharedRequest := requestMigration_of_disposed hd

/-- Disposal is final. Whatever the holders of an instance that has been disposed of do, it keeps its
marks and changes nothing but what is asked of it; no sink gets anything any more, and all that can
be asked of it directly and all events are refused. -/
theorem disposal_terminal {m : Module} {settings : Settings} {h h' : Handle}
    {posted posted' : List Sink} {past past' : List Instance}
    (hs : Session m settings h posted past) (hd : h.inst.status = .disposed)
    (hrun : h.Runs posted h' posted' past') :
    h'.inst.Disposed ∧ h'.inst.withRequests h.inst.requests = h.inst ∧
      h'.inst.requests.deliveries = h.inst.requests.deliveries ∧ h'.Refuses := by
  have hdisposed := hs.disposed hd
  obtain ⟨q, hq, hdeliveries⟩ := hrun.of_disposed hdisposed
  have hdisposed' : h'.inst.Disposed := hq ▸ hdisposed.withRequests q
  refine ⟨hdisposed', ?_, ?_, refuses_of_disposed hdisposed'.status⟩
  · rw [hq]
    rfl
  · rw [hq]
    exact hdeliveries

/-- A host that lets a script say one thing and then ends it. -/
def reaper : Host Nat :=
  ⟨fun _ _ n => ⟨if n = 0 then .ok .undefined else .error (.signal .terminate), n + 1, []⟩,
    fun _ _ n => ⟨.ok .undefined, n, []⟩⟩

/-- The script is ended in the middle of a handler. A holder then asks for migration, disposes of the
instance once more and lets it go. -/
theorem gossip_ended :
    Script.Sample gossip "gossip" 100 fun _ _ i =>
      ∃ r h w, Handle.start reaper 100 ⟨i, false⟩ .touchStart [.integer 1] 0 = some ((r, h), w) ∧
      w = 2 ∧ h.inst.status = .disposed ∧
      let h' := { (h.lock.requestMigration (.accepting 7)).2 with
        inst := (h.lock.requestMigration (.accepting 7)).2.inst.dispose }.unlock
      h'.inst.Disposed ∧ h'.inst.withRequests h.inst.requests = h.inst ∧
      h'.inst.requests.deliveries = h.inst.requests.deliveries ∧ h'.Refuses := by
  refine .of_test (fun _ _ i =>
      ∃ x ∈ Handle.start reaper 100 ⟨i, false⟩ .touchStart [.integer 1] 0,
        x.2 = 2 ∧ x.1.2.held = false ∧ x.1.2.inst.status = .disposed) ?_
  rintro _ m i hs hm hmade ⟨⟨⟨r, h⟩, w⟩, hstart, hw, hfree, hstatus⟩
  have hsession : Session m {} h _ [i, h.inst] := .does (.new hmade) (.start rfl hstart)
  exact ⟨r, h, w, hstart, hw, hstatus,
    disposal_terminal hsession hstatus ((((Runs.refl.does (.lock hfree)).does
      (.requestMigration (.accepting 7))).does (.operate rfl .dispose)).does (.unlock rfl))⟩

/-- An instance that has been disposed of takes a request through its handle and writes nothing. -/
theorem gossip_takes_request :
    Script.Sample gossip "gossip" 100 fun _ _ i =>
      (i.dispose.requestMigration (.accepting 7)).1 ≠ none ∧
      (Handle.requestMigration ⟨i.dispose, false⟩ (.accepting 7)).1 = none ∧
      (Handle.requestMigration ⟨i.dispose, false⟩ (.accepting 7)).2.inst.requests.deliveries = [] :=
  .of_test _ fun _ _ _ _ _ _ h => h

end Handle

end EventScript
