import EventScript.Instance.Handle
import EventScript.Proofs.Lifecycle

/-!
# Delivery of requests for migration

No request for migration is forgotten and none is done twice. `Handle.Session` says what can be done
with a handle, and keeps a list of all sinks that have been posted, by the holders and by hosts while
they answer calls, and a list of all instances that there have been between the operations.

1. `Host.traced`: a host that also writes down the sinks that it posts. It answers like the host
   itself, so a run with it is the run with the host (`Instance.start_traced`).
2. `Requests.Ledger`: the deliveries are of sinks that were posted, each once and in order, and of
   snapshots that there have been.
3. Every operation keeps the ledger (`Instance.Operates.keeps`), and one that lets the instance go
   leaves no request behind, unless the instance has been disposed of.
-/

namespace EventScript

open List Option

/-! ## Worlds that hold more -/

def Step.map {ω ω' : Type} (p : ω' → ω) : Step ω' → Step ω
  | .next s w => .next s (p w)
  | .halt why s w => .halt why s (p w)

theorem Step.map_move {o : Step ω''} : (o.move w).map p = o.move (p w) := by
  cases o <;> rfl

/-- What an environment does is what another one does, seen through a function of its worlds. -/
structure Env.SeenAs {ω ω' : Type} (env' : Env ω') (p : ω' → ω) (env : Env ω) : Prop where
  call : ∀ g args w, env.call g args (p w) = Prod.map id p (env'.call g args w)
  resume : ∀ g args w, env.resume g args (p w) = Prod.map id p (env'.resume g args w)
  poll : ∀ w, env.poll (p w) = Prod.map id p (env'.poll w)

namespace Machine

variable {ω ω' : Type} {p : ω' → ω}

theorem step_map (h : env'.SeenAs p env) : step env m s (p w) = (step env' m s w).map p := by
  obtain ⟨q, hq, -⟩ := step_asks m s
  rw [hq, hq]
  cases q with
  | nothing o => exact Step.map_move.symm
  | call g args next => simp only [Query.answer, h.call, Prod.map, id, Step.map_move]
  | resume g args next => simp only [Query.answer, h.resume, Prod.map, id, Step.map_move]
  | poll next => simp only [Query.answer, h.poll, Prod.map, id, Step.map_move]

theorem run_map (h : env'.SeenAs p env) (s : Machine) (w : ω') :
    run env m fuel s (p w) = (run env' m fuel s w).map fun (e, s, w) => (e, s, p w) := by
  induction fuel generalizing s w with
  | zero => rfl
  | succ fuel ih =>
    rw [run_succ, run_succ, step_map h]
    cases step env' m s w with
    | next s' w' => exact ih s' w'
    | halt why s' w' => rfl

theorem step_upholds {P : ω → Prop} (hcall : ∀ g args w, P w → P (env.call g args w).2)
    (hresume : ∀ g args w, P w → P (env.resume g args w).2) (hpoll : ∀ w, P w → P (env.poll w).2)
    (hw : P w) : P (step env m s w).world := by
  obtain ⟨q, hq, -⟩ := step_asks m s
  rw [hq]
  cases q with
  | nothing o => rwa [Query.answer, Step.world_move]
  | call g args next => rw [Query.answer, Step.world_move]; exact hcall g args w hw
  | resume g args next => rw [Query.answer, Step.world_move]; exact hresume g args w hw
  | poll next => rw [Query.answer, Step.world_move]; exact hpoll w hw

end Machine

/-! ## Hosts that write down what they post -/

def Request.sink? : Request → Option Sink
  | .suspend => none
  | .migrate sink => some sink

/-- The reply, with the sinks that it posts added to those posted before. -/
def Reply.noted {σ : Type} (r : Reply σ) (posted : List Sink) : Reply (σ × List Sink) :=
  ⟨r.answer, (r.state, posted ++ r.posts.filterMap Request.sink?), r.posts⟩

namespace Host

variable {σ β : Type}

/-- The host that also keeps a list of the sinks that have been posted. -/
def traced (h : Host σ) : Host (σ × List Sink) where
  call f args w := (h.call f args w.1).noted w.2
  resume f args w := (h.resume f args w.1).noted w.2

/-- The sinks that have been posted when a run with a host is over, given those posted before. -/
def posted (run : (τ : Type) → Host τ → τ → Option (β × τ)) (h : Host σ) (w : σ)
    (before : List Sink) : List Sink :=
  match run (σ × List Sink) h.traced (w, before) with
  | some (_, _, after) => after
  | none => before

theorem traced_seenAs (h : Host σ) (alwaysSuspend : Bool) :
    (h.traced.env alwaysSuspend).SeenAs (fun w => ⟨w.host.1, w.requests⟩)
      (h.env alwaysSuspend) where
  call _ _ _ := rfl
  resume _ _ _ := rfl
  poll _ := rfl

theorem posted_eq (run : (τ : Type) → Host τ → τ → Option (β × τ))
    (htraced : run σ h w = (run _ h.traced (w, before)).map (Prod.map id Prod.fst))
    (hrun : run σ h w = some (r, w')) :
    run _ h.traced (w, before) = some (r, w', h.posted run w before) := by
  rw [hrun] at htraced
  obtain ⟨⟨r', v, after⟩, hafter, hr⟩ := map_eq_some_iff.1 htraced.symm
  cases hr
  rw [posted, hafter]
  rfl

end Host

namespace Instance

variable {σ τ : Type}

theorem executeIn_map {p : τ → σ}
    (h : env'.SeenAs (fun w => ⟨p w.host, w.requests⟩) env) (i : Instance) (w : τ) :
    executeIn env fuel i (p w) = (executeIn env' fuel i w).map (Prod.map id p) := by
  induction fuel generalizing i w with
  | zero => rfl
  | succ fuel ih =>
    unfold executeIn
    rw [show (⟨p w, i.requests⟩ : Surroundings σ) = (fun w : Surroundings τ => ⟨p w.host, w.requests⟩)
      ⟨w, i.requests⟩ from rfl, Machine.run_map h]
    cases i.machine.run env' i.module fuel ⟨w, i.requests⟩ with
    | none => rfl
    | some x =>
      obtain ⟨e, s, ws⟩ := x
      dsimp only [Option.map]
      cases (i.ran s ws.requests).react fuel e with
      | none => rfl
      | some progress =>
        cases progress with
        | more i' => exact ih i' ws.host
        | done result => rfl

theorem startIn_map {p : τ → σ}
    (h : env'.SeenAs (fun w => ⟨p w.host, w.requests⟩) env) (i : Instance)
    (event : Event) (args : List Value) (w : τ) : i.startIn env fuel event args (p w) =
      (i.startIn env' fuel event args w).map (Prod.map id p) := by
  rw [startIn_eq, startIn_eq]
  cases i.refusal? event args with
  | some f => rfl
  | none =>
    obtain ⟨e, j⟩ := i.flush
    cases e with
    | some e => rfl
    | none =>
      dsimp only
      obtain ⟨r, k⟩ := (j.readied j.requests).begin event args
      cases r with
      | error f => rfl
      | ok called =>
        cases called with
        | false => rfl
        | true => exact executeIn_map h k w

theorem start_traced (h : Host σ) (fuel : Nat) (i : Instance) (event : Event) (args : List Value)
    (w : σ) (before : List Sink) : i.start h fuel event args w =
      (i.start h.traced fuel event args (w, before)).map (Prod.map id Prod.fst) :=
  startIn_map (h.traced_seenAs i.alwaysSuspend) i event args (w, before)

theorem startNamed_traced (h : Host σ) (fuel : Nat) (i : Instance) (event : String)
    (args : List Value) (w : σ) (before : List Sink) : i.startNamed h fuel event args w =
      (i.startNamed h.traced fuel event args (w, before)).map (Prod.map id Prod.fst) := by
  unfold startNamed
  cases Event.ofName? event with
  | none => rfl
  | some e => exact start_traced h fuel i e args w before

theorem resume_traced (h : Host σ) (fuel : Nat) (i : Instance) (w : σ) (before : List Sink) :
    i.resume h fuel w = (i.resume h.traced fuel (w, before)).map (Prod.map id Prod.fst) := by
  unfold resume resumeIn
  split
  · exact executeIn_map (h.traced_seenAs i.alwaysSuspend) _ (w, before)
  · rfl

end Instance

/-! ## What has been written -/

/-- What sinks got since there were the deliveries `before` is an account of what was posted: of the
sinks some have got something, each once and in order, and what they got is of snapshots of a kind. A
sink that is stored comes after them. Whichever sink was posted last has got something or is
stored. -/
structure Requests.Ledger (m : Module) (before : List Delivery) (posted : List Sink)
    (P : Snapshot → Prop) (q : Requests) : Prop where
  stored : q.migrate = q.sink.isSome
  account : ∃ written : List (Sink × Snapshot),
    (written.map Prod.fst ++ q.sink.toList).Sublist posted ∧
    (written.map Prod.fst ++ q.sink.toList).getLast? = posted.getLast? ∧
    q.deliveries.reverse = before ++ written.map (fun x => x.2.send m x.1) ∧ ∀ x ∈ written, P x.2

namespace Requests.Ledger

variable {P : Snapshot → Prop}

theorem opened (m : Module) (P : Snapshot → Prop) (hsink : q.sink = none)
    (hmigrate : q.migrate = false) : Ledger m q.deliveries.reverse [] P q := by
  refine ⟨by rw [hsink, hmigrate]; rfl, [], ?_, ?_, (append_nil _).symm, forall_mem_nil _⟩
  · rw [hsink]
    exact nil_sublist _
  · rw [hsink]
    rfl

section

variable (h : Ledger m before posted P q)

include h

theorem mono (hP : ∀ s, P s → Q s) : Ledger m before posted Q q := by
  obtain ⟨written, hsub, hlast, hsent, hwritten⟩ := h.account
  exact ⟨h.stored, written, hsub, hlast, hsent, fun x hx => hP _ (hwritten x hx)⟩

theorem post (r : Request) : Ledger m before (posted ++ r.sink?.toList) P (q.post r) := by
  cases r with
  | suspend =>
    rw [Request.sink?, toList_none, append_nil]
    exact ⟨h.stored, h.account⟩
  | migrate sink =>
    obtain ⟨written, hsub, -, hrest⟩ := h.account
    have hwritten := (sublist_append_left _ _).trans hsub
    refine ⟨rfl, written, hwritten.append (List.Sublist.refl [sink]), ?_, hrest⟩
    exact getLast?_concat.trans getLast?_concat.symm

theorem posts (rs : List Request) :
    Ledger m before (posted ++ rs.filterMap Request.sink?) P (rs.foldl Requests.post q) := by
  induction rs generalizing posted q with
  | nil => simpa using h
  | cons r rs ih =>
    have hr : (r :: rs).filterMap Request.sink? = r.sink?.toList ++ rs.filterMap Request.sink? := by
      cases r <;> rfl
    rw [hr, ← append_assoc]
    exact ih (h.post r)

theorem settle (hs : P s) : Ledger m before posted P (q.settle (q.sink.map (s.send m))) := by
  obtain ⟨written, hsub, hlast, hsent, hwritten⟩ := h.account
  cases hsink : q.sink with
  | none =>
    rw [hsink] at hsub hlast
    exact ⟨rfl, written, hsub, hlast, hsent, hwritten⟩
  | some sink =>
    rw [hsink] at hsub hlast
    refine ⟨rfl, written ++ [(sink, s)], ?_, ?_, ?_, ?_⟩
    · simpa [Requests.settle] using hsub
    · simpa [Requests.settle] using hlast
    · simp [Requests.settle, hsent]
    intro x hx
    obtain hx | hx := mem_append.1 hx
    · exact hwritten x hx
    · rw [mem_singleton.1 hx]
      exact hs

end

theorem flush {i : Instance} (h : Ledger i.module before posted P i.requests)
    (hP : i.isAtRest = true → P i.snapshot) :
    Ledger i.module before posted P i.flush.2.requests := by
  unfold Instance.flush
  split
  · rename_i hf
    exact h.settle (hP (Bool.and_eq_true_iff.1 hf).1)
  · exact h

end Requests.Ledger

/-- The ledger of the requests that a traced host has seen. -/
def Surroundings.Accounted {σ : Type} (m : Module) (before : List Delivery) (P : Snapshot → Prop)
    (w : Surroundings (σ × List Sink)) : Prop := w.requests.Ledger m before w.host.2 P

theorem Machine.step_accounted (host : Host σ) (alwaysSuspend : Bool) (m' : Module) (s : Machine)
    (h : w.Accounted m before P) :
    (s.step (host.traced.env alwaysSuspend) m' w).world.Accounted m before P :=
  step_upholds (fun _ _ _ h => h.posts _) (fun _ _ _ h => h.posts _) (fun _ h => h) h

namespace Instance

variable {σ : Type}
  {i i' : Instance}

/-! ## Runs -/

theorem flush_status (i : Instance) : i.flush.2.status = i.status := by
  obtain ⟨q, hq⟩ := flush_eq i
  rw [hq]

theorem flush_module : i.flush.2.module = i.module := by
  obtain ⟨q, hq⟩ := flush_eq i
  rw [hq]

theorem flush_snapshot : i.flush.2.snapshot = i.snapshot := by
  obtain ⟨q, hq⟩ := flush_eq i
  rw [hq]
  rfl

theorem settled_snd : i.settled.2 = i.flush.2 := by
  unfold settled
  split
  · rename_i h
    rw [h]
  · rename_i h
    rw [h]

theorem Advances.same (h : Advances i a) : a.2.module = i.module ∧ a.2.requests = i.requests := by
  cases h <;> exact ⟨rfl, rfl⟩

theorem Resets.same (h : Resets i fuel a) : a.2.module = i.module ∧ a.2.requests = i.requests := by
  cases h <;> exact ⟨rfl, rfl⟩

/-- How an instance comes to rest or is disposed of: whatever it is then is written if that has been
asked for. -/
structure Halted (i j i' : Instance) : Prop where
  flushed : i' = j.flush.2
  module : j.module = i.module
  requests : ∃ b, j.requests = { i.requests with suspend := b }
  stopped : j.isAtRest = true ∨ j = i.dispose

theorem isAtRest_of_idle (h : i.status = .idle) : i.isAtRest = true := by
  rw [isAtRest, h]
  rfl

theorem conclude_more (h : conclude a = .more i') : a.2 = i' := by
  obtain ⟨r, k⟩ := a
  cases r with
  | error f => cases h
  | ok called =>
    cases called with
    | false => cases h
    | true => cases h; rfl

theorem conclude_halted (hsame : a.2.module = i.module ∧ a.2.requests = i.requests)
    (hidle : (conclude a).Meets (fun _ => True) (·.2.status = .idle)) (h : conclude a = .done r) :
    ∃ j, Halted i j r.2 := by
  obtain ⟨result, k⟩ := a
  cases result with
  | error f =>
    cases h
    exact ⟨k.abort, rfl, hsame.1, ⟨_, hsame.2⟩, .inl rfl⟩
  | ok called =>
    cases called with
    | true => cases h
    | false =>
      cases h
      have hk : k.status = .idle := by
        rw [← flush_status, ← settled_snd]
        exact hidle
      exact ⟨k, settled_snd, hsame.1, ⟨_, hsame.2⟩, .inl (isAtRest_of_idle hk)⟩

theorem react_more (h : i.react fuel e = some (.more i')) :
    i'.module = i.module ∧ i'.requests = i.requests := by
  cases e with
  | completed v =>
    rw [← conclude_more (some.inj h)]
    exact (advance_advances i).same
  | suspended | fault f => cases h
  | signal x =>
    cases x with
    | reset =>
      obtain ⟨a, ha, hmore⟩ := map_eq_some_iff.1 h
      rw [← conclude_more hmore]
      exact (reset_resets ha).same
    | terminate => cases h

theorem react_halted (h : i.react fuel e = some (.done r)) : ∃ j, Halted i j r.2 := by
  cases e with
  | completed v =>
    have ha := advance_advances i
    exact conclude_halted ha.same (conclude_advances_idle ha) (some.inj h)
  | suspended =>
    obtain rfl := Progress.done.inj (some.inj h)
    exact ⟨_, settled_snd, rfl, ⟨false, rfl⟩, .inl rfl⟩
  | fault f =>
    obtain rfl := Progress.done.inj (some.inj h)
    exact ⟨i.abort, rfl, rfl, ⟨_, rfl⟩, .inl rfl⟩
  | signal x =>
    cases x with
    | reset =>
      obtain ⟨a, ha, hdone⟩ := map_eq_some_iff.1 h
      have ha := reset_resets ha
      exact conclude_halted ha.same (conclude_resets_idle ha) hdone
    | terminate =>
      obtain rfl := Progress.done.inj (some.inj h)
      exact ⟨i.dispose, rfl, rfl, ⟨_, rfl⟩, .inr rfl⟩

section

variable {host : Host σ} {alwaysSuspend : Bool}

theorem Turns.ledger (h : Turns (host.traced.env alwaysSuspend) i w i' w')
    (hi : i.requests.Ledger m before w.2 P) :
    i'.module = i.module ∧ i'.requests.Ledger m before w'.2 P := by
  have hstep := Machine.step_accounted host alwaysSuspend i.module i.machine
    (w := ⟨w, i.requests⟩) hi
  cases h with
  | runs hs =>
    rw [hs] at hstep
    exact ⟨rfl, hstep⟩
  | follows hs hreact =>
    rw [hs] at hstep
    obtain ⟨hmodule, hrequests⟩ := react_more hreact
    exact ⟨hmodule, hrequests ▸ hstep⟩

theorem Passes.ledger (h : Passes (host.traced.env alwaysSuspend) i w i' w')
    (hi : i.requests.Ledger m before w.2 P) :
    i'.module = i.module ∧ i'.requests.Ledger m before w'.2 P := by
  induction h with
  | refl => exact ⟨rfl, hi⟩
  | next ht _ ih =>
    obtain ⟨hmodule, hledger⟩ := ht.ledger hi
    obtain ⟨hmodule', hledger'⟩ := ih hledger
    exact ⟨hmodule'.trans hmodule, hledger'⟩

theorem executeIn_ledger (h : executeIn (host.traced.env alwaysSuspend) fuel i w = some
    ((r, i'), w')) (hi : i.requests.Ledger m before w.2 P) :
    ∃ j : Instance, i' = j.flush.2 ∧ j.module = i.module ∧ (j.isAtRest = true ∨ j.status = .disposed) ∧
      j.requests.Ledger m before w'.2 P := by
  obtain ⟨k, v, why, s, q, fuel', hpasses, hceases⟩ := executeIn_passes h
  obtain ⟨hmodule, hledger⟩ := hpasses.ledger hi
  have hstep := Machine.step_accounted host alwaysSuspend k.module k.machine
    (w := ⟨v, k.requests⟩) hledger
  rw [hceases.halts] at hstep
  obtain ⟨j, hj⟩ := react_halted hceases.reacts
  obtain ⟨b, hb⟩ := hj.requests
  refine ⟨j, hj.flushed, hj.module.trans hmodule, hj.stopped.imp_right (congrArg status), ?_⟩
  rw [hb]
  exact ⟨hstep.stored, hstep.account⟩

end

/-! ## Operations -/

/-- Some instance at rest had the snapshot. -/
def Seen (past : List Instance) (s : Snapshot) : Prop :=
  ∃ k ∈ past, k.isAtRest = true ∧ k.snapshot = s

/-- What is so of an instance between operations. -/
structure Stored (m : Module) (before : List Delivery) (posted : List Sink) (past : List Instance)
    (i : Instance) : Prop where
  module : i.module = m
  stopped : i.isAtRest = true ∨ i.status = .disposed
  ledger : i.requests.Ledger m before posted (Seen past)

variable (i : Instance) (posted : List Sink) in
/-- One operation on an instance, with the sinks that have been posted before and after it. -/
inductive Operates : Instance → List Sink → Prop
  | start {σ : Type} {host : Host σ} {fuel : Nat} {event : Event} {args : List Value} {w w' : σ}
      {r : Except PlacedFault Status} {i' : Instance} :
      i.start host fuel event args w = some ((r, i'), w') →
      Operates i' (host.posted (fun _ host => i.start host fuel event args) w posted)
  | startNamed {σ : Type} {host : Host σ} {fuel : Nat} {event : String} {args : List Value}
      {w w' : σ} {r : Except PlacedFault Status} {i' : Instance} :
      i.startNamed host fuel event args w = some ((r, i'), w') →
      Operates i' (host.posted (fun _ host => i.startNamed host fuel event args) w posted)
  | resume {σ : Type} {host : Host σ} {fuel : Nat} {w w' : σ} {r : Except PlacedFault Status}
      {i' : Instance} : i.resume host fuel w = some ((r, i'), w') →
      Operates i' (host.posted (fun _ host => i.resume host fuel) w posted)
  | requestSuspend : Operates i.requestSuspend posted
  /-- An instance that has been disposed of takes no sink. -/
  | requestMigration (sink : Sink) : Operates (i.requestMigration sink).2
        (if i.status = .disposed then posted else posted ++ [sink])
  | migrateIn (bytes : List UInt8) : Operates (i.migrateIn bytes).2 posted
  | dispose : Operates i.dispose posted

theorem Seen.later (h : Seen past s) (i : Instance) : Seen (past ++ [i]) s := by
  obtain ⟨k, hk, hrest⟩ := h
  exact ⟨k, mem_append_left _ hk, hrest⟩

/-- Whether an instance is at rest does not depend on what has been asked of it. -/
theorem isAtRest_flush : i.flush.2.isAtRest = i.isAtRest := by
  rw [isAtRest, isAtRest, flush_status]

theorem seen_flush (h : i.isAtRest = true) : Seen (past ++ [i.flush.2]) i.snapshot :=
  ⟨i.flush.2, mem_concat_self, (isAtRest_flush).trans h, flush_snapshot⟩

theorem Seen.flush (h : Seen (past ++ [i]) s) : Seen (past ++ [i.flush.2]) s := by
  obtain ⟨k, hk, hrest, rfl⟩ := h
  obtain hk | hk := mem_append.1 hk
  · exact ⟨k, mem_append_left _ hk, hrest, rfl⟩
  · rw [mem_singleton.1 hk] at hrest ⊢
    exact seen_flush hrest

section

variable (h : Stored m before posted past i)

include h

theorem Stored.mono (hseen : ∀ s, Seen past s → Seen past' s) : Stored m before posted past' i :=
  ⟨h.module, h.stopped, h.ledger.mono hseen⟩

theorem Stored.later (k : Instance) :
    Stored m before posted (past ++ [k]) i := h.mono fun _ hs => hs.later k

theorem Stored.flush
    (hseen : i.isAtRest = true → Seen past i.snapshot) : Stored m before posted past i.flush.2 := by
  refine ⟨(flush_module).trans h.module, ?_, ?_⟩
  · rw [isAtRest_flush, flush_status]
    exact h.stopped
  · have hledger := h.ledger
    rw [← h.module] at hledger ⊢
    exact hledger.flush hseen

theorem Stored.flushed : Stored m before posted (past ++ [i.flush.2]) i.flush.2 :=
  (h.later i.flush.2).flush seen_flush

end

variable {host : Host σ}

theorem executeIn_stored {alwaysSuspend : Bool}
    (h : executeIn (host.traced.env alwaysSuspend) fuel i w = some ((r, i'), w'))
    (hmodule : i.module = m) (hi : i.requests.Ledger m before w.2 (Seen past)) :
    Stored m before w'.2 (past ++ [i']) i' := by
  obtain ⟨j, rfl, hj, hstopped, hledger⟩ := executeIn_ledger h hi
  exact Stored.flushed ⟨hj.trans hmodule, hstopped, hledger⟩

theorem start_stored {event : Event} (h : i.start host.traced fuel event args w = some
    ((r, i'), w')) (hi : Stored m before w.2 past i) (hmem : i ∈ past) :
    Stored m before w'.2 (past ++ [i']) i' := by
  have hs := startIn_starts (host.traced.env i.alwaysSuspend) fuel i event args w
  rw [show i.startIn _ fuel event args w = _ from h] at hs
  have hflush := (hi.flush fun hrest => ⟨i, hmem, hrest, rfl⟩).ledger
  -- the event is not delivered to an instance that does not rest
  have hidle (hr : i.refusal? event args = none) : i.isAtRest = true :=
    isAtRest_of_idle (refusal?_eq_none hr).1
  generalize ho : some ((r, i'), w') = o at hs
  cases hs with
  | refuses _ => cases ho; exact hi.later _
  | undelivered hr hf | unhandled hr hf | uncalled hr hf _ _ =>
    cases ho
    rw [hf] at hflush
    exact ⟨hi.module, .inl (hidle hr), hflush.mono fun _ hs => hs.later _⟩
  | calls hr hf _ _ =>
    rw [hf] at hflush
    exact executeIn_stored ho.symm hi.module hflush

theorem resume_stored (h : i.resume host.traced fuel w = some ((r, i'), w'))
    (hi : Stored m before w.2 past i) : Stored m before w'.2 (past ++ [i']) i' := by
  unfold resume resumeIn at h
  split at h
  · exact executeIn_stored h hi.module hi.ledger
  · cases h
    exact hi.later _

theorem startNamed_stored {event : String} (h : i.startNamed host.traced fuel event args w = some
    ((r, i'), w')) (hi : Stored m before w.2 past i) (hmem : i ∈ past) :
    Stored m before w'.2 (past ++ [i']) i' := by
  unfold startNamed at h
  split at h
  · exact start_stored h hi hmem
  · cases h
    exact hi.later _

theorem requestMigration_stored (hi : Stored m before posted past i) (sink : Sink) :
    Stored m before (if i.status = .disposed then posted else posted ++ [sink])
      (past ++ [(i.requestMigration sink).2]) (i.requestMigration sink).2 := by
  unfold requestMigration
  split
  · exact hi.later _
  · exact Stored.flushed ⟨hi.module, hi.stopped, hi.ledger.post (.migrate sink)⟩

theorem restore_stands (i : Instance) (s : Snapshot) :
    (i.restore s).module = i.module ∧ (i.restore s).isAtRest = true ∧
      (i.restore s).requests = i.requests := by
  unfold restore
  cases s.active <;> exact ⟨rfl, rfl, rfl⟩

theorem migrateIn_stored (hi : Stored m before posted past i) (bytes : List UInt8) :
    Stored m before posted (past ++ [(i.migrateIn bytes).2]) (i.migrateIn bytes).2 := by
  refine .later ?_ _
  unfold migrateIn
  split
  · split
    · exact ⟨hi.module, .inr rfl, hi.ledger⟩
    rename_i s _
    obtain ⟨hmodule, hrest, hrequests⟩ := restore_stands i s
    exact ⟨hmodule.trans hi.module, .inl hrest, hrequests.symm ▸ hi.ledger⟩
  · exact hi

theorem Operates.keeps {posted' : List Sink} (h : Operates i posted i' posted')
    (hi : Stored m before posted past i) (hmem : i ∈ past) :
    Stored m before posted' (past ++ [i']) i' := by
  cases h with
  | @start _ _ fuel event args _ _ _ _ h =>
    have htraced := Host.posted_eq (fun _ host => i.start host fuel event args)
      (start_traced _ _ _ _ _ _ posted) h
    exact start_stored htraced hi hmem
  | @startNamed _ _ fuel event args _ _ _ _ h =>
    have htraced := Host.posted_eq (fun _ host => i.startNamed host fuel event args)
      (startNamed_traced _ _ _ _ _ _ posted) h
    exact startNamed_stored htraced hi hmem
  | @resume _ _ fuel _ _ _ _ h =>
    have htraced := Host.posted_eq (fun _ host => i.resume host fuel)
      (resume_traced _ _ _ _ posted) h
    exact resume_stored htraced hi
  | requestSuspend =>
    have hledger := hi.ledger.mono fun _ hs => hs.later i.requestSuspend
    exact ⟨hi.module, hi.stopped, hledger.stored, hledger.account⟩
  | requestMigration sink => exact requestMigration_stored hi sink
  | migrateIn bytes => exact migrateIn_stored hi bytes
  | dispose => exact ⟨hi.module, .inr rfl, hi.ledger.mono fun _ hs => hs.later _⟩

end Instance

/-! ## Sessions -/

namespace Handle

variable (h : Handle) (posted : List Sink) in
/-- One operation of a holder on a handle, with the sinks that have been posted before and
after it. -/
inductive Does : Handle → List Sink → Prop
  | start {r : Except PlacedFault Status} {h' : Handle} : h.held = false →
      h.start host fuel event args w = some ((r, h'), w') →
      Does h' (host.posted (fun _ host => h.start host fuel event args) w posted)
  | resume {r : Except PlacedFault Status}
      {h' : Handle} : h.held = false → h.resume host fuel w = some ((r, h'), w') →
      Does h' (host.posted (fun _ host => h.resume host fuel) w posted)
  | requestSuspend : Does h.requestSuspend posted
  | requestMigration (sink : Sink) : Does (h.requestMigration sink).2 (posted ++ [sink])
  | lock : h.held = false → Does h.lock posted
  /-- The holder operates on the instance itself. -/
  | operate {i' : Instance} : h.held = true →
      h.inst.Operates posted i' posted' → Does { h with inst := i' } posted'
  | unlock : h.held = true → Does h.unlock posted

variable (m : Module) (settings : Settings) in
/-- What can be done with a handle of an instance. The list of sinks are those that have been posted,
and the list of instances are those that there have been after the operations. -/
inductive Session : Handle → List Sink → List Instance → Prop
  | new : Instance.new m settings fuel = some (.ok i) → Session ⟨i, false⟩ [] [i]
  | does : Session h posted past → h.Does posted h' posted' → Session h' posted' (past ++ [h'.inst])

/-- Operations of the holders one after another, with the sinks that have been posted before and
after them and the instances that there have been in between. -/
inductive Runs (h : Handle) (posted : List Sink) : Handle → List Sink → List Instance → Prop
  | refl : Runs h posted h posted []
  | does : Runs h posted h' posted' past → h'.Does posted' h'' posted'' →
      Runs h posted h'' posted'' (past ++ [h''.inst])

theorem released_snd (r : Except PlacedFault Status) (i : Instance) :
    (released r i).2 = ⟨i.flush.2, false⟩ := by
  unfold released
  split
  · rename_i h
    rw [h]
  · rename_i h
    rw [h]

/-- A handle and the ledger of its instance. If nobody holds the instance, nothing is left to be
written, unless the instance has been disposed of. -/
structure Kept (m : Module) (before : List Delivery) (posted : List Sink) (past : List Instance)
    (h : Handle) : Prop where
  stored : h.inst.Stored m before posted past
  last : h.inst ∈ past
  clear : h.held = false → h.inst.status ≠ .disposed → h.inst.requests.migrate = false

variable {past : List Instance}
  {i i' : Instance}

theorem flush_migrate (hstopped : i.isAtRest = true ∨ i.status = .disposed)
    (hdisposed : i.flush.2.status ≠ .disposed) : i.flush.2.requests.migrate = false := by
  rw [Instance.flush_status] at hdisposed
  have hrest := hstopped.resolve_right hdisposed
  unfold Instance.flush
  split
  · rfl
  · rename_i hf
    simpa [hrest] using hf

theorem Kept.released (hi : i.Stored m before posted past) :
    Kept m before posted (past ++ [i.flush.2]) ⟨i.flush.2, false⟩ :=
  ⟨hi.flushed, mem_concat_self, fun _ => flush_migrate hi.stopped⟩

section

variable (hk : Kept m before posted past h)

include hk

theorem Kept.operates (ho : h.inst.Operates posted i' posted') :
    Kept m before posted' (past ++ [i'.flush.2]) ⟨i'.flush.2, false⟩ := by
  have hi' := ho.keeps hk.stored hk.last
  exact ⟨(hi'.mono fun _ hs => hs.flush).flush Instance.seen_flush, mem_concat_self,
    fun _ => flush_migrate hi'.stopped⟩

theorem Kept.start (hs : h.start host fuel event args w = some ((r, h'), w')) :
    Kept m before (host.posted (fun _ host => h.start host fuel event args) w posted)
      (past ++ [h'.inst]) h' := by
  obtain ⟨⟨⟨result, i'⟩, v⟩, hstart, heq⟩ := map_eq_some_iff.1 hs
  have hposted : host.posted (fun _ host => h.start host fuel event args) w posted =
      host.posted (fun _ host => h.inst.start host fuel event args) w posted := by
    unfold Host.posted Handle.start
    dsimp only
    cases h.inst.start host.traced fuel event args (w, posted) <;> rfl
  obtain rfl : (Handle.released result i').2 = h' := congrArg (·.1.2) heq
  rw [hposted, released_snd]
  exact hk.operates (.start hstart)

theorem Kept.resume (hs : h.resume host fuel w = some ((r, h'), w')) :
    Kept m before (host.posted (fun _ host => h.resume host fuel) w posted)
      (past ++ [h'.inst]) h' := by
  obtain ⟨⟨⟨result, i'⟩, v⟩, hresume, heq⟩ := map_eq_some_iff.1 hs
  have hposted : host.posted (fun _ host => h.resume host fuel) w posted =
      host.posted (fun _ host => h.inst.resume host fuel) w posted := by
    unfold Host.posted Handle.resume
    dsimp only
    cases h.inst.resume host.traced fuel (w, posted) <;> rfl
  obtain rfl : (Handle.released result i').2 = h' := congrArg (·.1.2) heq
  rw [hposted, released_snd]
  exact hk.operates (.resume hresume)

theorem Kept.requestMigration (sink : Sink) :
    Kept m before (posted ++ [sink]) (past ++ [(h.requestMigration sink).2.inst])
      (h.requestMigration sink).2 := by
  have hi : Instance.Stored m before (posted ++ [sink]) past
      { h.inst with requests := h.inst.requests.post (.migrate sink) } :=
    ⟨hk.stored.module, hk.stored.stopped, hk.stored.ledger.post (.migrate sink)⟩
  unfold Handle.requestMigration
  split
  · rename_i hheld
    refine ⟨hi.later _, mem_concat_self, fun hfree => ?_⟩
    exact absurd (hheld.symm.trans hfree) (by decide)
  · rename_i hfree
    obtain ⟨j, held⟩ := h
    obtain rfl : held = false := by simpa using hfree
    exact .released hi

theorem Kept.does (hd : h.Does posted h' posted') :
    Kept m before posted' (past ++ [h'.inst]) h' := by
  cases hd with
  | start _ hstart => exact hk.start hstart
  | resume _ hresume => exact hk.resume hresume
  | requestSuspend =>
    exact ⟨Instance.Operates.requestSuspend.keeps hk.stored hk.last, mem_concat_self, hk.clear⟩
  | requestMigration sink => exact hk.requestMigration sink
  | lock _ =>
    exact ⟨hk.stored.later _, mem_concat_self, fun hfree => absurd hfree (by simp [lock])⟩
  | operate hheld ho =>
    refine ⟨ho.keeps hk.stored hk.last, mem_concat_self, fun hfree => ?_⟩
    exact absurd (hheld.symm.trans hfree) (by decide)
  | unlock _ => exact .released hk.stored

end

theorem Session.kept (hs : Session m settings h posted past) : Kept m [] posted past h := by
  induction hs with
  | new hnew =>
    obtain ⟨hmodule, hidle, -⟩ := Instance.new_rests hnew
    have hrequests := Instance.new_requests hnew
    refine ⟨⟨hmodule, .inl (Instance.isAtRest_of_idle hidle), ?_⟩, mem_singleton.2 rfl, ?_⟩
    · rw [hrequests]
      exact .opened (q := {}) m _ rfl rfl
    · intro _ _
      rw [hrequests]
  | does _ hd ih => exact ih.does hd

theorem Kept.opened (hk : Kept m before posted past h) (hmigrate : h.inst.requests.migrate = false) :
    Kept m h.inst.requests.deliveries.reverse [] [h.inst] h := by
  have hsink : h.inst.requests.sink = none := by
    have := hk.stored.ledger.stored
    rw [hmigrate] at this
    simpa using this.symm
  exact ⟨⟨hk.stored.module, hk.stored.stopped, .opened m _ hsink hmigrate⟩,
    mem_singleton.2 rfl, fun _ _ => hmigrate⟩

theorem Kept.runs (hk : Kept m before posted past h)
    (hr : h.Runs posted h' posted' past') : Kept m before posted' (past ++ past') h' := by
  induction hr with
  | refl => rwa [append_nil]
  | does _ hd ih => exact append_assoc .. ▸ ih.does hd

end Handle

/-! ## What sinks get -/

theorem Sink.suffix_take (sink : Sink) (taken : List UInt8) (cs : List Chunk) :
    taken <:+ (sink.take taken cs).1 := by
  induction cs generalizing taken with
  | nil => exact suffix_rfl
  | cons c cs ih =>
    cases c with
    | stuck reason => exact suffix_rfl
    | bytes bs =>
      cases bs with
      | nil => exact ih taken
      | cons b bs =>
        rw [take.eq_4]
        split
        · exact suffix_append _ _
        · exact (suffix_append _ _).trans (ih _)

theorem Sink.take_accepting_of (sink : Sink) (n : Nat) (taken : List UInt8) (cs : List Chunk) :
    (sink.take taken cs).1 <:+ ((accepting n).take taken cs).1 ∧
      ((sink.take taken cs).2 = none → (accepting n).take taken cs = sink.take taken cs) := by
  induction cs generalizing taken with
  | nil => exact ⟨suffix_rfl, fun h => Prod.ext rfl h.symm⟩
  | cons c cs ih =>
    cases c with
    | stuck reason => exact ⟨suffix_rfl, fun h => absurd h (by simp [take])⟩
    | bytes bs =>
      cases bs with
      | nil => exact ih taken
      | cons b bs =>
        rw [take.eq_4 sink]
        split
        · rename_i r _
          obtain ⟨left, hleft⟩ := take_prefix (min r.taken bs.length) (b :: bs)
          refine ⟨.trans ⟨left.reverse, ?_⟩ (suffix_take (accepting n) _ cs),
            fun h => absurd h (by simp)⟩
          rw [← append_assoc, ← reverse_append, hleft]
        · rw [take.eq_4 (accepting n)]
          exact ih _

theorem Snapshot.send_beginning (s : Snapshot) (sink : Sink) :
    (s.send m sink).bytes <+: (s.send m (.accepting sink.id)).bytes ∧
      ((s.send m sink).error = none → s.send m sink = s.send m (.accepting sink.id)) := by
  obtain ⟨hsuffix, hwhole⟩ := sink.take_accepting_of sink.id [] (s.chunks m)
  refine ⟨ reverse_prefix.2 hsuffix, fun h => ?_⟩
  unfold send
  rw [hwhole h]
  rfl

/-! ## Requests are done -/

namespace Handle

/-- What has become of the requests for migration to an instance: `posted` are the sinks of all
requests in order, and `past` are the instances that there have been. -/
structure Delivers (m : Module) (posted : List Sink) (past : List Instance) (h : Handle) :
    Prop where
  /-- No request is left when nobody holds the instance, unless it has been disposed of. -/
  clear : h.held = false → h.inst.status ≠ .disposed →
    h.inst.requests.migrate = false ∧ h.inst.requests.sink = none
  /-- Of the sinks some have been written to, each once and in order, and a sink that is stored
  comes after them. The last sink is one of these. A sink gets the snapshot of an instance at rest,
  or the beginning of it if it refuses something. -/
  account : ∃ written : List (Sink × Snapshot),
    (written.map Prod.fst ++ h.inst.requests.sink.toList).Sublist posted ∧
    (written.map Prod.fst ++ h.inst.requests.sink.toList).getLast? = posted.getLast? ∧
    h.inst.requests.deliveries.reverse = written.map (fun x => x.2.send m x.1) ∧ ∀ x ∈ written,
      (∃ i ∈ past, (i.status = .idle ∨ i.status = .suspended) ∧ i.snapshot = x.2) ∧
      (x.2.send m x.1).bytes <+: (x.2.send m (.accepting x.1.id)).bytes ∧
      ((x.2.send m x.1).error = none → x.2.send m x.1 = x.2.send m (.accepting x.1.id))

/-- No request for migration stays behind and none is done twice, whatever the holders of an
instance do with it and whenever they and the hosts ask for migration. -/
theorem migrations_delivered {m : Module} {settings : Settings} {h : Handle} {posted : List Sink}
    {past : List Instance} (hs : Session m settings h posted past) :
    h.Delivers m posted past := by
  obtain ⟨⟨-, -, hledger⟩, -, hclear⟩ := hs.kept
  refine ⟨fun hfree hdisposed => ?_, ?_⟩
  · have hmigrate := hclear hfree hdisposed
    refine ⟨hmigrate, ?_⟩
    rw [hledger.stored] at hmigrate
    simpa using hmigrate
  · obtain ⟨written, hsub, hlast, hsent, hseen⟩ := hledger.account
    refine ⟨written, hsub, hlast, hsent, fun x hx => ⟨?_, x.2.send_beginning x.1⟩⟩
    obtain ⟨i, hi, hrest, hsnapshot⟩ := hseen x hx
    exact ⟨i, hi, by simpa [Instance.isAtRest] using hrest, hsnapshot⟩

def gossip : String :=
  "default \x7b touch_start(integer n) \x7b llSay(0, \"one\"); llSay(0, \"two\"); \x7d \x7d"

/-- A host that asks for migration on every call, to sinks of forty bytes, and counts the calls. -/
def nosy : Host Nat :=
  let sink (n : Nat) : Sink :=
    ⟨n, fun taken bs =>
      if taken.length + bs.length ≤ 40 then none else some ⟨"full", 40 - taken.length⟩⟩
  ⟨fun _ _ n => ⟨.ok .undefined, n + 1, [.migrate (sink n)]⟩, fun _ _ n => ⟨.ok .undefined, n, []⟩⟩

/-- The instance stops at the checkpoint after the first call, and the sink is full before it has
everything. A sink that is posted while the instance is held is written when it is let go. -/
theorem gossip_delivered :
    Script.Sample gossip "gossip" 100 fun _ m i =>
      ∃ r h w, Handle.start nosy 100 ⟨i, false⟩ .touchStart [.integer 1] 0 = some ((r, h), w) ∧
      (nosy.posted (fun _ host => Handle.start host 100 ⟨i, false⟩ .touchStart [.integer 1]) 0
        []).map Sink.id = [0] ∧ h.inst.status = .suspended ∧
      (h.lock.requestMigration (.accepting 7)).2.unlock.inst.requests.deliveries.map
        (fun d => (d.sink, d.error.isNone)) = [(7, true), (0, false)] ∧
      (h.lock.requestMigration (.accepting 7)).2.unlock.Delivers m
        (nosy.posted (fun _ host => Handle.start host 100 ⟨i, false⟩ .touchStart [.integer 1]) 0
          [] ++ [.accepting 7])
        [i, h.inst, h.lock.inst, (h.lock.requestMigration (.accepting 7)).2.inst,
          (h.lock.requestMigration (.accepting 7)).2.unlock.inst] := by
  refine .of_test (fun _ _ i =>
      ∃ x ∈ Handle.start nosy 100 ⟨i, false⟩ .touchStart [.integer 1] 0,
        (nosy.posted (fun _ host => Handle.start host 100 ⟨i, false⟩ .touchStart [.integer 1]) 0
          []).map Sink.id = [0] ∧ x.1.2.held = false ∧ x.1.2.inst.status = .suspended ∧
        (x.1.2.lock.requestMigration (.accepting 7)).2.unlock.inst.requests.deliveries.map
          (fun d => (d.sink, d.error.isNone)) = [(7, true), (0, false)]) ?_
  rintro _ m i hs hm hmade ⟨⟨⟨r, h⟩, w⟩, hstart, hposted, hfree, hstatus, hdeliveries⟩
  have hsession : Session m {} h _ [i, h.inst] := .does (.new hmade) (.start rfl hstart)
  exact ⟨r, h, w, hstart, hposted, hstatus, hdeliveries,
    migrations_delivered (((hsession.does (.lock hfree)).does
      (.requestMigration (.accepting 7))).does (.unlock rfl))⟩

/-- What has become of the sinks that were posted since there were the deliveries `before`. Sinks
get something each once and in order, a sink that refuses nothing gets the whole snapshot of an
instance at rest, and no sink is left out unless another one is posted after it. -/
structure Serves (m : Module) (before : List Delivery) (posted : List Sink) (past : List Instance)
    (q : Requests) : Prop where
  account : ∃ written : List (Sink × Snapshot),
    q.deliveries.reverse = before ++ written.map (fun x => x.2.send m x.1) ∧
    (written.map Prod.fst).Sublist posted ∧ (written.map Prod.fst).getLast? = posted.getLast? ∧
    (posted.length ≤ 1 → written.map Prod.fst = posted) ∧ ∀ x ∈ written,
      (∃ i ∈ past, (i.status = .idle ∨ i.status = .suspended) ∧ i.snapshot = x.2) ∧
      (x.2.send m x.1).bytes <+: (x.2.send m (.accepting x.1.id)).bytes ∧
      ((x.2.send m x.1).error = none → x.2.send m x.1 = x.2.send m (.accepting x.1.id))

theorem eq_of_sublist_of_getLast? {l' : List α} (hsub : l.Sublist l')
    (hlast : l.getLast? = l'.getLast?) (hlen : l'.length ≤ 1) : l = l' := by
  refine hsub.eq_of_length_le ?_
  cases l with
  | nil => rw [getLast?_eq_none_iff.1 hlast.symm]
  | cons a l => exact hlen.trans (Nat.le_add_left 1 _)

/-- Between two moments at which nobody holds an instance every request is served but those that
another request came after. So a request that is the only one before the instance is let go is
served. -/
theorem requests_served {m : Module} {settings : Settings} {h h' : Handle}
    {posted posted' : List Sink} {past past' : List Instance}
    (hs : Session m settings h posted past) (hfree : h.held = false)
    (hlive : h.inst.status ≠ .disposed) (hrun : h.Runs [] h' posted' past')
    (hfree' : h'.held = false) (hlive' : h'.inst.status ≠ .disposed) :
    Serves m h.inst.requests.deliveries.reverse posted' (h.inst :: past') h'.inst.requests := by
  have hk := hs.kept
  obtain ⟨⟨-, -, hledger⟩, -, hclear⟩ := (hk.opened (hk.clear hfree hlive)).runs hrun
  have hsink : h'.inst.requests.sink = none := by
    have := hledger.stored
    rw [hclear hfree' hlive'] at this
    simpa using this.symm
  obtain ⟨written, hsub, hlast, hsent, hseen⟩ := hledger.account
  rw [hsink, toList_none, append_nil] at hsub hlast
  refine ⟨written, hsent, hsub, hlast, eq_of_sublist_of_getLast? hsub hlast, fun x hx => ?_⟩
  obtain ⟨i, hi, hrest, hsnapshot⟩ := hseen x hx
  exact ⟨⟨i, hi, by simpa [Instance.isAtRest] using hrest, hsnapshot⟩, x.2.send_beginning x.1⟩

/-- One sink is posted while the instance is held. -/
theorem gossip_served :
    Script.Sample gossip "gossip" 100 fun _ m i =>
      Serves m [] [.accepting 7]
        [i, i, (Handle.requestMigration ⟨i, true⟩ (.accepting 7)).2.inst,
          (Handle.requestMigration ⟨i, true⟩ (.accepting 7)).2.unlock.inst]
        (Handle.requestMigration ⟨i, true⟩ (.accepting 7)).2.unlock.inst.requests := by
  refine .of_test (fun _ _ i =>
      i.status = .idle ∧
      (Handle.requestMigration ⟨i, true⟩ (.accepting 7)).2.unlock.inst.status = .idle ∧
      i.requests.deliveries.isEmpty) ?_
  rintro _ m i hs hm hmade ⟨hidle, hidle', hnone⟩
  have hsession : Session m {} ⟨i, false⟩ [] [i] := .new hmade
  have hserves := requests_served hsession rfl (by rw [hidle]; decide)
    (((Runs.refl.does (.lock rfl)).does (.requestMigration (.accepting 7))).does (.unlock rfl)) rfl
    (by rw [Handle.lock, hidle']; decide)
  rw [isEmpty_iff.1 hnone] at hserves
  exact hserves

/-- Two requests are taken while the instance is held. Nothing comes of the first. -/
theorem gossip_supersedes :
    Script.Sample gossip "gossip" 100 fun _ _ i =>
      let h := Handle.requestMigration ⟨i, true⟩ (.accepting 1)
      let h' := h.2.requestMigration (.accepting 2)
      h.1 = none ∧ h'.1 = none ∧ h'.2.unlock.inst.status = .idle ∧
      h'.2.unlock.inst.requests.deliveries.map Delivery.sink = [2] := by
  refine .of_test (fun _ _ i =>
      ∃ k ∈ some ((Handle.requestMigration ⟨i, true⟩ (.accepting 1)).2.requestMigration
        (.accepting 2)).2.unlock.inst,
        k.status = .idle ∧ k.requests.deliveries.map Delivery.sink = [2]) ?_
  rintro _ m i hs hm hmade ⟨_, ⟨⟩, hidle, hsinks⟩
  exact ⟨rfl, rfl, hidle, hsinks⟩

end Handle

end EventScript
