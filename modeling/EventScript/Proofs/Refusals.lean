import EventScript.Proofs.Courses
import EventScript.Proofs.Delivery

/-!
# Sinks that refuse writes

A sink that refuses a write does an instance no harm (`Instance.refusals_harmless`).

1. `Sink.Refuses`: one of the writes of a stream is refused, or the sink is not flushed. The sink has
   a beginning of the stream then, and the instance can be written once more.
2. `Host.willing`: the host with sinks that take everything. A call comes to the same with both
   hosts but for what sinks have taken and the error that says so (`Instance.Agree`).
-/

namespace EventScript

open List

/-! ## Streams -/

namespace Sink

/-- The sink does not take one of the writes when it has what comes before it, or is not flushed
when it has everything. Of the write that it refuses it may take a part. -/
def Refuses (sink : Sink) (cs : List Chunk) : Prop :=
  ∃ before after bs r, Chunk.Clear before ∧ sink.refuses (Chunk.join before).reverse bs = some r ∧
    (cs = before ++ .bytes bs :: after ∧ bs ≠ [] ∨ cs = before ∧ bs = [])

theorem take_of_refuses {sink : Sink} {before : List Chunk} (after : List Chunk)
    (hclear : Chunk.Clear before) (taken : List UInt8)
    (h : sink.refuses ((Chunk.join before).reverse ++ taken) bs = some r)
    (hcs : cs = .bytes bs :: after ∧ bs ≠ [] ∨ cs = [] ∧ bs = []) :
    ∃ reason, (sink.take taken (before ++ cs)).2 = some (.refused reason) := by
  induction before generalizing taken with
  | nil =>
    have h : sink.refuses taken bs = some r := h
    obtain ⟨rfl, hbs⟩ | ⟨rfl, rfl⟩ := hcs
    · cases bs with
      | nil => exact absurd rfl hbs
      | cons b bs =>
        rw [nil_append, take.eq_4, h]
        exact ⟨r.reason, rfl⟩
    · rw [nil_append, take, h]
      exact ⟨r.reason, rfl⟩
  | cons c before ih =>
    obtain ⟨⟨cbs, rfl⟩, htail⟩ := Chunk.clear_cons.1 hclear
    cases cbs with
    | nil => exact ih htail taken h
    | cons b cbs =>
      rw [cons_append, take.eq_4]
      split
      · exact ⟨_, rfl⟩
      · refine ih htail _ ?_
        simpa [Chunk.content] using h

end Sink

namespace Snapshot

variable {m : Module} {s : Snapshot} {sink : Sink}

theorem send_refused (h : sink.Refuses (s.chunks m)) :
    ∃ reason, (s.send m sink).error = some (.refused reason) := by
  obtain ⟨before, after, bs, r, hclear, h, hcs⟩ := h
  rw [← append_nil (Chunk.join before).reverse] at h
  obtain ⟨hcs, hbs⟩ | ⟨hcs, hbs⟩ := hcs
  · unfold send
    rw [hcs]
    exact Sink.take_of_refuses after hclear [] h (.inl ⟨rfl, hbs⟩)
  · unfold send
    rw [hcs, ← append_nil before]
    exact Sink.take_of_refuses after hclear [] h (.inr ⟨rfl, hbs⟩)

theorem send_prefix (m : Module) (s : Snapshot) (sink : Sink) (n : Nat) :
    (s.send m sink).bytes <+: (s.send m (.accepting n)).bytes :=
  reverse_prefix.2 (sink.take_accepting_of n [] (s.chunks m)).1

end Snapshot

/-! ## Hosts with sinks that take everything -/

def Sink.willing (sink : Sink) : Sink := .accepting sink.id

def Request.willing : Request → Request
  | .suspend => .suspend
  | .migrate sink => .migrate sink.willing

namespace Requests

def willing (q : Requests) : Requests := { q with sink := q.sink.map Sink.willing }

theorem willing_of_none {q : Requests} (h : q.sink = none) : q.willing = q := by
  obtain ⟨suspend, migrate, sink, deliveries⟩ := q
  cases h
  rfl

theorem post_willing (q : Requests) (r : Request) :
    q.willing.post r.willing = (q.post r).willing := by
  cases r <;> rfl

theorem posts_willing (rs : List Request) (q : Requests) :
    (rs.map Request.willing).foldl post q.willing = (rs.foldl post q).willing := by
  induction rs generalizing q with
  | nil => rfl
  | cons r rs ih =>
    rw [map_cons, foldl_cons, post_willing]
    exact ih (q.post r)

end Requests

def Reply.willing {σ : Type} (r : Reply σ) : Reply σ :=
  { r with posts := r.posts.map Request.willing }

def Surroundings.willing {σ : Type} (w : Surroundings σ) : Surroundings σ :=
  ⟨w.host, w.requests.willing⟩

namespace Host

variable {σ : Type}

/-- The host that answers alike, with sinks that take everything. -/
def willing (h : Host σ) : Host σ where
  call f args w := (h.call f args w).willing
  resume f args w := (h.resume f args w).willing

theorem ask_willing (call : σ → Reply σ) (w : Surroundings σ) :
    ask (fun w => (call w).willing) w.willing = Prod.map id Surroundings.willing (ask call w) := by
  unfold ask
  dsimp only [Reply.willing, Surroundings.willing]
  rw [Requests.posts_willing]
  rfl

theorem willing_seenAs (h : Host σ) (alwaysSuspend : Bool) :
    (h.env alwaysSuspend).SeenAs Surroundings.willing (h.willing.env alwaysSuspend) where
  call g args w := ask_willing (h.call g args) w
  resume g args w := ask_willing (h.resume g args) w
  poll _ := rfl

end Host

/-! ## Calls -/

namespace Instance

/-- Instances that differ by what sinks have taken last: the second one has been written to sinks
that take everything. -/
structure Matches (k k' : Instance) : Prop where
  same : k' = k.withRequests { k.requests.willing with deliveries := k'.requests.deliveries }
  deliveries : k'.requests.deliveries = k.requests.deliveries ∨ ∃ d d' ds,
    k.requests.deliveries = d :: ds ∧ k'.requests.deliveries = d' :: ds ∧ d'.sink = d.sink ∧
      d.bytes <+: d'.bytes

/-- Two outcomes that differ by what sinks have taken and by the error that says so. -/
structure Agree {σ : Type} (x x' : Result × σ) : Prop where
  host : x'.2 = x.2
  inst : x.1.2.Matches x'.1.2
  result : x'.1.1 = x.1.1 ∨ (∃ e, x.1.1 = .error (Fault.migration e)) ∧
    (x'.1.1 = .ok x.1.2.status ∨ ∃ e, x'.1.1 = .error (Fault.migration e))

def willing (i : Instance) : Instance := i.withRequests i.requests.willing

variable {σ : Type} {i : Instance}

theorem willing_of_none (h : i.requests.sink = none) : i.willing = i := by
  unfold willing
  rw [Requests.willing_of_none h]
  rfl

theorem Matches.willing (i : Instance) : i.Matches i.willing := ⟨rfl, .inl rfl⟩

theorem flush_matches (i : Instance) :
    i.flush.2.Matches i.willing.flush.2 ∧ (i.flush.1 = none → i.willing.flush.1 = none) := by
  have hrest : (i.willing.isAtRest && i.willing.requests.migrate) =
    (i.isAtRest && i.requests.migrate) := rfl
  unfold flush
  rw [hrest]
  split
  · have hsink : i.willing.requests.sink = i.requests.sink.map Sink.willing := rfl
    rw [hsink]
    cases i.requests.sink with
    | none => exact ⟨⟨rfl, .inl rfl⟩, fun _ => rfl⟩
    | some sink =>
      obtain ⟨hbytes, hwhole⟩ := i.snapshot.send_beginning sink
      refine ⟨⟨rfl, .inr ⟨_, _, _, rfl, rfl, rfl, hbytes⟩⟩, fun h => ?_⟩
      exact (congrArg Delivery.error (hwhole h)).symm.trans h
  · exact ⟨.willing i, fun _ => rfl⟩

theorem settled_agrees (i : Instance) (w : σ) : Agree (i.settled, w) (i.willing.settled, w) := by
  obtain ⟨hmatches, hnone⟩ := flush_matches i
  unfold settled
  generalize i.flush = x at hmatches hnone ⊢
  generalize i.willing.flush = x' at hmatches hnone ⊢
  obtain ⟨e, k⟩ := x
  obtain ⟨e', k'⟩ := x'
  dsimp only at hmatches
  have hstatus : k'.status = k.status := by rw [hmatches.same]; rfl
  cases e with
  | none =>
    obtain rfl := hnone rfl
    exact ⟨rfl, hmatches, .inl (congrArg Except.ok hstatus)⟩
  | some e =>
    cases e' with
    | none => exact ⟨rfl, hmatches, .inr ⟨⟨e, rfl⟩, .inl (congrArg Except.ok hstatus)⟩⟩
    | some e' => exact ⟨rfl, hmatches, .inr ⟨⟨e, rfl⟩, .inr ⟨e', rfl⟩⟩⟩

theorem failed_agrees (i : Instance) (f : PlacedFault) (w : σ) :
    Agree (i.failed f, w) (i.willing.failed f, w) :=
  ⟨rfl, (flush_matches i.abort).1, .inl rfl⟩

/-- What follows is the same run, or both calls are over. -/
inductive Progress.Agree : Progress → Progress → Prop
  | more (i : Instance) : Agree (.more i) (.more i.willing)
  | done : (∀ {σ : Type} (w : σ), Instance.Agree (x, w) (x', w)) → Agree (.done x) (.done x')

theorem conclude_agrees (a : Advance) (h : a.2.requests = i.requests) :
    (conclude a).Agree (conclude (a.withRequests i.requests.willing)) := by
  rw [← h]
  obtain ⟨r, k⟩ := a
  cases r with
  | error f => exact .done fun w => failed_agrees k f w
  | ok called =>
    cases called with
    | true => exact .more k
    | false => exact .done fun w => settled_agrees k w

theorem react_agrees (i : Instance) (fuel : Nat) (e : Exit) :
    Option.Rel Progress.Agree (i.react fuel e) (i.willing.react fuel e) := by
  cases e with
  | completed v =>
    refine .some ?_
    unfold willing
    rw [advance_withRequests]
    exact conclude_agrees i.advance (advance_requests i)
  | suspended =>
    exact .some (.done fun w => settled_agrees
      { i with status := .suspended, requests := { i.requests with suspend := false } } w)
  | fault f => exact .some (.done fun w => failed_agrees i f w)
  | signal x =>
    cases x with
    | reset =>
      unfold react willing
      rw [reset_withRequests, Option.map_map]
      cases hreset : i.reset fuel with
      | none => exact .none
      | some a => exact .some (conclude_agrees a (reset_requests hreset))
    | terminate => exact .some (.done fun _ => ⟨rfl, .willing _, .inl rfl⟩)

/-- A run with sinks that may refuse writes and the one with sinks that do not. -/
theorem executeIn_agrees (h : env.SeenAs Surroundings.willing env') (fuel : Nat) (i : Instance)
    (w : σ) : Option.Rel Agree (executeIn env fuel i w) (executeIn env' fuel i.willing w) := by
  induction fuel generalizing i w with
  | zero => exact .none
  | succ fuel ih =>
    unfold executeIn
    rw [show i.willing.machine.run env' i.willing.module fuel ⟨w, i.willing.requests⟩ = _ from
      Machine.run_map h i.machine ⟨w, i.requests⟩]
    cases hrun : i.machine.run env i.module fuel ⟨w, i.requests⟩ with
    | none =>
      rw [show i.machine.run env i.willing.module fuel ⟨w, i.requests⟩ = _ from hrun]
      exact .none
    | some x =>
      obtain ⟨e, s, ws⟩ := x
      rw [show i.machine.run env i.willing.module fuel ⟨w, i.requests⟩ = _ from hrun]
      dsimp only [Option.map]
      have hreact : Option.Rel Progress.Agree ((i.ran s ws.requests).react fuel e)
          ((i.willing.ran s ws.willing.requests).react
            fuel e) := react_agrees (i.ran s ws.requests) fuel e
      generalize (i.ran s ws.requests).react fuel e = p at hreact ⊢
      generalize (i.willing.ran s ws.willing.requests).react fuel e = p' at hreact ⊢
      cases hreact with
      | none => exact .none
      | some hp =>
        cases hp with
        | more k => exact ih k ws.host
        | done hx => exact .some (hx ws.host)

theorem Agree.refl (hk : k.requests.sink = none) (r : Except PlacedFault Status)
    (w : σ) : Agree ((r, k), w) ((r, k), w) := by
  have hmatches := Matches.willing k
  rw [willing_of_none hk] at hmatches
  exact ⟨rfl, hmatches, .inl rfl⟩

theorem flush_sink (hi : i.requests.sink = none) : i.flush.2.requests.sink = none := by
  unfold flush
  split
  · rfl
  · exact hi

theorem begin_sink (hi : i.requests.sink = none) (event : Event) (args : List Value) :
    (i.begin event args).2.requests.sink = none := by
  have hbegin := begin_withRequests i.requests i event args
  rw [show i.withRequests i.requests = i from rfl] at hbegin
  rw [hbegin]
  exact hi

theorem handle_agrees (h : env.SeenAs Surroundings.willing env') (fuel : Nat)
    (hi : i.requests.sink = none) (w : σ) (input : Input) :
    Option.Rel Agree (i.handle env fuel w input) (i.handle env' fuel w input) := by
  have hexecute {k : Instance} (hk : k.requests.sink = none) :
      Option.Rel Agree (executeIn env fuel k w) (executeIn env' fuel k w) := by
    have hagrees := executeIn_agrees h fuel k w
    rwa [willing_of_none hk] at hagrees
  cases input with
  | start event args =>
    show Option.Rel Agree (i.startIn env fuel event args w) (i.startIn env' fuel event args w)
    rw [startIn_eq, startIn_eq]
    cases i.refusal? event args with
    | some f => exact .some (.refl hi _ w)
    | none =>
      have hj := flush_sink hi
      generalize i.flush = x at hj ⊢
      obtain ⟨e, j⟩ := x
      cases e with
      | some e => exact .some (.refl hj _ w)
      | none =>
        have hk := begin_sink (i := j.readied j.requests) hj event args
        dsimp only
        generalize (j.readied j.requests).begin event args = x at hk ⊢
        obtain ⟨r, k⟩ := x
        cases r with
        | error f => exact .some (.refl hk _ w)
        | ok called =>
          cases called with
          | false => exact .some (.refl hk _ w)
          | true => exact hexecute hk
  | resume =>
    show Option.Rel Agree (i.resumeIn env fuel w) (i.resumeIn env' fuel w)
    unfold resumeIn
    split
    · exact hexecute (k := { i with status := .running }) hi
    · exact .some (.refl hi _ w)

/-- Sinks that refuse writes do no harm. If a sink refuses one of the writes of an instance at rest,
all of it or a part, or is not flushed, the request fails, the sink has a beginning of the stream,
and nothing is left of the request; a sink that takes everything gets the whole stream afterwards.
If a sink that was posted during a call refuses a write, the instance is the one that there is with
a sink that takes everything, but for what the sink has taken. -/
theorem refusals_harmless :
    (∀ (i : Instance) (sink : Sink), i.status = .idle ∨ i.status = .suspended →
      sink.Refuses (i.snapshot.chunks i.module) →
      ∃ d reason, d.error = some (.refused reason) ∧
        i.requestMigration sink =
          (some (.refused reason), i.withRequests (i.requests.settle (some d))) ∧
        ∀ n, d.bytes <+: (i.snapshot.send i.module (.accepting n)).bytes ∧
          (i.requestMigration sink).2.requestMigration (.accepting n) =
            ((i.snapshot.send i.module (.accepting n)).error, i.withRequests
              ((i.requests.settle (some d)).settle
                (some (i.snapshot.send i.module (.accepting n))))) ∧
          (Chunk.Clear (i.snapshot.chunks i.module) → i.snapshot.send i.module (.accepting n) =
            ⟨n, Chunk.join (i.snapshot.chunks i.module), none⟩)) ∧
    ∀ {σ : Type} (host : Host σ) fuel (i : Instance) w input, i.requests.sink = none →
      Option.Rel Agree (i.handle (host.env i.alwaysSuspend) fuel w input)
        (i.handle (host.willing.env i.alwaysSuspend) fuel w input) := by
  refine ⟨fun i sink hi hrefuses => ?_, fun host fuel i w input hi => ?_⟩
  · obtain ⟨reason, hreason⟩ := Snapshot.send_refused hrefuses
    have hrest : i.isAtRest = true := by simpa [isAtRest] using hi
    have hrequest := requestMigration_eq hrest sink
    refine ⟨_, reason, hreason, hreason ▸ hrequest, fun n => ⟨Snapshot.send_prefix _ _ _ n, ?_, ?_⟩⟩
    · rw [hrequest]
      exact requestMigration_eq (i := i.withRequests (i.requests.settle _)) hrest _
    · exact Snapshot.send_accepting fun _ _ => rfl
  · exact handle_agrees (host.willing_seenAs i.alwaysSuspend) fuel hi w input

end Instance

/-- A sink that takes everything and passes on nothing. -/
def Sink.clogged : Sink := ⟨3, fun _ bs => if bs = [] then some "clogged" else none⟩

/-- The sink of the nosy host is full in the middle of a write, and the instance is suspended all the
same. It can be written later, also after a sink that has everything could not be flushed. -/
theorem gossip_unharmed :
    Script.Sample Handle.gossip "gossip" 100 fun _ _ i =>
      ∃ r k k' w, i.start Handle.nosy 100 .touchStart [.integer 1] 0 = some ((r, k), w) ∧
      i.start Handle.nosy.willing 100 .touchStart [.integer 1] 0 = some ((.ok .suspended, k'), w) ∧
      (∃ e, r = .error (Fault.migration e)) ∧ k.Matches k' ∧ k'.status = .suspended ∧
      (∃ reason, (k.requestMigration .clogged).1 = some (.refused reason)) ∧
      ((k.requestMigration .clogged).2.requestMigration (.accepting 4)).1 = none := by
  refine .of_test (fun _ _ i =>
      ∃ x ∈ i.start Handle.nosy 100 .touchStart [.integer 1] 0,
      ∃ x' ∈ i.start Handle.nosy.willing 100 .touchStart [.integer 1] 0,
        i.requests.sink.isNone ∧ x.1.1.toOption = none ∧ x.1.2.status = .suspended ∧
        x'.1.1 = .ok .suspended ∧ x'.1.2.status = .suspended ∧
        (x.1.2.snapshot.send x.1.2.module (.accepting 4)).error = none) ?_
  rintro _ m i hs hm hmade ⟨⟨⟨r, k⟩, w⟩, hstart, ⟨⟨_, k'⟩, w'⟩, hstart', hnone, hr, hstatus, rfl,
    hstatus', hsent⟩
  obtain ⟨hrequests, hruns⟩ := Instance.refusals_harmless
  have hagrees := hruns Handle.nosy 100 i 0 (.start .touchStart [.integer 1])
    (Option.isNone_iff_eq_none.1 hnone)
  rw [show i.handle (Handle.nosy.env i.alwaysSuspend) 100 0 (.start .touchStart [.integer 1]) = _
    from hstart, show i.handle (Handle.nosy.willing.env i.alwaysSuspend) 100 0
      (.start .touchStart [.integer 1]) = _ from hstart'] at hagrees
  cases hagrees with
  | some hagrees =>
    obtain ⟨hhost, hmatches, hresult⟩ := hagrees
    obtain rfl : w' = w := hhost
    have he : ∃ e, r = .error (Fault.migration e) := by
      obtain hresult | ⟨he, -⟩ := hresult
      · obtain rfl : .ok .suspended = r := hresult
        cases hr
      · exact he
    obtain ⟨d, reason, -, hclogged, hlater⟩ := hrequests k .clogged (.inr hstatus)
      ⟨_, [], [], "clogged", (Snapshot.bytes_of_send hsent).1, rfl, .inr ⟨rfl, rfl⟩⟩
    obtain ⟨-, haccepted, -⟩ := hlater 4
    refine ⟨r, k, k', w', hstart, hstart', he, hmatches, hstatus',
      ⟨reason, congrArg Prod.fst hclogged⟩, ?_⟩
    rw [haccepted, hsent]

end EventScript
