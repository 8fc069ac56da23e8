import EventScript.Proofs.Accounting
import EventScript.Proofs.Migration
import EventScript.Proofs.Streams.Outlines

/-!
# The life of an instance

Whatever is done with an instance of a compiled module and whatever its host answers, it is idle,
suspended or disposed of afterwards, and all its parts agree with that (`Instance.lifecycle_orderly`).

1. A step calls a function, goes on in the innermost call, or leaves it (`Machine.Shifts`). So the
   outermost call stays the one of the handler, and no more calls are active than are allowed.
2. That and the shape of the calls are a regime (`Module.stacking`), also when an instance takes the
   place of another one whose values are not those of a script: it has the same outline
   (`Regime.Rests.migrateIn_cases`).
3. The handler that runs is the one of the current state and event (`Instance.Placed`).
-/

namespace EventScript

open List Option Machine

/-! ## Active calls -/

namespace Machine

def bottom? (s : Machine) : Option UInt16 := s.frames.getLast?.map Frame.function

def depth (s : Machine) : Nat := s.frames.countP fun f => decide (f.receiver = .script)

/-- How the active calls change in a step; `limit` is the most calls that can be active. -/
inductive Shifts (limit : Nat) : List Frame → List Frame → Prop
  | goes {fs : List Frame} : f'.receiver = f.receiver → f'.function = f.function →
      Shifts limit (f :: fs) (f' :: fs)
  | calls {g : Frame} {fs : List Frame} : f'.receiver = f.receiver → f'.function = f.function →
      (f :: fs).length < limit → Shifts limit (f :: fs) (g :: f' :: fs)
  | leaves {fs : List Frame} : c'.receiver = c.receiver → c'.function = c.function →
      Shifts limit (f :: c :: fs) (c' :: fs)

theorem answered_same :
    (answered g v f).receiver = f.receiver ∧ (answered g v f).function = f.function := by
  unfold answered
  split <;> exact ⟨rfl, rfl⟩

theorem does_shifts
    (hframes : s.frames = f :: fs) (h : Does env m ret { f with pc := f.pc + 1 } s w op s' w') :
    Shifts s.maxCallDepth s.frames s'.frames := by
  have htail : s.frames.tail = fs := by rw [hframes]; rfl
  rw [hframes]
  have goes {f' : Frame} (hr : f'.receiver = f.receiver) (hf : f'.function = f.function) :
      Shifts s.maxCallDepth (f :: fs) (f' :: s.frames.tail) := by
    rw [htail]
    exact .goes hr hf
  cases h with
  | store var _ _ | @arraySet var _ _ _ _ _ _ _ _ => cases var <;> exact goes rfl rfl
  | jumpIfNoStateChange =>
    split <;> exact goes rfl rfl
  | call _ _ he =>
    obtain ⟨g, -, hdepth, rfl⟩ := enter_ok he
    rw [setTop_frames, htail] at hdepth ⊢
    exact .calls rfl rfl hdepth
  | callApi _ _ _ => exact goes (answered_same ..).1 (answered_same ..).2
  | ret _ hcs =>
    rw [htail] at hcs
    subst hcs
    split <;> exact .leaves rfl rfl
  | _ => exact goes rfl rfl

theorem step_shifts (h : step env m s w = .next s' w') :
    Shifts s.maxCallDepth s.frames s'.frames := by
  cases step_goes h with
  | runs hframes _ _ _ hdoes => exact does_shifts hframes hdoes
  | answers hframes _ _ _ =>
    rw [hframes]
    exact .leaves (answered_same ..).1 (answered_same ..).2

theorem Shifts.bottom (h : Shifts limit fs fs') :
    fs'.getLast?.map Frame.function = fs.getLast?.map Frame.function := by
  cases h with
  | @goes f f' fs _ hf | @calls f f' g fs _ hf _ | @leaves f c c' fs _ hf => cases fs <;> simp [hf]

theorem Shifts.depth {s s' : Machine} (h : Shifts limit s.frames s'.frames) (hs : s.depth ≤ limit) :
    s'.depth ≤ limit := by
  unfold Machine.depth at hs ⊢
  generalize s.frames = fs at h hs
  generalize s'.frames = fs' at h
  cases h with
  | goes hr _ => simpa only [countP_cons, hr] using hs
  | @calls f f' g fs _ _ hlt =>
    have := countP_le_length (p := fun f : Frame => decide (f.receiver = .script))
      (l := g :: f' :: fs)
    simp only [length_cons] at this hlt
    omega
  | leaves hr _ =>
    simp only [countP_cons, hr] at hs ⊢
    omega

/-- A machine that is suspended has the calls that it had, and maybe one of the library. -/
theorem Pauses.same (h : Pauses env m s w s' w') : s'.bottom? = s.bottom? ∧ s'.depth = s.depth := by
  unfold bottom? Machine.depth
  cases h with
  | @checkpoint f fs _ _ hframes _ _ _ =>
    rw [setTop_frames, hframes, tail_cons]
    cases fs <;> simp [countP_cons]
  | @asks f fs _ _ _ _ _ _ hframes _ _ _ _ _ =>
    rw [hframes]
    cases fs <;> simp [countP_cons, Frame.waiting]
  | @waits f fs _ _ hframes hr _ =>
    rw [hframes]
    cases fs <;> simp [countP_cons, Frame.waiting, hr]

end Machine

/-! ## Migration -/

/-- The instance without its values, and without who asks what of it. -/
def Instance.outline (i : Instance) : Instance :=
  { i with
    eventArgs := [], alwaysSuspend := false, requests := {}
    machine := { i.machine with globals := [], frames := i.machine.frames.map Frame.outline } }

theorem Instance.restore_outline (i : Instance) (h : s.outline = s'.outline) :
    (i.restore s).outline = (i.restore s').outline := by
  obtain ⟨state, event, memUsage, memLimit, eventArgs, globals, active⟩ := s
  obtain ⟨state', event', memUsage', memLimit', eventArgs', globals', active'⟩ := s'
  simp only [Snapshot.outline, Snapshot.mk.injEq] at h
  obtain ⟨rfl, rfl, rfl, rfl, -, -, hactive⟩ := h
  cases active with
  | none =>
    cases active' with
    | none => rfl
    | some a' => cases hactive
  | some a =>
    cases active' with
    | none => cases hactive
    | some a' =>
      simp only [map_some, some.injEq, Activity.outline, Activity.mk.injEq] at hactive
      obtain ⟨hpending, hphase, hframes⟩ := hactive
      simp only [Instance.restore, Instance.outline, hpending, hphase, hframes]

theorem Instance.snapshot_active (i : Instance) :
    i.snapshot.active.isSome ↔ i.snapshot.event ≠ .none := by
  show (if i.event = .none then none else some _).isSome = true ↔ i.event ≠ .none
  split <;> simp [*]

variable {R : Regime} {m : Module} {i j : Instance}

/-- An idle instance that is to take the place of another one is disposed of, or has its outline
afterwards. -/
theorem Regime.Rests.migrateIn_cases (hi : R.Rests m settings i) (hj : R.Stands m settings j)
    (hrest : j.isAtRest = true) (sink : Sink) :
    (∃ e, i.migrateIn (j.snapshot.send m sink).bytes = (.error e, i.dispose)) ∨
    ∃ s : Snapshot, s.Consistent m ∧
      j.snapshot.send m (.accepting 0) = ⟨0, (j.snapshot.send m sink).bytes, none⟩ ∧
      i.migrateIn (j.snapshot.send m sink).bytes = (.ok (i.restore s).status, i.restore s) ∧
      (i.restore s).outline = j.outline := by
  unfold Instance.migrateIn
  rw [if_pos hi.status, hi.module]
  cases hread : Snapshot.ofBytes m (j.snapshot.send m sink).bytes with
  | error e => exact .inl ⟨e, rfl⟩
  | ok s =>
    have hsent := Snapshot.whole_of_ofBytes j.snapshot_active hread 0
    have hwhole : Snapshot.ofBytes m (j.snapshot.send m (.accepting 0)).bytes = .ok s := by
      rw [hsent, hread]
    refine .inr ⟨s, (Snapshot.ofBytes_consistent hread).1, hsent, rfl, ?_⟩
    rw [i.restore_outline (Snapshot.outline_of_ofBytes j.snapshot_active (by rw [hsent]) hwhole),
      hi.restore_snapshot hj hrest]
    rfl

/-! ## Regime -/

/-- The active calls have their variables, and are no more than allowed. -/
def Module.stacking (m : Module) : Regime where
  Idle _ := True
  Active s := Machine.Shaped m s.frames ∧ s.depth ≤ s.maxCallDepth
  Stopped s := Frame.Stacked m s.frames ∧ s.depth ≤ s.maxCallDepth
  Target _ := True
  Given _ := True

namespace Instance

theorem depth_of_outline (h : i.outline = j.outline) : i.machine.depth = j.machine.depth := by
  have hframes := congrArg (·.machine.frames) h
  have hcount (fs : List Frame) : fs.countP (fun f => decide (f.receiver = .script)) =
      (fs.map Frame.outline).countP fun f => decide (f.receiver = .script) := by
    rw [countP_map]
    rfl
  unfold Machine.depth
  rw [hcount, show i.machine.frames.map _ = j.machine.frames.map _ from hframes, ← hcount]

theorem bottom?_of_outline (h : i.outline = j.outline) : i.machine.bottom? = j.machine.bottom? := by
  have hframes := congrArg (·.machine.frames) h
  have hlast (fs : List Frame) : fs.getLast?.map Frame.function =
      (fs.map Frame.outline).getLast?.map Frame.function := by
    rw [getLast?_map, Option.map_map]
    rfl
  unfold Machine.bottom?
  rw [hlast, show i.machine.frames.map _ = j.machine.frames.map _ from hframes, ← hlast]

end Instance

theorem Regime.Serves.of_outline (hj : R.Serves m settings j)
    (h : k.outline = j.outline) : R.Serves m settings k where
  module := (congrArg Instance.module h).trans hj.module
  memLimit := (congrArg (·.machine.memLimit) h).trans hj.memLimit
  maxCallDepth := (congrArg (·.machine.maxCallDepth) h).trans hj.maxCallDepth
  state := by
    obtain ⟨n, hn, ht⟩ := hj.state
    exact ⟨n, (congrArg Instance.state h).trans hn, ht⟩
  phase t ht := hj.phase t ((congrArg Instance.phase h).symm.trans ht)

/-- An instance that has taken the place of another one is in a regime that has nothing to say about
instances at rest, if its machine has only been suspended in it. -/
theorem Regime.Stands.restored (hj : R.Stands m settings j) (hrest : j.isAtRest = true)
    (hc : s.Consistent m) (h : (i.restore s).outline = j.outline) (hgiven : ∀ args, R.Given args)
    (hidle : ∀ machine, R.Idle machine) (hstopped : Frame.Stacked m (i.restore s).machine.frames →
      (i.restore s).machine.maxCallDepth = j.machine.maxCallDepth → R.Stopped j.machine →
      R.Stopped (i.restore s).machine) : R.Stands m settings (i.restore s) := by
  have hstatus := (congrArg Instance.status h :)
  have hevent := (congrArg Instance.event h :)
  obtain hj | hj | hj := hj
  · have hidle' : (i.restore s).status = .idle := hstatus.trans hj.status
    have hserves := hj.toServes.of_outline h
    have hactive : s.active = none := by
      cases hs : s.active with
      | none => rfl
      | some a => simp [Instance.restore, hs] at hidle'
    refine .inl ⟨hserves, hidle', hevent.trans hj.event, ?_, ?_, ?_, ?_, hidle _⟩
    all_goals simp only [Instance.restore, hactive]; rfl
  · have hsuspended : (i.restore s).status = .suspended := hstatus.trans hj.status
    have hserves := hj.toServes.of_outline h
    cases hs : s.active with
    | none => simp [Instance.restore, hs, Instance.finish] at hsuspended
    | some a =>
      have ha := hc.activity a hs
      have hframes : (i.restore s).machine.frames = a.frames := by simp only [Instance.restore, hs]
      refine .inr (.inl ⟨hserves, hsuspended, hevent ▸ hj.event, hgiven _, ?_,
        hstopped ?_ ?_ hj.machine⟩)
      · rw [hframes]; exact ha.nonempty
      · rw [hframes]; exact ha.stacked
      · rw [hserves.maxCallDepth, hj.maxCallDepth]
  · rw [Instance.isAtRest, hj] at hrest
    cases hrest

theorem Module.stacking_restored (hj : m.stacking.Stands m settings j) (hrest : j.isAtRest = true)
    (hc : s.Consistent m) (h : (i.restore s).outline = j.outline) :
    m.stacking.Stands m settings (i.restore s) := by
  refine hj.restored hrest hc h (fun _ => trivial) (fun _ => trivial)
    fun hstacked hdepth hstopped => ⟨hstacked, ?_⟩
  rw [Instance.depth_of_outline h, hdepth]
  exact hstopped.2

namespace Module.Coded

/-- Nothing that is done with an instance leaves the regime, whatever the environment. -/
theorem stacking_kept (hcoded : m.Coded script tests) (settings : Settings) :
    m.stacking.Kept m settings fun _ => True where
  zero := trivial
  nil := trivial
  handler hf := by
    obtain ⟨he, -, g, hg, -⟩ := hcoded.handler hf
    exact ⟨he, g, hg⟩
  boot h := ⟨hcoded.boot_pending h, trivial⟩
  enter {s s' _ _ _ _} _ hframes _ _ _ _ he := by
    refine ⟨enter_shaped (by rw [hframes]; nofun) he, ?_⟩
    obtain ⟨g, -, hdepth, rfl⟩ := enter_ok he
    simp only [Machine.depth, hframes] at hdepth ⊢
    exact hdepth
  next {σ env s s' w w'} _ hs hstep := by
    refine ⟨step_shaped hs.1 hstep, ?_⟩
    rw [(step_limits hstep).2]
    exact (step_shifts hstep).depth hs.2
  suspend {σ env s s' w w'} hs hstep := by
    refine ⟨step_stacked hs.1 hstep, ?_⟩
    rw [(step_pauses hstep).same.2, (step_halt_limits hstep).2]
    exact hs.2
  resume hs := ⟨shaped_of_stacked hs.1, hs.2⟩
  halt _ _ _ := trivial
  target _ _ _ := trivial
  hop {i j sink} hi hj hrest _ := by
    obtain ⟨e, h⟩ | ⟨s, hc, -, h, houtline⟩ := hi.migrateIn_cases hj hrest sink
    · rw [h]
      exact .inr (.inr rfl)
    · rw [h]
      exact Module.stacking_restored hj hrest hc houtline

end Module.Coded

/-! ## Handlers -/

namespace Instance

/-- The outermost call is the one of the handler of the current state and event, and states are
left and entered by their own handlers. -/
structure Placed (i : Instance) : Prop where
  bottom : i.machine.bottom? = i.handlerOf? i.event
  exiting : ∀ n, i.phase = .exiting n → i.event = .stateExit
  entering : i.phase = .entering → i.event = .stateEntry

def InOrder (i : Instance) : Prop :=
  i.status ≠ .disposed ∧ i.Placed ∨
    i.status = .disposed ∧ i.event = .garbage ∧ i.machine.frames = []

theorem InOrder.withRequests (h : i.InOrder) (q : Requests) : InOrder { i with requests := q } := by
  obtain ⟨hs, hp⟩ | ⟨hs, he, hf⟩ := h
  · exact .inl ⟨hs, hp.bottom, hp.exiting, hp.entering⟩
  · exact .inr ⟨hs, he, hf⟩

theorem InOrder.placed (h : i.InOrder) (hs : i.status ≠ .disposed) : i.Placed := by
  obtain ⟨-, hp⟩ | ⟨hd, -⟩ := h
  · exact hp
  · exact absurd hd hs

theorem Placed.of_outline (hj : j.Placed) (h : i.outline = j.outline) : i.Placed := by
  have hmodule : i.module = j.module := (congrArg Instance.module h :)
  have hstate : i.state = j.state := (congrArg Instance.state h :)
  have hevent : i.event = j.event := (congrArg Instance.event h :)
  have hphase : i.phase = j.phase := (congrArg Instance.phase h :)
  refine ⟨?_, ?_, ?_⟩
  · rw [bottom?_of_outline h, hj.bottom]
    unfold handlerOf? stateIndex?
    rw [hmodule, hstate, hevent]
  · rw [hphase, hevent]
    exact hj.exiting
  · rw [hphase, hevent]
    exact hj.entering

theorem placed_entering {event : Event} {machine : Machine}
    (hframes : i.machine.frames = []) (hf : i.handlerOf? event = some f)
    (he : i.machine.enter i.module f args = .ok machine)
    (hexiting : ∀ n, i.phase = .exiting n → event = .stateExit)
    (hentering : i.phase = .entering → event = .stateEntry) :
    (i.entering event args machine).Placed := by
  refine ⟨?_, hexiting, hentering⟩
  obtain ⟨g, -, -, rfl⟩ := enter_ok he
  show ((_ :: i.machine.frames).getLast?.map Frame.function) = i.handlerOf? event
  rw [hframes, hf]
  rfl

/-- Whatever the code does, and whatever handler follows, the instance stays placed. -/
theorem Placed.turn (hp : i.Placed) (h : Turns env i w i' w') : i'.Placed := by
  cases h with
  | @runs s ws hs =>
    refine ⟨?_, hp.exiting, hp.entering⟩
    show s.bottom? = i.handlerOf? i.event
    rw [← hp.bottom]
    exact (step_shifts hs).bottom
  | @follows _ why s ws fuel hs hreact =>
    have hleaves := step_leaves hs
    cases why with
    | completed v =>
      have hadvance := advance_advances (i.ran s ws.requests)
      have hconclude := some.inj hreact
      generalize advance _ = a at hadvance hconclude
      cases hadvance with
      | rests _ | refuses _ _ _ | nests _ => cases hconclude
      | @calls state phase event f machine hm he hf hx =>
        cases hconclude
        refine placed_entering ?_ hf hx ?_ ?_
        · exact hleaves
        · rintro n (hn : phase = .exiting n)
          obtain ⟨he, -⟩ | ⟨-, he⟩ := he
          · exact he
          · rw [he] at hn; cases hn
        · rintro (hn : phase = .entering)
          obtain ⟨-, he⟩ | ⟨he, -⟩ := he
          · exact absurd hn he
          · exact he
    | suspended | fault f => cases hreact
    | signal x =>
      cases x with
      | reset =>
        obtain ⟨a, ha, hconclude⟩ := map_eq_some_iff.1 hreact
        cases reset_resets ha with
        | fails _ | rests _ | refuses _ _ _ => cases hconclude
        | @calls s' machine _ f hb hf hx =>
          cases hconclude
          exact placed_entering (i := rebooted _ s') (boot_leaves hb) hf hx nofun nofun
      | terminate => cases hreact

/-! ### The end of a handler -/

theorem status_settled (i : Instance) : i.settled.2.status = i.status := by
  obtain ⟨q, hq⟩ := settled_eq i
  rw [hq]

theorem status_failed : (i.failed f).2.status = .idle := by
  obtain ⟨q, hq⟩ := failed_eq i f
  rw [hq]
  rfl

theorem conclude_advances_idle (ha : Advances i a) :
    (conclude a).Meets (fun _ => True) (·.2.status = .idle) := by
  cases ha with
  | rests _ => exact status_settled _
  | calls _ _ _ _ => trivial
  | refuses _ _ _ | nests _ => exact status_failed

theorem conclude_resets_idle (ha : Resets i fuel a) :
    (conclude a).Meets (fun _ => True) (·.2.status = .idle) := by
  cases ha with
  | fails _ | refuses _ _ _ => exact status_failed
  | rests _ => exact status_settled _
  | calls _ _ _ => trivial

end Instance

namespace Regime

variable {Allowed : Instance.Allows}

namespace Kept

variable (hR : R.Kept m settings Allowed) {σ : Type}

include hR

theorem placed_rests (hi : R.Rests m settings i) : i.Placed := by
  refine ⟨?_, ?_, ?_⟩
  · have hnone : i.handlerOf? .none = none := by
      cases hf : i.handlerOf? .none with
      | none => rfl
      | some f =>
        obtain ⟨-, -, -, hevent, -⟩ := hR.handlerOf hf hi.module
        exact absurd hevent (by decide)
    rw [hi.event, hnone]
    unfold Machine.bottom?
    rw [hi.frames]
    rfl
  · rw [hi.settled]; nofun
  · rw [hi.settled]; nofun

theorem inOrder_of_idle (hi : R.Stands m settings i) (hidle : i.status = .idle) : i.InOrder := by
  obtain hi | hi | hi := hi
  · exact .inl ⟨by rw [hidle]; decide, hR.placed_rests hi⟩
  · exact absurd (hidle.symm.trans hi.status) (by decide)
  · exact absurd (hidle.symm.trans hi) (by decide)

variable (hboot : m.Boots settings)

include hboot

theorem placed_passes (henv : Allowed env) (hi : R.Works m settings i) (hp : i.Placed)
    (h : Instance.Passes env i w i' w') : i'.Placed := by
  induction h with
  | refl => exact hp
  | next ht _ ih => exact ih (hR.works_turn hboot henv hi ht) (hp.turn ht)

theorem inOrder_execute (henv : Allowed env) (hi : R.Works m settings i) (hp : i.Placed)
    (h : Instance.executeIn env fuel i w = some (r, w')) : r.2.InOrder := by
  have hstands := hR.stands_execute hboot henv hi h
  obtain ⟨j, v, why, s, q, fuel', hpasses, hs, hreact⟩ := Instance.executeIn_passes h
  have hj := hR.works_passes hboot henv hi hpasses
  have hplaced := hR.placed_passes hboot henv hi hp hpasses
  have hidle {p : Instance.Progress} (hp : p.Meets (fun _ => True) (·.2.status = .idle))
      (hdone : p = .done r) : r.2.InOrder := by
    subst hdone
    exact hR.inOrder_of_idle hstands hp
  cases why with
  | completed v =>
    exact hidle (Instance.conclude_advances_idle (Instance.advance_advances _)) (some.inj hreact)
  | suspended =>
    cases hreact
    obtain ⟨q', hq'⟩ := Instance.settled_eq ({ j with
      machine := s, status := .suspended, requests := { q with suspend := false } } : Instance)
    show (Instance.settled _).2.InOrder
    rw [hq']
    refine .inl ⟨nofun, ?_, hplaced.exiting, hplaced.entering⟩
    rw [(step_pauses hs).same.1]
    exact hplaced.bottom
  | fault f =>
    cases hreact
    exact hR.inOrder_of_idle hstands Instance.status_failed
  | signal x =>
    cases x with
    | reset =>
      obtain ⟨a, ha, hdone⟩ := map_eq_some_iff.1 hreact
      exact hidle (Instance.conclude_resets_idle (Instance.reset_resets ha)) hdone
    | terminate =>
      cases hreact
      exact .inr ⟨rfl, rfl, rfl⟩

theorem inOrder_start (henv : Allowed env)
    (hi : R.Stands m settings i) (hp : i.InOrder) (hargs : R.Given args)
    (h : i.startIn env fuel event args w = some (r, w')) : r.2.InOrder := by
  have hstands := hR.stands_start hboot henv hi hargs h
  have hs := Instance.startIn_starts env fuel i event args w
  rw [h] at hs
  generalize ho : some (r, w') = o at hs
  cases hs with
  | refuses _ => cases ho; exact hp
  | undelivered _ _ => cases ho; exact hp.withRequests _
  | unhandled hr _ =>
    cases ho
    exact hR.inOrder_of_idle hstands (Instance.refusal?_eq_none hr).1
  | uncalled hr _ hf hx => exact absurd hx (hR.start_ne_error hboot hi hr hf)
  | calls hr _ hf hx =>
    have hframes := (hi.rests (Instance.refusal?_eq_none hr).1).frames
    exact hR.inOrder_execute hboot henv (hR.works_start hi hargs hr hf hx)
      (Instance.placed_entering hframes hf hx nofun nofun) ho.symm

theorem inOrder_resume (henv : Allowed env) (hi : R.Stands m settings i) (hp : i.InOrder)
    (h : i.resumeIn env fuel w = some (r, w')) : r.2.InOrder := by
  unfold Instance.resumeIn at h
  split at h
  · rename_i hs
    have hplaced := hp.placed (by rw [hs]; decide)
    exact hR.inOrder_execute hboot henv (hR.works_resume hi hs)
      ⟨hplaced.bottom, hplaced.exiting, hplaced.entering⟩ h
  · cases h; exact hp

end Kept

theorem Kept.inOrder (hR : R.Kept m settings Allowed)
    (h : Instance.Reachable m settings Allowed R.Given i) : i.InOrder := by
  induction h with
  | new hn =>
    exact hR.inOrder_of_idle (hR.stands (.new hn)) (Instance.new_rests hn).2.1
  | start hi henv hargs h ih =>
    exact hR.inOrder_start hi.boots henv (hR.stands hi) ih hargs h
  | resume hi henv h ih => exact hR.inOrder_resume hi.boots henv (hR.stands hi) ih h
  | requestSuspend _ ih => exact ih.withRequests _
  | requestMigration sink _ ih =>
    obtain ⟨q, hq⟩ := Instance.requestMigration_snd _ sink
    rw [hq]
    exact ih.withRequests q
  | @migrateIn i j sink hi hj hrest _ ihi ihj =>
    by_cases hs : i.status = .idle
    · obtain ⟨e, h⟩ | ⟨s, -, -, h, houtline⟩ :=
        ((hR.stands hi).rests hs).migrateIn_cases (hR.stands hj) hrest sink
      · rw [h]
        exact .inr ⟨rfl, rfl, rfl⟩
      · rw [h]
        have hstatus : (i.restore s).status = j.status := (congrArg Instance.status houtline :)
        have hne : j.status ≠ .disposed := by
          intro hd
          rw [Instance.isAtRest, hd] at hrest
          cases hrest
        exact .inl ⟨by rw [hstatus]; exact hne, (ihj.placed hne).of_outline houtline⟩
    · unfold Instance.migrateIn
      rw [if_neg hs]
      exact ihi
  | dispose _ _ => exact .inr ⟨rfl, rfl, rfl⟩

end Regime

/-! ## Compiled modules -/

/-- What is so of an instance between two operations. -/
structure Instance.Orderly (m : Module) (settings : Settings) (i : Instance) : Prop where
  status : i.status = .idle ∨ i.status = .suspended ∨ i.status = .disposed
  idle_iff : i.status = .idle ↔ i.event = .none
  disposed_iff : i.status = .disposed ↔ i.event = .garbage
  idle : i.status = .idle → i.machine.frames = [] ∧ i.phase = .handler ∧
    i.machine.pending = none ∧ i.eventArgs = []
  /-- The outermost call is the one of the handler. -/
  bottom : i.status = .suspended → ∃ f, i.machine.frames.getLast? = some f ∧ f.receiver = .script ∧
    m.handler? i.state.toInt.toNat i.event = some f.function
  exiting : i.status = .suspended → ∀ n, i.phase = .exiting n → i.event = .stateExit
  entering : i.status = .suspended → i.phase = .entering → i.event = .stateEntry
  /-- Only the innermost call can be one of the library. -/
  callers : ∀ f ∈ i.machine.frames.tail, f.receiver = .script
  depth : i.machine.depth ≤ settings.maxCallDepth

namespace Instance

theorem handler?_of_handlerOf? {event : Event} (hi : i.module = m)
    (h : i.handlerOf? event = some f) : m.handler? i.state.toInt.toNat event = some f := by
  obtain ⟨n, hn, hf⟩ := bind_eq_some_iff.1 h
  unfold stateIndex? at hn
  split at hn
  · cases hn
  · cases hn
    rwa [hi] at hf

theorem orderly_of_idle (hi : m.stacking.Rests m settings i) : i.Orderly m settings where
  status := .inl hi.status
  idle_iff := iff_of_true hi.status hi.event
  disposed_iff := by rw [hi.status, hi.event]; decide
  idle _ := ⟨hi.frames, hi.settled, hi.pending, hi.eventArgs⟩
  bottom h := absurd (hi.status.symm.trans h) (by decide)
  exiting h := absurd (hi.status.symm.trans h) (by decide)
  entering h := absurd (hi.status.symm.trans h) (by decide)
  callers := by rw [hi.frames]; nofun
  depth := by rw [Machine.depth, hi.frames]; exact Nat.zero_le _

theorem orderly_of_suspended (hi : m.stacking.Waits m settings i) (hp : i.Placed) :
    i.Orderly m settings where
  status := .inr (.inl hi.status)
  idle_iff := by
    rw [hi.status]
    refine iff_of_false nofun fun h => ?_
    have := hi.event
    rw [h] at this
    exact absurd this (by decide)
  disposed_iff := by
    rw [hi.status]
    refine iff_of_false nofun fun h => ?_
    have := hi.event
    rw [h] at this
    exact absurd this (by decide)
  idle h := absurd (hi.status.symm.trans h) (by decide)
  bottom _ := by
    have hlast := getLast?_eq_some_getLast hi.frames
    have hfits := hi.machine.1 _ _ _ (dropLast_append_getLast hi.frames).symm
    refine ⟨_, hlast, ?_, ?_⟩
    · cases hr : (i.machine.frames.getLast hi.frames).receiver with
      | script => rfl
      | api =>
        unfold Frame.FitsAt at hfits
        rw [hr] at hfits
        exact absurd rfl hfits.2.2
    · refine handler?_of_handlerOf? hi.module ?_
      rw [← hp.bottom, Machine.bottom?, hlast]
      rfl
  exiting _ := hp.exiting
  entering _ := hp.entering
  callers f hf := by
    have hshaped := shaped_of_stacked hi.machine.1
    cases hframes : i.machine.frames with
    | nil => rw [hframes] at hf; cases hf
    | cons g fs =>
      rw [hframes] at hshaped hf
      exact (hshaped.2 f hf).1
  depth := by
    rw [← hi.maxCallDepth]
    exact hi.machine.2

theorem orderly_of_disposed (hs : i.status = .disposed) (he : i.event = .garbage)
    (hf : i.machine.frames = []) : i.Orderly m settings where
  status := .inr (.inr hs)
  idle_iff := by rw [hs, he]; decide
  disposed_iff := iff_of_true hs he
  idle h := absurd (hs.symm.trans h) (by decide)
  bottom h := absurd (hs.symm.trans h) (by decide)
  exiting h := absurd (hs.symm.trans h) (by decide)
  entering h := absurd (hs.symm.trans h) (by decide)
  callers := by rw [hf]; nofun
  depth := by rw [Machine.depth, hf]; exact Nat.zero_le _

end Instance

theorem Module.exists_coded {source name : String} (hm : Module.ofSource source name = .ok m) :
    ∃ script tests, m.Coded script tests := by
  cases hs : Script.ofSource source with
  | error e =>
    unfold Module.ofSource at hm
    rw [hs] at hm
    cases hm
  | ok script =>
    exact ⟨script, _, Module.ofSource_coded hs hm⟩

/-- An instance of a compiled module is orderly between any two operations, whatever the arguments of
events and the answers of the library are, and never are more calls active than are allowed. A
stream that a sink has not got the end of leads to no other instances. -/
theorem Instance.lifecycle_orderly {source name : String} {m : Module}
    (hm : Module.ofSource source name = .ok m) (settings : Settings) :
    (∀ i, Arises m settings i → i.Orderly m settings) ∧
    (∀ i, Running m settings (fun _ => True) (fun _ => True) i →
      i.machine.depth ≤ settings.maxCallDepth) ∧
    ∀ i j sink, Arises m settings i → Arises m settings j → j.isAtRest = true →
      Arises m settings (i.migrateIn (j.snapshot.send m sink).bytes).2 := by
  obtain ⟨script, tests, hcoded⟩ := Module.exists_coded hm
  have hR := hcoded.stacking_kept settings
  refine ⟨fun i hi => ?_, fun i hi => ?_, fun i j sink hi hj hrest => ?_⟩
  · have horder := hR.inOrder hi
    obtain h | h | h := hR.stands hi
    · exact orderly_of_idle h
    · exact orderly_of_suspended h (horder.placed (by rw [h.status]; decide))
    obtain ⟨hne, -⟩ | ⟨-, he, hf⟩ := horder
    · exact absurd h hne
    · exact orderly_of_disposed h he hf
  · have h := hR.works hi
    rw [← h.maxCallDepth]
    exact h.machine.2
  · by_cases hidle : i.status = .idle
    · obtain ⟨e, h⟩ | ⟨s, -, hsent, -, -⟩ :=
        ((hR.stands hi).rests hidle).migrateIn_cases (hR.stands hj) hrest sink
      · rw [h]
        exact .dispose hi
      · rw [← show (j.snapshot.send m (.accepting 0)).bytes = _ from congrArg _ hsent]
        exact .migrateIn hi hj hrest (congrArg _ hsent)
    · unfold migrateIn
      rw [if_neg hidle]
      exact hi

def sluggard : String :=
  "default \x7b touch_start(integer c) \x7b state away; \x7d
     state_exit() \x7b llSleep(1.0); \x7d \x7d
   state away \x7b state_entry() \x7b \x7d \x7d"

/-- The sluggard is suspended while it leaves its first state, and another instance takes its
place. -/
theorem sluggard_orderly :
    Script.Sample sluggard "sluggard" 100 fun _ m i =>
      ∃ i' k w',
      i.startIn (Host.recording.env false) 100 .touchStart [.integer 1] (Recorder.yielding {}) =
        some ((.ok .suspended, i'), w') ∧ i'.phase = .exiting 1 ∧ i'.Orderly m {} ∧
      i.migrateIn (i'.snapshot.send m (.accepting 1)).bytes = (.ok .suspended, k) ∧
      k.Orderly m {} := by
  refine .of_test (fun _ m i =>
      ∃ x ∈ i.startIn (Host.recording.env false) 100 .touchStart [.integer 1]
        (Recorder.yielding {}),
        x.1.1 = .ok .suspended ∧ x.1.2.status = .suspended ∧ x.1.2.phase = .exiting 1 ∧
        (i.migrateIn (x.1.2.snapshot.send m (.accepting 1)).bytes).1 = .ok .suspended) ?_
  rintro _ m i hs hm hmade ⟨⟨⟨_, i'⟩, w'⟩, hstart, rfl, hstatus, hphase, hmigrate⟩
  obtain ⟨horderly, -, hhop⟩ := Instance.lifecycle_orderly hm {}
  have hi' : Instance.Arises m {} i' :=
    .start (.new hmade) trivial trivial hstart
  have hk := hhop i i' (.accepting 1) (.new hmade) hi' (by rw [Instance.isAtRest, hstatus]; rfl)
  refine ⟨i', _, w', hstart, hphase, horderly i' hi', ?_, horderly _ hk⟩
  rw [← hmigrate]

end EventScript
