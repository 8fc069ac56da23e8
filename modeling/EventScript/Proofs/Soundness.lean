import EventScript.Proofs.Code.Typing
import EventScript.Proofs.Frames
import EventScript.Proofs.Parsing
import EventScript.Proofs.Streams.Sending
import EventScript.Proofs.Suspension
import EventScript.Proofs.Turns

/-!
# Instances of compiled modules

The machines of a compiled module conform to the assertions about types, their frames have the
right shape, and their values are proper (`Annotation.Upholds`). A library that gives values of the
declared types keeps all this (`Module.Coded.kept`): through events, suspensions, changes of state,
resets and migrations. Without the array extension no handler then faults because its code is wrong
(`Instance.handlers_safe`).
-/

namespace EventScript

open List Option Annotation

open Compile

/-! ## Libraries -/

/-- The environment answers every call of a library function with a value of its return type. -/
structure Env.Typed {ω : Type} (env : Env ω) : Prop where
  call : ∀ f ∈ ApiFunction.table, ∀ args w v w', f.ret ≠ .void →
    env.call f args w = (.ok v, w') → v.isOf f.ret = true
  resume : ∀ f ∈ ApiFunction.table, ∀ args w v w', f.ret ≠ .void →
    env.resume f args w = (.ok v, w') → v.isOf f.ret = true

theorem Value.proper_of_isOf {v : Value} {ty : Ty} (h : v.isOf ty = true) (hl : ty ≠ .list)
    (ha : ty ≠ .array) : v.Proper := by
  unfold Value.isOf at h
  rw [Bool.and_eq_true, beq_iff_eq] at h
  cases v with
  | list vs => exact absurd h.2.symm hl
  | array es => exact absurd h.2.symm ha
  | _ => exact trivial

theorem ApiFunction.ret_atomic : ∀ f ∈ ApiFunction.table, f.ret ≠ .list ∧ f.ret ≠ .array := by
    decide

namespace Env.Typed

variable {ω : Type} {env : Env ω}

theorem answers (h : env.Typed) (m : Module) (functions : List (List Ty × Ty)) (states : Nat) :
    env.Answers (m.typing functions states) :=
  ⟨fun f hf args w v w' hne he => .inr (h.call f hf args w v w' hne he),
    fun f hf args w v w' hne he => .inr (h.resume f hf args w v w' hne he)⟩

theorem step_proper (h : env.Typed) {s : Machine} (hs : s.Proper)
    (hstep : s.step env m w = .next s' w') : s'.Proper := by
  refine Machine.step_proper (fun f hf args w v w' hne he => ?_) (fun f hf args w v w' hne he => ?_)
    hs hstep
  · obtain ⟨hl, ha⟩ := ApiFunction.ret_atomic f hf
    exact Value.proper_of_isOf (h.call f hf args w v w' hne he) hl ha
  · obtain ⟨hl, ha⟩ := ApiFunction.ret_atomic f hf
    exact Value.proper_of_isOf (h.resume f hf args w v w' hne he) hl ha

theorem reaches_proper (h : env.Typed) {s : Machine} (hs : s.Proper)
    (hreach : Machine.Reaches env m s w s' w') : s'.Proper := by
  induction hreach with
  | refl => exact hs
  | next hstep _ ih => exact ih (h.step_proper hs hstep)

end Env.Typed

/-- A function that only computes gives a value of its return type. -/
theorem ApiFunction.isOf_of_pure (hf : f ∈ table)
    (h : pure? f.name args = some v) : v.isOf f.ret = true := by
  unfold pure? at h
  split at h
  case h_23 => cases h
  all_goals
    cases h
    simp only [rounded, Value.isOf, Value.isUndefined, Value.ty, Bool.not_false, Bool.true_and]
    clear args
    revert f
    decide

/-- The host answers every call of a library function with a value of its return type. -/
structure Host.Typed {σ : Type} (h : Host σ) : Prop where
  call : ∀ f ∈ ApiFunction.table, ∀ args w v, f.ret ≠ .void →
    (h.call f args w).answer = .ok v → v.isOf f.ret = true
  resume : ∀ f ∈ ApiFunction.table, ∀ args w v, f.ret ≠ .void →
    (h.resume f args w).answer = .ok v → v.isOf f.ret = true

namespace Host

variable {σ : Type} {h : Host σ}

theorem Typed.env (hh : h.Typed) (alwaysSuspend : Bool) : (h.env alwaysSuspend).Typed :=
  ⟨fun f hf args w v _ hne he => hh.call f hf args w.host v hne (Prod.mk.inj he).1,
    fun f hf args w v _ hne he => hh.resume f hf args w.host v hne (Prod.mk.inj he).1⟩

theorem Typed.bareEnv (hh : h.Typed) : h.bareEnv.unpolled.Typed :=
  ⟨fun f hf args w v _ hne he => hh.call f hf args w v hne (Prod.mk.inj he).1,
    fun f hf args w v _ hne he => hh.resume f hf args w v hne (Prod.mk.inj he).1⟩

theorem null_typed : Host.null.Typed := by
  have hcall : ∀ f ∈ ApiFunction.table, ∀ args w v, f.ret ≠ .void →
      (Host.null.call f args w).answer = .ok v → v.isOf f.ret = true := by
    intro f hf args w v _ h
    simp only [Host.null] at h
    split at h
    · rename_i hu
      cases h
      exact ApiFunction.isOf_of_pure hf hu
    · cases h
  exact ⟨hcall, hcall⟩

end Host

namespace Recorder

theorem isOf_of_answer (hf : f ∈ ApiFunction.table) (hne : f.ret ≠ .void)
    (h : (answer f args r).1 = .ok v) : v.isOf f.ret = true := by
  have hdefault : (Value.default f.ret).isOf f.ret = true := by
    clear h
    revert f
    decide
  unfold answer at h
  split at h
  case h_1 => cases h
  case h_2 => cases h
  case h_3 =>
    split at h
    · cases h
    · cases h; exact hdefault
  case h_11 hname =>
    dsimp only at h
    split at h
    · cases h
    cases h
    revert f
    decide
  case h_12 => cases h; exact hdefault
  all_goals
    cases h
    simp only [Value.isOf, Value.isUndefined, Value.ty, Bool.not_false, Bool.true_and]
    clear args hdefault
    revert f
    decide

theorem isOf_of_call (hf : f ∈ ApiFunction.table) (hne : f.ret ≠ .void)
    (h : (call f args r).answer = .ok v) : v.isOf f.ret = true := by
  unfold call at h
  split at h
  · rename_i hu
    cases h
    exact ApiFunction.isOf_of_pure hf hu
  · exact isOf_of_answer hf hne h

end Recorder

theorem Host.recording_typed : Host.recording.Typed where
  call f hf args w v hne h := Recorder.isOf_of_call hf hne h
  resume f hf args w v hne h := by
    change (Recorder.resume f args w).answer = .ok v at h
    unfold Recorder.resume at h
    split at h
    · rename_i hname
      exact absurd (Recorder.ret_of_sleep f hf hname) hne
    · exact Recorder.isOf_of_call hf hne h

/-! ## Events -/

theorem Event.mem_handled_of_column? (h : event.column? = some n) : event ∈ Event.handled := by
  cases event <;> first | decide | cases h

theorem Instance.admits_of_argsError? {event : Event} (h : argsError? event args = none) :
    Ty.AdmitAll event.signature args := by
  unfold argsError? at h
  dsimp only at h
  split at h
  · cases h
  rename_i hlen
  rw [not_not] at hlen
  refine forall₂_iff_get.2 ⟨hlen.symm, fun i h1 h2 => .inr ?_⟩
  rw [findSome?_eq_none_iff] at h
  have hmem : (((args.get ⟨i, h2⟩), event.signature.get ⟨i, h1⟩), i) ∈
      (args.zip event.signature).zipIdx := by
    rw [mem_zipIdx_iff_getElem?, getElem?_zip_eq_some]
    exact ⟨getElem?_eq_getElem h2, getElem?_eq_getElem h1⟩
  have := h _ hmem
  split at this
  · assumption
  · cases this

namespace Module.Coded

variable {m : Module}

theorem handler (h : m.Coded script tests)
    (hf : m.handler? n event = some f) : event ∈ Event.handled ∧ f.toNat < m.init.toNat ∧
      ∃ g, m.function? f = some g ∧ g.params = event.signature := by
  obtain ⟨column, hcolumn, hf⟩ := bind_eq_some_iff.1 hf
  obtain ⟨row, hrow, hf⟩ := bind_eq_some_iff.1 hf
  obtain ⟨cell, hcell, rfl⟩ := bind_eq_some_iff.1 hf
  obtain ⟨e, g, he, hg, hparams, -⟩ := (h.handlers row (mem_of_getElem? hrow)).1 column f hcell
  obtain rfl := column?_injective hcolumn he
  obtain ⟨hlt, hg⟩ := Module.function?_of_take hg
  exact ⟨Event.mem_handled_of_column? hcolumn, hlt, g, hg, hparams⟩

end Module.Coded

/-! ## The initializer -/

namespace Module.Coded

variable {m : Module}

theorem globals_ne_void (hcoded : m.Coded script tests)
    (hreg : script.Regular is) : ∀ g ∈ m.globals, g.ty ≠ .void := by
  intro g hg
  have hmem : g.ty ∈ script.globals.map VarDecl.ty := by
    rw [← hcoded.globals]
    exact mem_map_of_mem hg
  obtain ⟨d, hd, heq⟩ := mem_map.1 hmem
  rw [← heq]
  exact (hreg.globals d hd).1.1

theorem admits_defaults (hglobals : ∀ g ∈ m.globals, g.ty ≠ .void) :
    m.Admits (Machine.defaults m) := by
  unfold Machine.defaults Module.Admits Ty.AdmitAll
  rw [forall₂_map_left_iff, forall₂_map_right_iff, forall₂_same]
  exact fun g hg => .default (hglobals g hg)

theorem defaults_proper : AllProper (Machine.defaults m) := by
  intro v hv
  obtain ⟨g, -, rfl⟩ := mem_map.1 hv
  exact Value.proper_default g.ty

theorem boot_typed (hcoded : m.Coded script false) (hglobals : ∀ g ∈ m.globals, g.ty ≠ .void)
    {s : Machine} (h : s.boot Host.null.bareEnv m fuel () = some (.ok (), s', ())) : s'.pending =
    none ∧
      m.Admits s'.globals ∧ AllProper s'.globals := by
  obtain ⟨Inv, g, hP, hg, hstart⟩ := hcoded.initTyping
  obtain ⟨s0, s1, w1, v, he, hreach, hstep⟩ := Machine.boot_reaches h
  have hproper : s0.Proper :=
    Machine.enter_proper ⟨defaults_proper, fun f hf => absurd hf not_mem_nil⟩
      (by simp [AllProper]) he
  obtain ⟨g', hg', -, rfl⟩ := Machine.enter_ok he
  have hconforms : Annotation.Conforms
      ⟨m.typing [] 0, fun _ _ _ _ => True, false, Inv, fun _ _ _ => True⟩ m
      (Machine.defaults m) [⟨.script, m.init, 0, Machine.fillLocals g'.localCount.toNat [], []⟩]
      [0] :=
    .running rfl hg' (hstart _ _ _ (admits_defaults hglobals)) .nil
  have henv := Host.null_typed.bareEnv.answers m [] 0
  obtain ⟨κs, hc⟩ := reaches_conforms hP henv hreach ⟨_, hconforms⟩
  have hpending := reaches_pending hP henv rfl hreach ⟨_, hconforms⟩ rfl
  rw [Machine.step_halt_keeps hstep]
  exact ⟨hpending, hc.shared hP, (Host.null_typed.bareEnv.reaches_proper hproper hreach).globals⟩

end Module.Coded

/-! ## Machines -/

/-- The machine conforms to the assertions, its frames have the right shape, its values are proper,
and it asks only for states that there are. -/
structure Annotation.Upholds (P : Annotation) (m : Module) (s : Machine) : Prop where
  conforms : ∃ κs, P.Conforms m s.globals s.frames κs
  shaped : Machine.Shaped m s.frames
  proper : s.Proper
  pending : ∀ t ∈ s.pending, t.toNat < m.states.length

/-- What is so of the machines of a compiled module. -/
def Annotation.regime (P : Annotation) (m : Module) : Regime where
  Idle s := P.terms.Shared s.globals ∧ AllProper s.globals
  Active := P.Upholds m
  Stopped s := P.Upholds m s ∧ Frame.Stacked m s.frames
  Target t := t.toNat < m.states.length
  Given := AllProper

section

variable {m : Module} {Inv : UInt16 → Nat → Local → Prop}

theorem Module.types_enter (hstarts : ∀ i g, m.function? i = some g → i.toNat < m.init.toNat →
      (m.types Y Inv).Starts i g) {s : Machine} (hg : m.function? i = some g)
      (hi : i.toNat < m.init.toNat) (hargs : Ty.AdmitAll g.params args)
    (hglobals : m.Admits s.globals)
    (hframes : s.frames = []) (h : s.enter m i args = .ok s') :
    ∃ κs, (m.types Y Inv).Conforms m s'.globals s'.frames κs := by
  obtain ⟨g', hg', -, rfl⟩ := Machine.enter_ok h
  rw [hg] at hg'
  cases hg'
  have hx := hstarts i g hg hi args s.globals hargs hglobals
  rw [← Int.add_zero (globalsCost _ _)] at hx
  refine ⟨[0], ?_⟩
  rw [hframes]
  exact .running rfl hg hx .nil

theorem Annotation.consistent (hP : (m.types Y Inv).Valid m)
    (hi : ((m.types Y Inv).regime m).Stands m settings i) (hrest : i.isAtRest = true) :
    i.snapshot.Consistent m := by
  have hglobals (h : m.Admits i.machine.globals) :
      m.globals.Forall₂ (fun g v => g.ty = .object ∨ v.ty = g.ty) i.machine.globals := by
    refine (forall₂_map_left_iff.1 h).imp fun g v hv => ?_
    by_cases hobject : g.ty = .object
    · exact .inl hobject
    · exact .inr (hv.ty_eq hobject)
  obtain hi | hi | hi := hi
  · have hactive : i.snapshot.active = none := by
      simp only [Instance.snapshot, hi.event, if_pos]
    refine ⟨hi.state, .inl hi.event, ?_, hglobals hi.machine.1, ?_, ?_⟩
    · rw [hactive, show i.snapshot.event = .none from hi.event]
      simp
    · rw [hactive]; nofun
    · intro v hv
      simp only [Snapshot.values, hactive, map_none, getD_none, flatMap_nil, append_nil] at hv
      rw [show i.snapshot.eventArgs = [] from hi.eventArgs, nil_append] at hv
      exact hi.machine.2 v hv
  · have hevent : i.event ≠ .none := by
      intro h
      have := hi.event
      rw [h] at this
      revert this
      decide
    have hactive : i.snapshot.active = some ⟨i.machine.pending, i.phase, i.machine.frames⟩ := by
      simp only [Instance.snapshot, if_neg hevent]
    obtain ⟨hupholds, hstacked⟩ := hi.machine
    obtain ⟨κs, hconforms⟩ := hupholds.conforms
    refine ⟨hi.state, .inr hi.event, ?_, hglobals (hconforms.shared hP), ?_, ?_⟩
    · rw [hactive]
      exact ⟨fun _ => hevent, fun _ => rfl⟩
    · rw [hactive]
      rintro a ⟨⟩
      exact ⟨hupholds.pending, hi.phase, hi.frames, hstacked⟩
    · intro v hv
      simp only [Snapshot.values, hactive, map_some, getD_some, mem_append, mem_flatMap] at hv
      rcases hv with (hv | hv) | ⟨f, hf, hv | hv⟩
      · exact hi.eventArgs v hv
      · exact hupholds.proper.globals v hv
      · exact (hupholds.proper.frames f hf).locals v hv
      · exact (hupholds.proper.frames f hf).operands v hv
  · unfold Instance.isAtRest at hrest
    rw [hi] at hrest
    cases hrest

end

/-! ## Migration -/

namespace Regime

variable {R : Regime}

/-- An idle instance takes the place of another one, of which it then has everything but the
requests. -/
theorem Rests.restore_snapshot (hi : R.Rests m settings i) (hj : R.Stands m settings j)
    (hrest : j.isAtRest = true) : i.restore j.snapshot =
      { j with alwaysSuspend := i.alwaysSuspend, requests := i.requests } := by
  have hmodule := hi.module
  have hdepth := hi.maxCallDepth
  obtain ⟨im, ⟨ig, ifs, iu, il, ip, id⟩, is, ie, ia, ist, iph, ial, irq⟩ := i
  obtain ⟨jm, ⟨jg, jfs, ju, jl, jp, jd⟩, js, je, ja, jst, jph, jal, jrq⟩ := j
  obtain hj | hj | hj := hj
  · obtain ⟨⟨h1, h2, h3, -, -⟩, h4, h5, h6, h7, h8, h9, -⟩ := hj
    dsimp only at h1 h2 h3 h4 h5 h6 h7 h8 h9
    subst h1 h4 h5 h6 h7 h8 h9 hmodule hdepth
    rw [h3]
    rfl
  · obtain ⟨⟨h1, h2, h3, -, -⟩, h4, h5, -, -, -⟩ := hj
    dsimp only at h1 h2 h3 h4 h5
    have hevent : je ≠ .none := by
      rintro rfl
      revert h5
      decide
    subst h1 h4 hmodule hdepth
    rw [h3]
    simp only [Instance.restore, Instance.snapshot, if_neg hevent]
  · unfold Instance.isAtRest at hrest
    rw [hj] at hrest
    cases hrest

end Regime

section

variable {m : Module} {Inv : UInt16 → Nat → Local → Prop}

/-- An idle instance that reads what another one has written completely is that one, but for the
requests. -/
theorem Instance.migrateIn_send (hversion : m.version = 1) (hP : (m.types Y Inv).Valid m)
    (hi : ((m.types Y Inv).regime m).Rests m settings i)
    (hj : ((m.types Y Inv).regime m).Stands m settings j) (hrest : j.isAtRest = true)
    (herror : (j.snapshot.send m sink).error = none) :
    (i.migrateIn (j.snapshot.send m sink).bytes).2 =
      { j with alwaysSuspend := i.alwaysSuspend, requests := i.requests } := by
  have hconsistent := Annotation.consistent hP hj hrest
  have hbytes := Snapshot.ofBytes_send hversion hconsistent herror
  unfold migrateIn
  rw [if_pos hi.status, hi.module, hbytes]
  exact hi.restore_snapshot hj hrest

/-- Whatever is done with an instance of a compiled module, its machine upholds the assertions about
types. -/
theorem Module.Coded.kept {is : Expr → Prop} (hcoded : m.Coded script false)
    (hreg : script.Regular is) (hversion : m.version = 1) (hP : (m.types Y Inv).Valid m)
    (hstarts : ∀ i g, m.function? i = some g → i.toNat < m.init.toNat →
      (m.types Y Inv).Starts i g) (settings : Settings) :
    ((m.types Y Inv).regime m).Kept m settings Env.Typed where
  zero := by
    show (0 : UInt16).toNat < m.states.length
    rw [hcoded.states]
    exact length_pos_iff.2 hreg.states
  nil := nofun
  handler hf := by
    obtain ⟨he, -, g, hg, -⟩ := hcoded.handler hf
    exact ⟨he, g, hg⟩
  boot h := hcoded.boot_typed (hcoded.globals_ne_void hreg) h
  enter {s s' n event f args} hs hframes hpending hf hargs hgiven he := by
    obtain ⟨-, hlt, g, hg, hparams⟩ := hcoded.handler hf
    have hadmits := Instance.admits_of_argsError? hargs
    rw [← hparams] at hadmits
    refine ⟨Module.types_enter hstarts hg hlt hadmits hs.1 hframes he, ?_, ?_, ?_⟩
    · exact Machine.enter_shaped (by rw [hframes]; nofun) he
    · exact Machine.enter_proper ⟨hs.2, by rw [hframes]; nofun⟩ hgiven he
    obtain ⟨g', -, -, rfl⟩ := Machine.enter_ok he
    rw [show _ = none from hpending]
    nofun
  next {σ env s s' w w'} henv hs hstep := by
    obtain ⟨κs, hc⟩ := hs.conforms
    obtain ⟨κs', hc', -⟩ := step_continues hP (henv.answers m _ _) hc hstep
    refine ⟨⟨κs', hc'⟩, Machine.step_shaped hs.shaped hstep, henv.step_proper hs.proper hstep, ?_⟩
    rcases Annotation.step_pending hP hc hstep with heq | ⟨t, heq, hlt⟩
    · rw [heq]; exact hs.pending
    rw [heq]
    rintro t' ⟨⟩
    exact hlt
  suspend {σ env s s' w w'} hs hstep := by
    obtain ⟨κs, hc⟩ := hs.conforms
    have hpauses := Machine.step_pauses hstep
    obtain ⟨κs', hc', -⟩ := pauses_continues hP hc hpauses
    have hstacked := Machine.step_stacked hs.shaped hstep
    refine ⟨⟨⟨κs', hc'⟩, Machine.shaped_of_stacked hstacked, Machine.pauses_proper hs.proper hpauses,
      ?_⟩, hstacked⟩
    rw [Machine.step_halt_keeps hstep]
    exact hs.pending
  resume hs := hs.1
  halt {σ env s s' w w' why} hs hstep n := by
    obtain ⟨κs, hc⟩ := hs.conforms
    rw [Machine.step_halt_keeps hstep]
    exact ⟨hc.shared hP, hs.proper.globals⟩
  target hs := hs.pending
  hop {i j sink} hi hj hrest herror := by
    rw [Instance.migrateIn_send hversion hP hi hj hrest herror]
    obtain hj | hj | hj := hj
    · exact .inl ⟨⟨hj.module, hj.memLimit, hj.maxCallDepth, hj.state, hj.phase⟩, hj.status, hj.event,
        hj.eventArgs, hj.settled, hj.frames, hj.pending, hj.machine⟩
    · exact .inr (.inl ⟨⟨hj.module, hj.memLimit, hj.maxCallDepth, hj.state, hj.phase⟩, hj.status,
        hj.event, hj.eventArgs, hj.frames, hj.machine⟩)
    · exact .inr (.inr hj)

end

/-! ## Variables -/

namespace Compile

/-- The variables are there and hold values of their types. -/
def Filled (vars : List LocalVar) (locals : List Value) : Prop :=
  ∀ v ∈ vars, ∃ a, locals[v.slot.toNat]? = some a ∧ v.ty.Admits a

theorem Held.filled (h : Held vars locals)
    (hslots : ∀ v ∈ vars, v.slot.toNat < locals.length) : Filled vars locals := fun v hv =>
  ⟨_, getElem?_eq_getElem (hslots v hv), h v hv _ (getElem?_eq_getElem (hslots v hv))⟩

theorem Structured.slots_lt
    (h : Structured Γ Λ χ fresh pc code fresh' o l) (hχ : ∀ v ∈ χ.vars, v.slot.toNat < Γ.slots) :
    ∀ e ∈ o, ∀ v ∈ e.chain.vars, v.slot.toNat < Γ.slots := by
  induction h with
  | nil | straight | declare | declareDefault | label | jump | ret | state => exact nofun
  | append _ _ ih1 ih2 =>
    exact forall_mem_append.2 ⟨ih1 hχ, ih2 hχ⟩
  | block r _ hr _ _ ih =>
    have hχ' : ∀ v ∈ Chain.vars (r :: _), v.slot.toNat < Γ.slots := fun v hv =>
      (mem_append.1 hv).elim (fun hv => (hr.spare v hv).1) (hχ v)
    exact forall_mem_cons.2 ⟨hχ', ih hχ'⟩
  | ifThen _ _ _ ih => exact ih hχ
  | ifElse _ _ _ _ _ ih1 ih2 =>
    exact forall_mem_append.2 ⟨ih1 hχ, ih2 hχ⟩
  | loop _ _ _ _ ih => exact ih hχ
  | forever _ _ ih => exact ih hχ
  | doWhile _ _ _ ih => exact ih hχ

theorem FunctionCode.slots_lt (h : FunctionCode Γ params blocks Y ops) (p : Nat) :
    ∀ v ∈ (Y.chainAt p).vars, v.slot.toNat < Γ.slots := by
  obtain @⟨Λ, id, fresh, code, l, hstatic, -, -, houter, hparams, hslots, -, hbody, hfresh, hcode,
    -, -, -⟩ := h
  have hfits := (Layout.Frames.mk hstatic houter hbody hparams hslots).fits hfresh
  unfold Layout.chainAt openAt
  cases hlast : (Y.extents.filter fun e => decide (e.start ≤ p ∧ p < e.stop)).getLast? with
  | none => exact hfits.below
  | some e =>
    have he : e ∈ Y.extents := (mem_filter.1 (mem_of_getLast? hlast)).1
    exact hcode.slots_lt hfits.below e he

end Compile

/-- The global variables hold values of their types. So do the variables in scope in every call: in
those that wait for another one, and in the innermost, wherever its code is. -/
structure Machine.Holds (m : Module) (Y : UInt16 → Layout) (s : Machine) : Prop where
  globals : m.Admits s.globals
  callers : ∀ f ∈ s.frames.tail, Filled ((Y f.function).chainAt (f.pc - 1)).vars f.locals
  top : ∀ f ∈ s.frames.head?, f.receiver = .script →
    Filled ((Y f.function).scopeAt f.pc).vars f.locals

section

variable {m : Module} {Inv : UInt16 → Nat → Local → Prop}

theorem Module.Laid.filled (hlaid : m.Laid script false Y) {f : Frame}
    (hg : m.function? f.function = some g) (hi : f.function.toNat < m.init.toNat)
    (hl : f.locals.length = g.localCount.toNat) (hvars : vars ⊆ ((Y f.function).chainAt p).vars)
    (h : Held vars f.locals) : Filled vars f.locals := by
  obtain ⟨_, -, -, -, hcode⟩ := hlaid f.function g hg hi
  exact h.filled fun v hv => hl ▸ hcode.slots_lt p v (hvars hv)

theorem Annotation.Callers.filled (hlaid : m.Laid script false Y)
    (hinit : ∀ i p x, Inv i p x → i.toNat < m.init.toNat)
    (hglobals : (m.types Y Inv).terms.Shared globals)
    (h : (m.types Y Inv).Callers m ret fs κs) (hfs : ∀ f ∈ fs, f.IsCaller m) :
    ∀ f ∈ fs, Filled ((Y f.function).chainAt (f.pc - 1)).vars f.locals := by
  induction h with
  | nil => nofun
  | @cons ret f fs g κ κs hr hg hcheck hresumes _ ih =>
    refine forall_mem_cons.2 ⟨?_, ih (forall_mem_cons.1 hfs).2⟩
    obtain ⟨-, g', hg', -, hl⟩ := hfs f mem_cons_self
    rw [hg] at hg'
    cases hg'
    -- any answer will do: the function is one that was called
    have hlt := hinit _ _ _ (hresumes globals (.default ret) hglobals fun hne => .default hne)
    exact hlaid.filled hg hlt hl (Subset.refl _) hcheck

theorem Annotation.Upholds.holds (hlaid : m.Laid script false Y) (hP : (m.types Y Inv).Valid m)
    (hinit : ∀ i p x, Inv i p x → i.toNat < m.init.toNat)
    (h : (m.types Y Inv).Upholds m s) : s.Holds m Y := by
  obtain ⟨κs, hc⟩ := h.conforms
  have hglobals := hc.shared hP
  have hshaped := h.shaped
  cases hframes : s.frames with
  | nil => exact ⟨hglobals, by rw [hframes]; nofun, by rw [hframes]; nofun⟩
  | cons f fs =>
    rw [hframes] at hc hshaped
    refine ⟨hglobals, ?_, ?_⟩
    · rw [hframes, tail_cons]
      cases hc with
      | running _ _ _ hcs | asking _ _ _ _ hcs => exact hcs.filled hlaid hinit hglobals hshaped.2
    · rw [hframes]
      rintro _ ⟨⟩ hr
      have htop := hshaped.1
      unfold Frame.IsTop at htop
      rw [hr] at htop
      obtain ⟨g, hg, hl⟩ := htop
      have hlt : f.function.toNat < m.init.toNat := by
        cases hc with
        | running _ _ hx _ => exact hinit _ _ _ hx
        | asking _ _ _ _ _ => cases hr
      obtain ⟨g', op, κ, κs', -, -, -, hw, -⟩ := hc.running_wp hP hr
      obtain ⟨_, -, -, -, hcode⟩ := hlaid f.function g hg hlt
      exact hlaid.filled hg hlt hl (hcode.scopeAt_subset f.pc) hw.here

end

/-! ## Faults -/

namespace Regime.Kept

variable {R : Regime} {Allowed : Instance.Allows} (hR : R.Kept m settings Allowed)
  {σ : Type} {i i' : Instance}

/-- A machine of the regime stops with the fault. -/
def Raises (R : Regime) (m : Module) (settings : Settings) (env : Env (Surroundings σ))
    (f : Fault) : Prop :=
  ∃ j ws s ws', R.Works m settings j ∧ j.machine.step env m ws = .halt (.fault f) s ws'

theorem not_isCodeError_of_settled (h : i.settled = (.error f, j)) : ¬ f.fault.IsCodeError := by
  unfold Instance.settled at h
  split at h
  · cases h; exact id
  · cases h

include hR

variable (hboot : m.Boots settings)

include hboot

theorem raises_of_done (hi : R.Works m settings i) (hs : i.machine.step env m ws = .halt why s ws')
    (hp : (i.ran s q).react fuel (s.exit i.module why) =
      some (.done (.error f, i'))) (hf : f.fault.IsCodeError) : Raises R m settings env f.fault := by
  obtain ⟨hlimit, hdepth⟩ := Machine.step_halt_limits hs
  have hdepth := hdepth.trans hi.maxCallDepth
  have hconclude {a : Instance.Advance} (ha : Instance.conclude a = .done (.error f, i')) :
      (∃ j, a = (.error f, j)) := by
    obtain ⟨r, j⟩ := a
    cases r with
    | error e => cases ha; exact ⟨j, rfl⟩
    | ok called =>
      cases called with
      | true => cases ha
      | false => exact absurd hf (not_isCodeError_of_settled (Instance.Progress.done.inj ha))
  cases why with
  | completed v =>
    obtain ⟨j, hj⟩ := hconclude (some.inj hp)
    have hadvances := Instance.advance_advances (i.ran s q)
    rw [hj] at hadvances
    have hframes : s.frames = [] := Machine.step_leaves hs
    cases hadvances with
    | refuses _ hh hx =>
      obtain ⟨n, g, -, -, hg⟩ := hR.handlerOf hh hi.module
      rw [hi.module] at hx
      exact absurd hx (enter_ne_error hboot hg hframes hdepth)
    | nests _ => exact hf.elim
  | suspended => exact absurd hf (not_isCodeError_of_settled (Instance.Progress.done.inj
      (some.inj hp)))
  | fault e =>
    cases hp
    exact ⟨i, ws, s, ws', hi, hs⟩
  | signal x =>
    cases x with
    | reset =>
      obtain ⟨a, ha, hp⟩ := map_eq_some_iff.1 hp
      obtain ⟨j, rfl⟩ := hconclude hp
      have hok {s' : Machine} {r : Except Machine.BootError Unit} (hb : s.boot Host.null.bareEnv
          i.module fuel () = some (r, s', ())) := boot_ok hboot (hlimit.trans hi.memLimit) hdepth
            (hi.module ▸ hb)
      cases Instance.reset_resets ha with
      | fails hb => cases (hok hb).1
      | refuses hb hh hx =>
        obtain ⟨-, hb⟩ := hok hb
        obtain ⟨n, g, -, -, hg⟩ := hR.handlerOf hh hi.module
        rw [hi.module] at hx
        exact absurd hx (enter_ne_error hboot hg (Machine.boot_leaves hb) (Machine.boot_limits hb).2.1)
    | terminate => cases hp

theorem raises_of_execute (henv : Allowed env) (hi : R.Works m settings i)
    (h : Instance.executeIn env fuel i w = some ((.error f, i'), w')) (hf : f.fault.IsCodeError) :
    Raises R m settings env f.fault := by
  obtain ⟨j, v, why, s, q, fuel', hp, hc⟩ := Instance.executeIn_passes h
  have hj := hR.works_passes hboot henv hi hp
  have hs := hc.halts
  rw [hj.module] at hs
  exact hR.raises_of_done hboot hj hs hc.reacts hf

theorem raises_of_resume (henv : Allowed env) (hi : R.Stands m settings i)
    (h : i.resumeIn env fuel w = some ((.error f, i'), w')) (hf : f.fault.IsCodeError) :
    Raises R m settings env f.fault := by
  unfold Instance.resumeIn at h
  split at h
  · exact hR.raises_of_execute hboot henv (hR.works_resume hi ‹_›) h hf
  · cases h; exact hf.elim

theorem raises_of_start (henv : Allowed env) (hi : R.Stands m settings i) (hargs : R.Given args)
    (h : i.startIn env fuel event args w = some ((.error f, i'), w')) (hf : f.fault.IsCodeError) :
    Raises R m settings env f.fault := by
  have hs := Instance.startIn_starts env fuel i event args w
  rw [h] at hs
  generalize ho : some ((Except.error f, i'), w') = o at hs
  cases hs with
  | refuses hr =>
    cases ho
    unfold Instance.refusal? at hr
    split at hr
    · cases hr; exact hf.elim
    split at hr
    · cases hr; exact hf.elim
    split at hr
    · cases hr; exact hf.elim
    split at hr
    · cases hr; exact hf.elim
    obtain ⟨e, -, rfl⟩ := map_eq_some_iff.1 hr
    exact hf.elim
  | undelivered _ _ => cases ho; exact hf.elim
  | unhandled _ _ => cases ho
  | uncalled hr _ hh hx => exact absurd hx (hR.start_ne_error hboot hi hr hh)
  | calls hr _ hh hx =>
    exact hR.raises_of_execute hboot henv (hR.works_start hi hargs hr hh hx) ho.symm hf

end Regime.Kept

/-! ## Compiled modules -/

section

variable {source name : String}

theorem Module.ofScript_of_source (hs : Script.ofSource source = .ok script)
    (hm : Module.ofSource source name = .ok m) : Module.ofScript script source name = .ok m := by
  unfold Module.ofSource at hm
  rw [hs] at hm
  exact hm

theorem Module.ofSource_coded (hs : Script.ofSource source = .ok script)
    (hm : Module.ofSource source name = .ok m) : m.Coded script true :=
  Module.ofScript_coded (Module.ofScript_of_source hs hm) (Script.ofSource_regular hs)
    fun _ _ => .inl rfl

theorem Module.version_of_script (hm : Module.ofScript script source name = .ok m) :
    m.version = 1 := by
  unfold Module.ofScript at hm
  dsimp only at hm
  split at hm
  · cases hm; rfl
  · cases hm

/-- A compiled module has assertions about types, as long as types are tested of expressions with
values only. -/
theorem Module.ofSource_typed (hs : Script.ofSource source = .ok script)
    (hvalued : script.arrays = true → script.valued = true)
    (hm : Module.ofSource source name = .ok m) :
    ∃ Y Inv, m.Laid script false Y ∧ (m.types Y Inv).Valid m ∧
      (∀ i p x, Inv i p x → i.toNat < m.init.toNat) ∧ m.arrays = script.arrays ∧ m.version = 1 ∧
      ∀ settings, ((m.types Y Inv).regime m).Kept m settings Env.Typed := by
  have hreg := (Script.ofSource_regular hs).valued hvalued
  have hscript := Module.ofScript_of_source hs hm
  have hcoded : m.Coded script false := Module.ofScript_coded hscript hreg fun _ => .inr
  have hversion := Module.version_of_script hscript
  obtain ⟨Y, hlaid⟩ := hcoded.exists_laid
  obtain ⟨Inv, hP, hstarts, hinit⟩ := hlaid.typing
  exact ⟨Y, Inv, hlaid, hP, hinit, hcoded.arrays, hversion, hcoded.kept hreg hversion hP hstarts⟩

theorem Module.ofSource_kept (hs : Script.ofSource source = .ok script)
    (htests : script.arrays = true → script.tests = false)
    (hm : Module.ofSource source name = .ok m) :
    ∃ Y Inv, m.Laid script false Y ∧ (m.types Y Inv).Valid m ∧
      (∀ i p x, Inv i p x → i.toNat < m.init.toNat) ∧ m.arrays = script.arrays ∧ m.version = 1 ∧
      ∀ settings, ((m.types Y Inv).regime m).Kept m settings Env.Typed :=
  Module.ofSource_typed hs (fun h => Script.valued_of_tests (htests h)) hm

end

/-- Handlers of scripts without the array extension do not fault because of their code, as long as
the library answers with values of the declared types. The variables in scope hold values of their
types when an instance is at rest, and at every instruction while its code runs. -/
theorem Instance.handlers_safe {source name : String} {script : Script} {m : Module}
    (hs : Script.ofSource source = .ok script) (hcore : script.arrays = false)
    (hm : Module.ofSource source name = .ok m) (settings : Settings) :
    ∃ Y, m.Laid script false Y ∧
      (∀ i, Reachable m settings Env.Typed AllProper i →
        ∀ {σ : Type} (env : Env (Surroundings σ)) (fuel : Nat) (w : σ), env.Typed →
          (∀ event args f i' w', AllProper args →
            i.startIn env fuel event args w = some ((.error f, i'), w') → ¬ f.fault.IsCodeError) ∧
          ∀ f i' w', i.resumeIn env fuel w = some ((.error f, i'), w') → ¬ f.fault.IsCodeError) ∧
      (∀ i, Reachable m settings Env.Typed AllProper i → i.isAtRest = true → i.machine.Holds m Y) ∧
      ∀ i, Running m settings Env.Typed AllProper i → i.machine.Holds m Y := by
  obtain ⟨Y, Inv, hlaid, hP, hinit, harrays, -, hkept⟩ :=
    Module.ofSource_kept hs (fun h => by rw [hcore] at h; cases h) hm
  have hstrict : (m.types Y Inv).strict = true := by
    show (!m.arrays) = true
    rw [harrays, hcore]
    rfl
  have hR := hkept settings
  have hraises {σ : Type} {env : Env (Surroundings σ)} {f : Fault} :
      ¬ (Regime.Kept.Raises ((m.types Y Inv).regime m) m settings env f ∧ f.IsCodeError) := by
    rintro ⟨⟨j, ws, s, ws', hj, hstep⟩, hf⟩
    obtain ⟨κs, hc⟩ := hj.machine.conforms
    exact Annotation.step_fault hP hstrict hc hstep hf
  refine ⟨Y, hlaid, fun i hi σ env fuel w henv => ⟨?_, ?_⟩, fun i hi hrest => ?_, fun i hi => ?_⟩
  · intro event args f i' w' hargs h hf
    exact hraises ⟨hR.raises_of_start hi.boots henv (hR.stands hi) hargs h hf, hf⟩
  · intro f i' w' h hf
    exact hraises ⟨hR.raises_of_resume hi.boots henv (hR.stands hi) h hf, hf⟩
  · obtain hi | hi | hi := hR.stands hi
    · exact ⟨hi.machine.1, by rw [hi.frames]; nofun, by rw [hi.frames]; nofun⟩
    · exact hi.machine.1.holds hlaid hP hinit
    · rw [Instance.isAtRest, hi] at hrest
      cases hrest
  · exact (hR.works hi).machine.holds hlaid hP hinit

def divider : String :=
  "integer n = 2; integer share(integer k) \x7b return k / n; \x7d
   default \x7b touch_start(integer c) \x7b n -= c; llSay(0, (string)share(6)); \x7d \x7d"

set_option maxRecDepth 10000 in
/-- The second touch divides by zero, which is no error of the code. -/
theorem divider_safe :
    Script.Sample divider "divider" 100 fun script m i =>
      ∃ i' i'' w' w'' f, script.arrays = false ∧
      i.startIn (Host.recording.env false) 100 .touchStart [.integer 1] {} =
        some ((.ok .idle, i'), w') ∧
      i'.startIn (Host.recording.env false) 100 .touchStart [.integer 1] w' =
        some ((.error f, i''), w'') ∧ f.fault = .divisionByZero ∧ ¬ f.fault.IsCodeError ∧
      ∃ Y, m.Laid script false Y ∧ i'.machine.Holds m Y := by
  refine .of_test (fun script _ i =>
      ∃ x ∈ i.startIn (Host.recording.env false) 100 .touchStart [.integer 1] {},
      ∃ y ∈ x.1.2.startIn (Host.recording.env false) 100 .touchStart [.integer 1] x.2,
        script.arrays = false ∧ x.1.1 = .ok .idle ∧ x.1.2.isAtRest = true ∧ (match y.1.1 with
          | .ok _ => none
          | .error f => some f.fault) = some .divisionByZero) ?_
  rintro script m i hs hm hmade ⟨⟨⟨_, i'⟩, w'⟩, hfirst, ⟨⟨r', i''⟩, w''⟩, hsecond, hcore, rfl,
    hrest, hfault⟩
  have henv := Host.recording_typed.env false
  have hargs : AllProper [.integer 1] := fun v hv => by
    rw [mem_singleton.1 hv]
    exact trivial
  cases r' with
  | ok _ => cases hfault
  | error f =>
    have hi' : Instance.Reachable m {} Env.Typed AllProper i' :=
      .start (.new hmade) henv hargs hfirst
    obtain ⟨Y, hlaid, hsafe, hholds, -⟩ := Instance.handlers_safe hs hcore hm {}
    exact ⟨i', i'', w', w'', f, hcore, hfirst, hsecond,
      some.inj hfault, (hsafe i' hi' _ 100 w' henv).1 _ _ _ _ _ hargs hsecond, Y, hlaid,
      hholds i' hi' hrest⟩

end EventScript
