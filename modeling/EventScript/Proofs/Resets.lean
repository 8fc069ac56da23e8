import EventScript.Proofs.Transitions
import EventScript.Proofs.Unwinding

/-!
# Resets

A reset makes an instance what it was when it was new, whatever it went through in between
(`Instance.reset_starts_over`). The code that gives the global variables their first values asks for
nothing, so it does the same under every memory limit (`Machine.boot_limited`), and an instance
keeps its module and its settings through all that is done with it (`Instance.Becomes.keeps`).
-/

namespace EventScript

open Machine Option

/-! ## Code without checkpoints -/

theorem Op.asks_of_departs {op : Op} (h : op.departs = false) : op.asks = false := by
  cases op with
  | checkRun | callApi => cases h
  | _ => rfl

open Compile

/-- The initializer of a module asks for nothing, calls nothing and changes no state. -/
def Module.Secluded (m : Module) : Prop :=
  ∀ g, m.function? m.init = some g → ∀ op ∈ g.ops.toList, op.asks = false ∧ op.changes = false

theorem Module.Coded.secluded {m : Module} (hcoded : m.Coded script tests) : m.Secluded := fun _ hg
    op hop =>
  have hcode := (hcoded.init_of_ge hg (Nat.lt_irrefl _)).2
  ⟨Op.asks_of_departs (hcode.departs op hop), Op.changes_of_departs (hcode.departs op hop)⟩

/-! ## Memory limits -/

def Machine.limited (s : Machine) (n : Int32) : Machine := { s with memLimit := n }

def Step.limited {ω : Type} (n : Int32) : Step ω → Step ω
  | .next s w => .next (s.limited n) w
  | .halt why s w => .halt why (s.limited n) w

namespace Machine

variable {ω : Type} (s : Machine) (n : Int32) (f : Frame) (w : ω)

theorem replace_limited : replace (s.limited n) f r w = (replace s f r w).limited n := by
  unfold replace; split <;> rfl

theorem load_limited : load (s.limited n) f x e w = (load s f x e w).limited n := by
  unfold load; split <;> rfl

theorem var?_limited : (s.limited n).var? f var = s.var? f var := by
  cases var <;> rfl

theorem setVar_limited : (s.limited n).setVar f var v = (s.setVar f var v).limited n := by
  cases var <;> rfl

theorem store_limited : store (s.limited n) f var w = (store s f var w).limited n := by
  unfold store
  split
  · rfl
  dsimp only
  rw [var?_limited, setVar_limited]
  split <;> rfl

theorem storeElement_limited :
    storeElement (s.limited n) f var w = (storeElement s f var w).limited n := by
  unfold storeElement
  split
  · dsimp only
    rw [var?_limited]
    split
    · rfl
    split
    · rw [setVar_limited]; rfl
    · rfl
  · rfl

theorem branch_limited :
    branch (s.limited n) f test target w = (branch s f test target w).limited n := by
  unfold branch; split <;> rfl

theorem enter_limited : (s.limited n).enter m i args = (s.enter m i args).map (·.limited n) := by
  unfold enter
  split
  · rfl
  rw [show (s.limited n).maxCallDepth = s.maxCallDepth from rfl,
    show (s.limited n).frames = s.frames from rfl]
  split <;> rfl

theorem callFunction_limited :
    callFunction m (s.limited n) f i w = (callFunction m s f i w).limited n := by
  unfold callFunction
  split
  · rfl
  split
  · rfl
  rename_i rest _
  dsimp only
  rw [show (s.limited n).setTop { f with operands := rest } =
    (s.setTop { f with operands := rest }).limited n from rfl, enter_limited]
  cases (s.setTop { f with operands := rest }).enter m i _ <;> rfl

theorem leave_limited : leave (s.limited n) f ret w = (leave s f ret w).limited n := by
  unfold leave
  dsimp only
  split
  · rfl
  · rw [show (s.limited n).frames = s.frames from rfl]
    split <;> rfl

variable {n f w}

/-- Only checkpoints look at the memory limit. -/
theorem exec_limited (h : op.asks = false) :
    exec env m ret op f (s.limited n) w = (exec env m ret op f s w).limited n := by
  cases op with
  | callApi i | checkRun => cases h
  | pushConst i | loadLocal slot | loadGlobal index => exact load_limited ..
  | storeLocal slot => exact store_limited s n f w
  | storeGlobal index => exact store_limited s n f w
  | arraySet var => exact storeElement_limited ..
  | jumpIfFalse target | jumpIfTrue target => exact branch_limited ..
  | call index => exact callFunction_limited ..
  | ret => exact leave_limited (s.setTop f) n f w
  | jump target | jumpIfNoStateChange target => rfl
  | memStatic n | setState state | pushDefault ty | pushUndefined => rfl
  | memIncr var | memDecr var =>
    unfold exec
    dsimp only
    rw [var?_limited]
    split <;> rfl
  | _ => exact replace_limited ..

variable {s}

/-- The initializer runs, and no other call is active. -/
def Initializes (m : Module) (s : Machine) : Prop :=
  ∃ f, s.frames = [f] ∧ f.receiver = .script ∧ f.function = m.init

theorem Initializes.step_limited (hm : m.Secluded) (hs : s.Initializes m) :
    step env m (s.limited n) w = (step env m s w).limited n := by
  obtain ⟨f, hframes, hr, hf⟩ := hs
  cases hg : m.function? f.function with
  | none => simp only [step, Machine.limited, hframes, hr, hg, Step.limited]
  | some g =>
    cases hop : g.ops[f.pc]? with
    | none => simp only [step, Machine.limited, hframes, hr, hg, hop, Step.limited]
    | some op =>
      have hmem : op ∈ g.ops.toList := by
        rw [← Array.getElem?_toList] at hop
        exact List.mem_of_getElem? hop
      rw [step_script hframes hr hg hop, step_script (s := s.limited n) hframes hr hg hop]
      exact exec_limited s (hm g (hf ▸ hg) op hmem).1

theorem Initializes.next (hm : m.Secluded) (hs : s.Initializes m)
    (h : step env m s w = .next s' w') : s'.Initializes m := by
  obtain ⟨f, hframes, hr, hf⟩ := hs
  cases step_goes h with
  | answers hframes' hr' _ _ => rw [hframes] at hframes'; cases hframes'
  | @runs f' fs g op _ _ hframes' _ hg hop hdoes =>
    rw [hframes] at hframes'
    cases hframes'
    have hmem : op ∈ g.ops.toList := by
      rw [← Array.getElem?_toList] at hop
      exact List.mem_of_getElem? hop
    obtain ⟨hasks, hchanges⟩ := hm g (hf ▸ hg) op hmem
    have hone {f' : Frame} {s' : Machine} (h : s'.frames = f' :: s.frames.tail)
        (hr : f'.receiver = .script) (hf : f'.function = m.init) : s'.Initializes m :=
      ⟨f', by rw [h, hframes]; rfl, hr, hf⟩
    cases hdoes with
    | call _ _ _ => cases hchanges
    | callApi _ _ _ => cases hasks
    | ret _ hcallers => rw [hframes] at hcallers; cases hcallers
    | store var _ _ | @arraySet var _ _ _ _ _ _ _ _ => cases var <;> exact hone rfl hr hf
    | jumpIfNoStateChange =>
      refine hone rfl ?_ ?_
      · split <;> exact hr
      · split <;> exact hf
    | _ => exact hone rfl hr hf

theorem Initializes.run_limited (hm : m.Secluded) (hs : s.Initializes m) :
    run env m fuel (s.limited n) w =
      (run env m fuel s w).map fun (e, s, w) => (e, s.limited n, w) := by
  induction fuel generalizing s w with
  | zero => rfl
  | succ fuel ih =>
    rw [run_succ, run_succ, hs.step_limited hm]
    cases hstep : step env m s w with
    | next s' w' => exact ih (hs.next hm hstep)
    | halt why s' w' => cases why <;> rfl

theorem boot_limited (hm : m.Secluded) : boot env m fuel (s.limited n) w =
      (boot env m fuel s w).map fun (r, s, w) => (r, s.limited n, w) := by
  unfold boot
  dsimp only
  rw [show (s.limited n).rewound m = (s.rewound m).limited n from rfl, enter_limited]
  cases he : (s.rewound m).enter m m.init [] with
  | error f => rfl
  | ok s0 =>
    obtain ⟨g, -, -, rfl⟩ := enter_ok he
    dsimp only [Except.map]
    rw [Initializes.run_limited hm ⟨_, rfl, rfl, rfl⟩, map_map, map_map]
    rfl

theorem boot_depth (h : boot env m fuel s w = some (r, s', w')) :
    s'.maxCallDepth = s.maxCallDepth := by
  unfold boot at h
  dsimp only at h
  split at h
  · cases h; rfl
  rename_i he
  obtain ⟨⟨e, s2, w2⟩, hrun, hr⟩ := map_eq_some_iff.1 h
  cases hr
  obtain ⟨s1, w1, why, hreach, hstep, -⟩ := run_reaches hrun
  obtain ⟨g, -, -, rfl⟩ := enter_ok he
  exact (step_halt_limits hstep).2.trans hreach.limits.2

end Machine

/-! ## What an instance keeps -/

namespace Instance

variable {σ : Type} {env : Env (Surroundings σ)} {i j k : Instance}

/-- The second instance has the module and the settings of the first, but for the memory limit. -/
structure Keeps (i j : Instance) : Prop where
  module : j.module = i.module
  maxCallDepth : j.machine.maxCallDepth = i.machine.maxCallDepth
  alwaysSuspend : j.alwaysSuspend = i.alwaysSuspend

theorem Keeps.refl (i : Instance) : i.Keeps i := ⟨rfl, rfl, rfl⟩

theorem Keeps.trans (h : i.Keeps j) (h' : j.Keeps k) : i.Keeps k :=
  ⟨h'.module.trans h.module, h'.maxCallDepth.trans h.maxCallDepth,
    h'.alwaysSuspend.trans h.alwaysSuspend⟩

theorem settled_keeps : i.Keeps i.settled.2 := by
  obtain ⟨q, hq⟩ := settled_eq i
  rw [hq]
  exact ⟨rfl, rfl, rfl⟩

theorem failed_keeps : i.Keeps (i.failed f).2 := by
  obtain ⟨q, hq⟩ := failed_eq i f
  rw [hq]
  exact ⟨rfl, rfl, rfl⟩

theorem Advances.keeps (h : Advances i a) : i.Keeps a.2 := by
  cases h with
  | rests _ | refuses _ _ _ | nests _ => exact ⟨rfl, rfl, rfl⟩
  | calls _ _ _ hx =>
    obtain ⟨g, -, -, rfl⟩ := enter_ok hx
    exact ⟨rfl, rfl, rfl⟩

variable {fuel : Nat}

theorem Resets.keeps (h : Resets i fuel a) : i.Keeps a.2 := by
  cases h with
  | fails hb | rests hb | refuses hb _ _ => exact ⟨rfl, boot_depth hb, rfl⟩
  | calls hb _ hx =>
    have hdepth := boot_depth hb
    obtain ⟨g, -, -, rfl⟩ := enter_ok hx
    exact ⟨rfl, hdepth, rfl⟩

theorem conclude_keeps (h : i.Keeps a.2) : (conclude a).Meets i.Keeps (i.Keeps ·.2) := by
  obtain ⟨r, j⟩ := a
  cases r with
  | error f => exact h.trans failed_keeps
  | ok called =>
    cases called with
    | true => exact h
    | false => exact h.trans settled_keeps

theorem react_keeps (h : i.react fuel e = some p) : p.Meets i.Keeps (i.Keeps ·.2) := by
  cases e with
  | completed v =>
    cases h
    exact conclude_keeps (advance_advances i).keeps
  | suspended =>
    cases h
    have hstop : i.Keeps { i with
        status := .suspended, requests := { i.requests with suspend := false } } := ⟨rfl, rfl, rfl⟩
    exact hstop.trans settled_keeps
  | fault f =>
    cases h
    exact failed_keeps
  | signal x =>
    cases x with
    | reset =>
      obtain ⟨a, ha, rfl⟩ := map_eq_some_iff.1 h
      exact conclude_keeps (reset_resets ha).keeps
    | terminate =>
      cases h
      exact ⟨rfl, rfl, rfl⟩

variable {w w' : σ}

theorem Turns.keeps (h : Turns env i w j w') : i.Keeps j := by
  cases h with
  | runs hstep => exact ⟨rfl, (step_limits hstep).2, rfl⟩
  | @follows _ _ s ws _ hstep hreact =>
    have hstop : i.Keeps (i.ran s ws.requests) :=
      ⟨rfl, (step_halt_limits hstep).2, rfl⟩
    exact hstop.trans (react_keeps hreact)

theorem Passes.keeps (h : Passes env i w j w') : i.Keeps j := by
  induction h with
  | refl => exact .refl _
  | next ht _ ih => exact ht.keeps.trans ih

theorem Begins.keeps (h : i.Begins input j) : i.Keeps j := by
  cases h with
  | start _ _ _ hx =>
    obtain ⟨g, -, -, rfl⟩ := enter_ok hx
    exact ⟨rfl, rfl, rfl⟩
  | resume _ => exact ⟨rfl, rfl, rfl⟩

theorem executeIn_keeps (h : executeIn env fuel i w = some (r, w')) : i.Keeps r.2 := by
  obtain ⟨j, v, why, s, q, fuel', hp, hc⟩ := executeIn_passes h
  have hstop : j.Keeps (j.ran s q) :=
    ⟨rfl, (step_halt_limits hc.halts).2, rfl⟩
  exact (hp.keeps.trans hstop).trans (react_keeps hc.reacts)

theorem handle_keeps (h : i.handle env fuel w input = some (r, w')) : i.Keeps r.2 := by
  cases input with
  | start event args =>
    have hs := startIn_starts env fuel i event args w
    rw [show i.startIn env fuel event args w = _ from h] at hs
    generalize ho : some (r, w') = o at hs
    cases hs with
    | refuses _ | undelivered _ _ | unhandled _ _ | uncalled _ _ _ _ =>
      cases ho
      exact ⟨rfl, rfl, rfl⟩
    | calls hr hq hf hx => exact (Begins.start hr hq hf hx).keeps.trans (executeIn_keeps ho.symm)
  | resume =>
    change i.resumeIn env fuel w = _ at h
    unfold resumeIn at h
    split at h
    · exact (Begins.resume ‹_›).keeps.trans (executeIn_keeps h)
    · cases h
      exact .refl i

variable (i₀ : Instance) in
/-- The second instance is what the first one becomes by events, requests and streams of any kind,
whether they are taken or refused. -/
inductive Becomes : Instance → Prop
  | refl : Becomes i₀
  | handles {σ : Type} {env : Env (Surroundings σ)} {fuel : Nat} {i k : Instance} {input : Input}
      {w w' : σ} {r : Except PlacedFault Status} : Becomes i →
      i.handle env fuel w input = some ((r, k), w') → Becomes k
  | requestSuspend {i : Instance} : Becomes i → Becomes i.requestSuspend
  | requestMigration {i : Instance} (sink : Sink) : Becomes i →
      Becomes (i.requestMigration sink).2
  | migrateIn {i : Instance} (bytes : List UInt8) : Becomes i → Becomes (i.migrateIn bytes).2
  | dispose {i : Instance} : Becomes i → Becomes i.dispose

theorem migrateIn_keeps : i.Keeps (i.migrateIn bytes).2 := by
  unfold migrateIn
  split
  · split
    · exact ⟨rfl, rfl, rfl⟩
    dsimp only [restore]
    split <;> exact ⟨rfl, rfl, rfl⟩
  · exact .refl i

theorem requestMigration_keeps : i.Keeps (i.requestMigration sink).2 := by
  unfold requestMigration
  split
  · exact .refl i
  obtain ⟨q, hq⟩ := flush_eq { i with requests := i.requests.post (.migrate sink) }
  rw [hq]
  exact ⟨rfl, rfl, rfl⟩

theorem Becomes.keeps (h : Becomes i j) : i.Keeps j := by
  induction h with
  | refl => exact .refl i
  | handles _ hhandle ih => exact ih.trans (handle_keeps hhandle)
  | requestSuspend _ ih | dispose _ ih => exact ih.trans ⟨rfl, rfl, rfl⟩
  | requestMigration sink _ ih => exact ih.trans requestMigration_keeps
  | migrateIn bytes _ ih => exact ih.trans migrateIn_keeps

/-! ## Starting over -/

def afresh (i : Instance) (limit : Int32) (q : Requests) : Instance :=
  { i with machine := i.machine.limited limit, requests := q }

/-- What follows when an instance starts: it enters its state, or is at rest if nothing handles
that. -/
inductive Opens (i : Instance) : Progress → Prop
  | rests : i.handlerOf? .stateEntry = none → Opens i (.done i.settled)
  | enters {machine : Machine} : i.handlerOf? .stateEntry = some f →
      i.machine.enter i.module f [] = .ok machine →
      Opens i (.more (i.entering .stateEntry [] machine))

/-- The handler of the instance has returned, and the instance leaves its state for the given one or
is in that state. -/
def HeadsFor (i : Instance) (next : UInt16) : Prop :=
  ∃ called j, i.advance = (.ok called, j) ∧
    (j.phase = .exiting next ∧ j.event = .stateExit ∨ j.state = Int32.ofNat next.toNat)

theorem begin_of_nil
    (hhandler : ∀ {n f}, i.module.handler? n e = some f → ∃ g, i.module.function? f = some g)
    (hframes : i.machine.frames = []) (hdepth : 0 < i.machine.maxCallDepth) :
    i.handlerOf? e = none ∧ i.begin e [] = (.ok false, i) ∨
      ∃ f machine, i.handlerOf? e = some f ∧ i.machine.enter i.module f [] = .ok machine ∧
        i.begin e [] = (.ok true, i.entering e [] machine) := by
  rw [begin_eq]
  cases hf : i.handlerOf? e with
  | none => exact .inl ⟨rfl, rfl⟩
  | some f =>
    obtain ⟨n, -, hn⟩ := bind_eq_some_iff.1 hf
    obtain ⟨g, hg⟩ := hhandler hn
    have hx : i.machine.enter i.module f [] = .ok _ := enter_of_nil hg hframes hdepth
    exact .inr ⟨f, _, rfl, hx, by simp only [hx]⟩

variable {m : Module} {settings : Settings}

theorem new_boots (h : Instance.new m settings fuel = some (.ok i)) :
    (settings.machine m).boot Host.null.bareEnv m fuel () = some (.ok (), i.machine, ()) ∧
    i = { module := m, machine := i.machine, state := 0, event := .none, eventArgs := [],
          status := .idle, phase := .handler, alwaysSuspend := settings.alwaysSuspend,
          requests := {} } := by
  obtain ⟨⟨r, s, u⟩, hb, h⟩ := map_eq_some_iff.1 h
  cases r <;> cases h
  exact ⟨hb, rfl⟩

theorem Keeps.boots (hm : m.Secluded) (hnew : Instance.new m settings fuel = some (.ok i))
    (h : i.Keeps j) : j.machine.boot Host.null.bareEnv j.module fuel () =
      some (.ok (), i.machine.limited j.machine.memLimit, ()) := by
  obtain ⟨hboot, hi⟩ := new_boots hnew
  have hmodule : j.module = m := h.module.trans (by rw [hi])
  have hdepth := h.maxCallDepth.trans (boot_depth hboot)
  have hrewound : j.machine.rewound m =
      ((settings.machine m).limited j.machine.memLimit).rewound m := by
    unfold Machine.rewound
    rw [hdepth]
    rfl
  have hlimited : ((settings.machine m).limited j.machine.memLimit).boot Host.null.bareEnv m fuel
      () = _ := boot_limited hm
  rw [hboot] at hlimited
  rw [hmodule, ← show _ = some (_, _, _) from hlimited]
  unfold Machine.boot
  rw [hrewound]

theorem finish_afresh (hnew : Instance.new m settings fuel = some (.ok i)) :
    (i.afresh limit q).finish = i.afresh limit q := by
  obtain ⟨-, hi⟩ := new_boots hnew
  rw [hi]
  rfl

theorem Keeps.rebooted (hnew : Instance.new m settings fuel = some (.ok i)) (h : i.Keeps j) :
    j.rebooted (i.machine.limited j.machine.memLimit) =
      i.afresh j.machine.memLimit j.requests := by
  obtain ⟨-, hi⟩ := new_boots hnew
  obtain ⟨hmodule, -, hsuspend⟩ := h
  rw [hi] at hmodule hsuspend ⊢
  unfold Instance.rebooted afresh finish
  rw [hmodule, hsuspend]

theorem Keeps.opens (hm : m.Secluded)
    (hhandler : ∀ {n event f}, m.handler? n event = some f → ∃ g, m.function? f = some g)
    (hnew : Instance.new m settings fuel = some (.ok i)) (h : i.Keeps j) :
    ∃ p, Opens (i.afresh j.machine.memLimit j.requests) p ∧
      j.react fuel (.signal .reset) = some p := by
  obtain ⟨hboot, hi⟩ := new_boots hnew
  have hreset : j.reset fuel = some (proceed
      ((i.afresh j.machine.memLimit j.requests).begin .stateEntry [])
      fun i => (.ok false, i.finish)) := by
    unfold reset
    rw [h.boots hm hnew, ← h.rebooted hnew]
    rfl
  refine ⟨_, ?_, by unfold react; rw [hreset]; rfl⟩
  have hmodule : (i.afresh j.machine.memLimit j.requests).module = m := by rw [hi]; rfl
  have hdepth : 0 < i.machine.maxCallDepth := by
    rw [boot_depth hboot]
    exact (boot_limits hboot).2.2
  have hframes : i.machine.frames = [] := boot_leaves hboot
  obtain ⟨hf, hb⟩ | ⟨f, machine, hf, hx, hb⟩ :=
    begin_of_nil (i := i.afresh j.machine.memLimit j.requests)
      (hmodule.symm ▸ hhandler) hframes hdepth
  · rw [hb]
    show Opens _ (.done (finish _).settled)
    rw [finish_afresh hnew]
    exact .rests hf
  · rw [hb]
    exact .enters hf hx

theorem headsFor
    (hhandler : ∀ {n e f}, i.module.handler? n e = some f → ∃ g, i.module.function? f = some g)
    (hphase : i.phase = .handler) (hframes : i.machine.frames = [])
    (hdepth : 0 < i.machine.maxCallDepth) (hpending : i.machine.pending = some next)
    (hne : Int32.ofNat next.toNat ≠ i.state) : i.HeadsFor next := by
  have hadvance : i.advance =
      proceed ((i.moved i.state (.exiting next)).begin .stateExit []) (·.exited next) := by
    unfold advance handled
    rw [hphase]
    rw [hpending]
    exact if_neg hne
  have hexited : (i.moved i.state (.exiting next)).exited next =
      proceed ((i.moved (Int32.ofNat next.toNat) .entering).begin .stateEntry []) entered := rfl
  unfold HeadsFor
  rw [hadvance]
  obtain ⟨-, hb⟩ | ⟨f, machine, -, -, hb⟩ :=
    begin_of_nil (i := i.moved i.state (.exiting next)) hhandler hframes hdepth
  · rw [hb]
    dsimp only [proceed]
    rw [hexited]
    obtain ⟨-, hb⟩ | ⟨f, machine, -, -, hb⟩ :=
      begin_of_nil (i := i.moved (Int32.ofNat next.toNat) .entering) hhandler
        hframes hdepth
    · rw [hb]
      exact ⟨false, _, rfl, .inr rfl⟩
    · rw [hb]
      exact ⟨true, _, rfl, .inr rfl⟩
  · rw [hb]
    exact ⟨true, _, rfl, .inl ⟨rfl, rfl⟩⟩

/-- A reset starts an instance over. Whatever it has gone through since it was new, and whatever its
code was doing when a library function reset it, the initializer runs as it did at first and without
a fault: but for the memory limit, which a stream may have brought, and for the requests, the
instance is the new one. It then enters the default state, and may leave it for another one when it
has done so, or is at rest if nothing handles that. -/
theorem reset_starts_over {source name : String} {m : Module} {settings : Settings} {fuel₀ : Nat}
    {i₀ : Instance} {input : Input} {w v : σ} {s : Machine} {ws : Surroundings σ}
    (hm : Module.ofSource source name = .ok m)
    (hnew : Instance.new m settings fuel₀ = some (.ok i₀)) (hi : i₀.Becomes i)
    (hj : i.Executes env input w j v)
    (hreset : j.machine.step env j.module ⟨v, j.requests⟩ = .halt (.signal .reset) s ws) :
    (i₀.machine.frames = [] ∧ i₀.machine.pending = none ∧ i₀.state = 0 ∧ i₀.phase = .handler ∧
      i₀.status = .idle ∧ i₀.event = .none ∧ i₀.eventArgs = []) ∧
    ∃ p, Opens (i₀.afresh j.machine.memLimit ws.requests) p ∧
      (∀ fuel, fuel₀ ≤ fuel → (j.ran s ws.requests).react
        fuel (s.exit j.module (.signal .reset)) = some p) ∧
      (∀ fuel p', (j.ran s ws.requests).react fuel
        (s.exit j.module (.signal .reset)) = some p' → p' = p) ∧
      ∀ k, p = .more k → ∀ {ω : Type} (env' : Env (Surroundings ω)) ws₀ s₁ ws₁ u s₂ ws₂,
        Machine.Reaches env' m k.machine ws₀ s₁ ws₁ →
        s₁.step env' m ws₁ = .halt (.completed u) s₂ ws₂ →
        ∀ next, s₂.pending = some next → Int32.ofNat next.toNat ≠ 0 →
          HeadsFor (k.ran s₂ ws₂.requests) next := by
  obtain ⟨script, tests, hcoded⟩ := Module.exists_coded hm
  obtain ⟨hboot, hi₀⟩ := new_boots hnew
  have hhandler {n : Nat} {e : Event} {f : UInt16} (hf : m.handler? n e = some f) :
      ∃ g, m.function? f = some g := ((hcoded.stacking_kept settings).handler hf).2
  obtain ⟨i₁, hbegins, hpasses⟩ := hj
  obtain ⟨hlimit, hdepth⟩ := Machine.step_halt_limits hreset
  have hkeeps : i₀.Keeps (j.ran s ws.requests) :=
    ((hi.keeps.trans hbegins.keeps).trans hpasses.keeps).trans ⟨rfl, hdepth, rfl⟩
  obtain ⟨p, hopens, hreact⟩ := hkeeps.opens hcoded.secluded hhandler hnew
  rw [show (j.ran s ws.requests).machine.memLimit = _ from hlimit] at hopens
  refine ⟨⟨Machine.boot_leaves hboot, hcoded.boot_pending hboot, ?_⟩, p, hopens,
    fun fuel hle => react_mono hreact hle, fun fuel p' hp' => ?_, ?_⟩
  · rw [hi₀]
    exact ⟨rfl, rfl, rfl, rfl, rfl⟩
  · have h₁ := react_mono hp' (Nat.le_max_left fuel fuel₀)
    have h₂ := react_mono hreact (Nat.le_max_right fuel fuel₀)
    exact some_inj.1 (h₁.symm.trans h₂)
  · rintro k rfl ω env' ws₀ s₁ ws₁ u s₂ ws₂ hreach hstep next hpending hne
    cases hopens with
    | enters hf hx =>
      obtain ⟨g, -, hroom, rfl⟩ := Machine.enter_ok hx
      have hmodule : i₀.module = m := by rw [hi₀]
      refine headsFor ?_ ?_ (Machine.step_leaves hstep) ?_ hpending ?_
      · intro n e f hf
        exact hmodule.symm ▸ hhandler (hmodule ▸ hf)
      · show i₀.phase = .handler
        rw [hi₀]
      · rw [(Machine.step_halt_limits hstep).2, hreach.limits.2]
        exact Nat.zero_lt_of_lt hroom
      · rw [hi₀]
        exact hne

def returned? (env : Env (Surroundings σ)) (fuel : Nat) (i : Instance) (w : σ) :
    Option (Instance × σ) :=
  match i.machine.run env i.module fuel ⟨w, i.requests⟩ with
  | some (.completed _, s, ws) => some ((i.ran s ws.requests), ws.host)
  | _ => none

def next? (i : Instance) : Option Instance :=
  match i.advance with
  | (.ok true, k) => some k
  | _ => none

theorem passes_of_next (hr : i.returned? env fuel w = some (j, w')) (hn : j.next? = some k) :
    Passes env i w k w' := by
  unfold returned? at hr
  split at hr
  · rename_i s ws hrun
    cases hr
    obtain ⟨s1, ws1, why, hreach, hstep, hexit⟩ := run_reaches hrun
    unfold next? at hn
    split at hn
    · rename_i ha
      cases hn
      have hturn : Turns env (i.ran s1 ws1.requests) ws1.host k ws.host := by
        have hreact : (i.ran s ws.requests).react 0 (s.exit i.module why) = some (.more k) := by
          rw [← hexit]
          exact congrArg (fun a => some (conclude a)) ha
        exact .follows hstep hreact
      exact (passes_of_reaches rfl hreach).trans (.next hturn .refl)
    · cases hn
  · cases hr

end Instance

/-- What is left when a library function resets the instance, if one does. -/
def Machine.resets? {ω : Type} (env : Env ω) (m : Module) (s : Machine) (w : ω) :
    Option (Machine × ω) :=
  match s.step env m w with
  | .halt (.signal .reset) s' w' => some (s', w')
  | _ => none

theorem Machine.step_of_resets? {s : Machine} (h : s.resets? env m w = some (s', w')) : s.step
    env m w = .halt (.signal .reset) s' w' := by
  unfold resets? at h
  split at h
  · cases h; assumption
  · cases h

def phoenix : String :=
  "integer lives; string note = \"fresh\";
   quit() \x7b note = \"gone\"; llResetScript(); \x7d
   default \x7b state_entry() \x7b ++lives; \x7d
     touch_start(integer c) \x7b lives = 7; state away; \x7d state_exit() \x7b quit(); \x7d \x7d
   state away \x7b state_entry() \x7b \x7d \x7d"

set_option synthInstance.maxSize 1000 in
set_option maxRecDepth 10000 in
/-- The phoenix takes the place of one with less memory, and resets itself in the middle of a change
of state: it is as new, and enters its first state. -/
theorem phoenix_starts_over :
    Script.Sample phoenix "phoenix" 100 fun _ m i₀ =>
      ∃ k₀ j v s ws machine, Instance.new m { memoryLimit := 5000 } 100 = some (.ok k₀) ∧
      (i₀.migrateIn (k₀.snapshot.send m (.accepting 1)).bytes).2.Executes (Host.recording.env false)
      (.start .touchStart [.integer 1]) {} j v ∧ j.phase = .exiting 1 ∧
      j.machine.frames.length = 2 ∧ j.machine.memLimit = 5000 ∧
      j.machine.step (Host.recording.env false) j.module ⟨v, j.requests⟩ =
      .halt (.signal .reset) s ws ∧
      (j.ran s ws.requests).react 100 (s.exit j.module (.signal .reset)) =
        some (.more ((i₀.afresh 5000 ws.requests).entering .stateEntry [] machine)) := by
  refine .of_test (fun _ m i₀ =>
      ∃ made ∈ Instance.new m { memoryLimit := 5000 } 100, ∃ k₀ ∈ made.toOption,
      ∃ i₁ ∈ (i₀.migrateIn (k₀.snapshot.send m (.accepting 1)).bytes).2.begun?
        (.start .touchStart [.integer 1]),
      ∃ x ∈ i₁.returned? (Host.recording.env false) 100 {}, ∃ i₂ ∈ x.1.next?,
      ∃ y ∈ Machine.after? (Host.recording.env false) i₂.module 11 i₂.machine ⟨x.2, i₂.requests⟩,
      ∃ z ∈ y.1.resets? (Host.recording.env false) i₂.module y.2, i₂.phase = .exiting 1 ∧
        y.1.frames.length = 2 ∧ y.1.memLimit = 5000 ∧ i₀.handlerOf? .stateEntry ≠ none) ?_
  rintro _ m i₀ hs hm hmade ⟨made', hmade', k₀, hk0, i₁, hbegun, ⟨x, w⟩, hreturned, i₂, hnext,
    ⟨s₁, ws₁⟩, hafter, ⟨s, ws⟩, hresets, hphase, hframes, hlimit, hentry⟩
  rw [eq_ok_of_toOption hk0] at hmade'
  have hj : (i₀.migrateIn (k₀.snapshot.send m (.accepting 1)).bytes).2.Executes
      (Host.recording.env false) (.start .touchStart [.integer 1]) {}
      (i₂.ran s₁ ws₁.requests) ws₁.host :=
    ⟨i₁, Instance.begins_iff.2 hbegun, (Instance.passes_of_next hreturned hnext).trans
      (Instance.passes_of_reaches rfl (Machine.reaches_of_after? hafter))⟩
  have hstep := Machine.step_of_resets? hresets
  obtain ⟨-, p, hopens, hreact, -⟩ :=
    Instance.reset_starts_over hm hmade (.migrateIn _ .refl) hj hstep
  rw [show (i₂.ran s₁ ws₁.requests).machine.memLimit = _ from hlimit] at hopens
  cases hopens with
  | rests hnone => exact absurd hnone hentry
  | enters _ _ =>
    exact ⟨k₀, _, _, s, ws, _, hmade', hj, hphase, hframes, hlimit, hstep,
      hreact 100 le_rfl⟩

end EventScript
