import EventScript.Host.Recording
import EventScript.Proofs.Instructions
import EventScript.Proofs.Reachability

/-!
# Suspension is transparent

A handler that is suspended, at checkpoints or inside calls of library functions, and resumed until
it is no longer suspended ends like the handler that runs without a stop.

1. `Host.DelayedBy h env R`: the environment answers every call as the host does, at once or after
   the call has been suspended, and stops at whichever checkpoints it likes.
2. `Machine.RunsOn`: a run that is resumed whenever it is suspended. One instruction without a stop
   is answered by such a run (`step_leads`), and so is a whole run (`run_runsOn`).
3. The instance reacts to the end of a run in the same way, whatever requests it holds
   (`react_withRequests`), so the argument carries over to handlers and changes of state.
-/

namespace EventScript

open List Option Machine

variable {σ τ : Type}

/-! ## Hosts and delays -/

/-- The host does not suspend a call in a state, and asks nothing of the instance. -/
def Host.SteadyIn (h : Host σ) (w : σ) : Prop :=
  ∀ f ∈ ApiFunction.table, ∀ args,
    (h.call f args w).answer ≠ .error .suspend ∧ (h.call f args w).posts = []

variable (env : Env (Surroundings τ)) (R : σ → τ → Prop) (f : ApiFunction) (args : List Value)
  (r : Reply σ) in
/-- The environment gives the answer of a host now, or suspends the call and gives it later. -/
inductive Answers : Except Interrupt Value × Surroundings τ → Prop
  | now : R r.state s.host → s.requests.migrate = false → Answers (r.answer, s)
  | later : s.requests.migrate = false → (∀ q : Requests, q.migrate = false →
        Answers (env.resume f args ⟨s.host, q⟩)) →
      Answers (.error .suspend, s)

/-- The environment does what the host does, with suspensions in between; `R` says which of its
states stand for which states of the host. -/
structure Host.DelayedBy (h : Host σ) (env : Env (Surroundings τ)) (R : σ → τ → Prop) : Prop where
  steady : ∀ w v, R w v → h.SteadyIn w
  call : ∀ f ∈ ApiFunction.table, ∀ args w s, R w s.host → s.requests.migrate = false →
    Answers env R f args (h.call f args w) (env.call f args s)
  poll : ∀ w s, R w s.host → s.requests.migrate = false →
    R w (env.poll s).2.host ∧ (env.poll s).2.requests.migrate = false

/-- The environment that gives the same answer to every call. -/
def Env.always (a : Except Interrupt Value) : Env Unit :=
  ⟨fun _ _ w => (a, w), fun _ _ w => (a, w), fun w => (false, w)⟩

namespace Machine

/-! ## Runs with suspensions -/

def resumed (w : Surroundings τ) : Surroundings τ := ⟨w.host, { w.requests with suspend := false }⟩

/-- A run that is resumed whenever it is suspended, and how it ends. -/
inductive RunsOn (env : Env (Surroundings τ)) (m : Module) :
    Machine → Surroundings τ → Exit → Machine → Surroundings τ → Prop
  | ends (fuel : Nat) {s s' : Machine} {w w' : Surroundings τ} {e : Exit} :
      run env m fuel s w = some (e, s', w') → e ≠ .suspended → RunsOn env m s w e s' w'
  | again (fuel : Nat) {s s₁ s' : Machine} {w w₁ w' : Surroundings τ} {e : Exit} :
      run env m fuel s w = some (.suspended, s₁, w₁) → w₁.requests.migrate = false →
      RunsOn env m s₁ (resumed w₁) e s' w' → RunsOn env m s w e s' w'

/-- What an outcome leads to, when the run is resumed whenever it is suspended. -/
def Leads (env : Env (Surroundings τ)) (m : Module)
    (P : Exit → Machine → Surroundings τ → Prop) : Step (Surroundings τ) → Prop
  | .next s w => ∃ e s' w', RunsOn env m s w e s' w' ∧ P e s' w'
  | .halt .suspended s w => w.requests.migrate = false ∧
      ∃ e s' w', RunsOn env m s (resumed w) e s' w' ∧ P e s' w'
  | .halt why s w => P (exit m s why) s w

variable {s : Machine}

theorem exit_ne_suspended (h : why ≠ .suspended) : exit m s why ≠ .suspended := by
  cases why with
  | suspended => exact absurd rfl h
  | _ => simp [exit]

theorem RunsOn.of_next (hs : step env m s w = .next s1 w1) (h : RunsOn env m s1 w1 e s' w') :
    RunsOn env m s w e s' w' := by
  cases h with
  | ends fuel hr he => exact .ends (fuel + 1) (by rw [run_succ, hs]; exact hr) he
  | again fuel hr hq ht => exact .again (fuel + 1) (by rw [run_succ, hs]; exact hr) hq ht

theorem Leads.runsOn (h : Leads env m P (step env m s w)) :
    ∃ e s' w', RunsOn env m s w e s' w' ∧ P e s' w' := by
  cases hs : step env m s w with
  | next s1 w1 =>
    rw [hs] at h
    obtain ⟨e, s', w', hr, hp⟩ := h
    exact ⟨e, s', w', hr.of_next hs, hp⟩
  | halt why s1 w1 =>
    rw [hs] at h
    have hr : run env m 1 s w = some (exit m s1 why, s1, w1) := by rw [run_succ, hs]
    cases why with
    | suspended =>
      obtain ⟨hq, e, s', w', ht, hp⟩ := h
      exact ⟨e, s', w', .again 1 hr hq ht, hp⟩
    | _ => exact ⟨_, s1, w1, .ends 1 hr (exit_ne_suspended (by simp)), h⟩

/-! ## Questions -/

/-- What a step asks the environment, with its outcome for each answer. -/
inductive Query
  | nothing (o : Step Unit)
  | call (g : ApiFunction) (args : List Value) (next : Except Interrupt Value → Step Unit)
  | resume (g : ApiFunction) (args : List Value) (next : Except Interrupt Value → Step Unit)
  | poll (next : Bool → Step Unit)

def Query.answer {ω : Type} (env : Env ω) (w : ω) : Query → Step ω
  | .nothing o => o.move w
  | .call g args next => (next (env.call g args w).1).move (env.call g args w).2
  | .resume g args next => (next (env.resume g args w).1).move (env.resume g args w).2
  | .poll next => (next (env.poll w).1).move (env.poll w).2

/-- The step of a machine is the answer to a question, in every environment. -/
def Poses (m : Module) (s : Machine) (q : Query) : Prop :=
  ∀ {ω : Type} (env : Env ω) (w : ω), step env m s w = q.answer env w

theorem answers_leads (hlater : k (.error .suspend) = .halt .suspended s1 ())
    (hres : Poses m s1 (.resume g args k)) (hx : Answers env R g args r x)
    (h : ∀ ws : Surroundings τ, R r.state ws.host → ws.requests.migrate = false →
      Leads env m P ((k r.answer).move ws)) : Leads env m P ((k x.1).move x.2) := by
  induction hx with
  | now hR hq => exact h _ hR hq
  | @later ws hq _ ih =>
    rw [hlater]
    refine ⟨hq, Leads.runsOn ?_⟩
    rw [hres]
    exact ih { ws.requests with suspend := false } hq

/-! ## Runs without a stop -/

def Unsuspended (s : Machine) : Prop := ∀ f ∈ s.frames, f.receiver = .script

theorem Unsuspended.setTop (h : s.Unsuspended) (hf : f.receiver = .script) :
    (s.setTop f).Unsuspended := by
  intro g hg
  rcases mem_cons.1 hg with rfl | hg
  · exact hf
  · exact h g (mem_of_mem_tail hg)

theorem Unsuspended.setVar (h : s.Unsuspended) (hf : f.receiver = .script) (var : VarRef)
    (v : Value) : (s.setVar f var v).Unsuspended := by
  cases var <;> exact h.setTop hf

theorem Unsuspended.enter (h : s.Unsuspended) (he : s.enter m index args = .ok s') :
    s'.Unsuspended := by
  unfold Machine.enter at he
  split at he
  · cases he
  split at he
  · cases he
  cases he
  exact forall_mem_cons.2 ⟨rfl, h⟩

theorem Does.unsuspended {ret : Ty} (h : Does env m ret f s w op s' w')
    (hs : s.Unsuspended) (hf : f.receiver = .script) : s'.Unsuspended := by
  cases h with
  | store var _ _ | arraySet _ _ _ => exact hs.setVar (by exact hf) _ _
  | jumpIfNoStateChange => split <;> exact hs.setTop hf
  | call _ _ he => exact Unsuspended.enter (hs.setTop (by exact hf)) he
  | callApi _ _ _ => unfold answered; split <;> exact hs.setTop hf
  | ret _ hc =>
    intro g hg
    rcases mem_cons.1 hg with rfl | hg
    · have := hs _ (mem_of_mem_tail (hc ▸ mem_cons_self))
      split <;> exact this
    · exact hs g (mem_of_mem_tail (hc ▸ mem_cons_of_mem _ hg))
  | _ => exact hs.setTop hf

theorem exec_halt_ne_suspended {env : Env ω} {w : ω}
    (ha : op.asks = false) (h : exec env m ret op f s w = .halt why s' w') : why ≠ .suspended := by
  by_cases hr : op = .ret
  · subst hr
    rintro rfl
    unfold exec at h
    simp only [leave, setTop_frames, tail_cons] at h
    split at h
    · cases h
    · split at h <;> cases h
  · obtain ⟨e, rfl⟩ := exec_halt_fault ha hr h
    simp

end Machine

/-- The outcome is not a suspension, and no call is suspended after it. -/
def Step.Calm {ω : Type} : Step ω → Prop
  | .next s _ => s.Unsuspended
  | .halt why _ _ => why ≠ .suspended

theorem Step.Calm.move {o : Step ω} (h : o.Calm) (v : ω') : (o.move v).Calm := by
  cases o <;> exact h

namespace Machine

variable {P : Exit → Machine → Surroundings τ → Prop}

/-- The questions of a machine in which no call is suspended. A call that is suspended is asked for
again, and goes on with the same answers. -/
inductive Steady (m : Module) : Query → Prop
  | nothing : o.Calm → Steady m (.nothing o)
  | call {next : Except Interrupt Value → Step Unit}
      {s₁ : Machine} : g ∈ ApiFunction.table → (∀ a, a ≠ .error .suspend → (next a).Calm) →
      next (.error .suspend) = .halt .suspended s₁ () → Poses m s₁ (.resume g args next) →
      Steady m (.call g args next)
  | poll {next : Bool → Step Unit} : s₁.Unsuspended → next false = .next s₁ () →
      next true = .halt .suspended s₁ () → Steady m (.poll next)

/-- The outcome of a call of a library function, given its answer. -/
def answerApi (s : Machine) (f : Frame) (g : ApiFunction) (index : UInt16) (args : List Value) :
    Except Interrupt Value → Step Unit
  | .ok v => go s (answered g v f) ()
  | .error i => interrupt (s.setTop f) i index args g.name ()

theorem answerApi_calm (hu : s.Unsuspended) (hf : f.receiver = .script)
    (ha : a ≠ .error .suspend) : (answerApi s f g index args a).Calm := by
  cases a with
  | ok v =>
    refine hu.setTop ?_
    unfold answered
    split <;> exact hf
  | error i =>
    cases i with
    | suspend => exact absurd rfl ha
    | _ => exact nofun

/-- A machine that waits for the answer of a call. -/
theorem waiting_poses (hg : ApiFunction.get? index = some g) :
    Poses m { s.setTop f with frames := .waiting index args :: (s.setTop f).frames }
      (.resume g args (answerApi s f g index args)) := by
  intro ω env w
  simp only [step, Frame.waiting, resumeApi, hg, Query.answer]
  obtain ⟨a, v⟩ := env.resume g args w
  cases a with
  | ok a => rfl
  | error i => cases i <;> rfl

/-- The machine asks a question, and a fitting one if no call is suspended. -/
def Asks (m : Module) (s : Machine) : Prop := ∃ q, Poses m s q ∧ (s.Unsuspended → Steady m q)

theorem Asks.nothing {o : Step Unit} (ho : s.Unsuspended → o.Calm)
    (h : ∀ {ω : Type} (env : Env ω) (w : ω), step env m s w = o.move w) : Asks m s :=
  ⟨.nothing o, h, fun hu => .nothing (ho hu)⟩

theorem Asks.fault {e : Fault} (h : ∀ {ω : Type} (env : Env ω) (w : ω),
    step env m s w = .halt (.fault e) s' w) : Asks m s :=
  .nothing (o := .halt (.fault e) s' ()) (fun _ => nofun) h

theorem resumeApi_asks (hframes : s.frames = f :: fs) (hr : f.receiver = .api) : Asks m s := by
  cases hg : ApiFunction.get? f.function with
  | none => exact .fault fun env w => by rw [step_api hframes hr, resumeApi, hg]
  | some g =>
    refine ⟨.resume g f.locals fun a => resumeApi (.always a) s f fs (), fun env w => ?_, fun hu => ?_⟩
    · simp only [step_api hframes hr, resumeApi, hg, Query.answer, Env.always]
      obtain ⟨a, v⟩ := env.resume g f.locals w
      cases a with
      | ok a => cases fs <;> rfl
      | error i => cases i <;> rfl
    · rw [hu f (hframes ▸ mem_cons_self)] at hr
      cases hr

theorem callApi_asks (hf : f.receiver = .script) (h : ∀ {ω : Type} (env : Env ω) (w : ω),
    step env m s w = callApi env s f index w) : Asks m s := by
  cases hg : ApiFunction.get? index with
  | none => exact .fault fun env w => by rw [h, callApi, hg]; rfl
  | some g =>
    cases hargs : Operands.split? g.params.length f.operands with
    | none => exact .fault fun env w => by simp only [h, callApi, hg, hargs]; rfl
    | some x =>
      obtain ⟨args, rest⟩ := x
      refine ⟨.call g args (answerApi s { f with operands := rest } g index args), fun env w => ?_,
        fun hu => .call (mem_of_getElem? hg) (fun a => answerApi_calm hu hf) rfl (waiting_poses hg)⟩
      simp only [h, callApi, hg, hargs, Query.answer]
      obtain ⟨a, v⟩ := env.call g args w
      cases a with
      | ok a => rfl
      | error i => cases i <;> rfl

theorem check_asks (hf : f.receiver = .script) (h : ∀ {ω : Type} (env : Env ω) (w : ω),
    step env m s w = check env (s.setTop f) w) : Asks m s := by
  by_cases hl : (s.setTop f).memLimit < (s.setTop f).memUsage
  · exact .fault fun env w => by rw [h, check, if_pos hl]
  · refine ⟨.poll fun stop => if stop then .halt .suspended (s.setTop f) () else
      .next (s.setTop f) (), fun env w => ?_, fun hu => .poll (hu.setTop hf) rfl rfl⟩
    simp only [h, check, if_neg hl, Query.answer]
    obtain ⟨stop, v⟩ := env.poll w
    cases stop <;> rfl

theorem exec_asks (hf : f.receiver = .script) (h : ∀ {ω : Type} (env : Env ω) (w : ω),
    step env m s w = exec env m ret op f s w) : Asks m s := by
  by_cases ha : op.asks = true
  · cases op with
    | callApi index => exact callApi_asks hf h
    | checkRun => exact check_asks hf h
    | _ => cases ha
  · have ha : op.asks = false := by simpa using ha
    refine .nothing (o := exec (.always (.ok .undefined)) m ret op f s ()) (fun hu => ?_)
      fun env w => (h env w).trans (exec_move ha _ env m ret f s () w)
    cases ho : exec (.always (.ok .undefined)) m ret op f s () with
    | next s1 w1 => exact (exec_does ho).unsuspended hu hf
    | halt why s1 w1 => exact exec_halt_ne_suspended ha ho

theorem step_asks (m : Module) (s : Machine) : Asks m s := by
  cases hframes : s.frames with
  | nil =>
    exact .nothing (o := .halt (.completed .undefined) s ()) (fun _ => nofun) fun env w => by
      simp only [step, hframes, Step.move]
  | cons f fs =>
    cases hr : f.receiver with
    | api => exact resumeApi_asks hframes hr
    | script =>
      cases hg : m.function? f.function with
      | none => exact .fault fun env w => by simp only [step, hframes, hr, hg]; rfl
      | some g =>
        cases hop : g.ops[f.pc]? with
        | none => exact .fault fun env w => by simp only [step, hframes, hr, hg, hop]; rfl
        | some op =>
          exact exec_asks (f := { f with pc := f.pc + 1 }) hr fun _ _ => step_script hframes hr hg hop

section

variable {h : Host σ}

theorem call_steady (hs : h.SteadyIn w) (hg : g ∈ ApiFunction.table)
    (args : List Value) (q : Requests) : (h.env false).call g args ⟨w, q⟩ =
      ((h.call g args w).answer, ⟨(h.call g args w).state, q⟩) := by
  show ((h.call g args w).answer, Surroundings.mk (h.call g args w).state
    ((h.call g args w).posts.foldl Requests.post q)) = _
  rw [(hs g hg args).2]
  rfl

theorem poll_steady (hq : q.isPending = false) : (h.env false).poll ⟨w, q⟩ = (false, ⟨w, q⟩) := by
  show (false || q.isPending, _) = _
  rw [hq]; rfl

theorem step_calm (hs : h.SteadyIn w) (hu : s.Unsuspended) (hq : q.isPending = false) :
    (step (h.env false) m s ⟨w, q⟩).world.requests = q ∧ (step (h.env false) m s ⟨w, q⟩).Calm := by
  obtain ⟨x, hx, hsteady⟩ := step_asks m s
  rw [hx]
  cases hsteady hu with
  | nothing ho => exact ⟨by rw [Query.answer, Step.world_move], ho.move _⟩
  | @call g args _ _ hg hcalm _ _ =>
    rw [Query.answer, call_steady hs hg]
    exact ⟨by rw [Step.world_move], (hcalm _ (hs g hg args).1).move _⟩
  | poll hu hfalse _ =>
    rw [Query.answer, poll_steady hq, hfalse]
    exact ⟨rfl, hu⟩

/-- Given what follows a step without a stop, `P` holds at the end of the runs with suspensions. -/
structure Mirrors (R : σ → τ → Prop) (env : Env (Surroundings τ)) (m : Module)
    (P : Exit → Machine → Surroundings τ → Prop) (o : Step (Surroundings σ)) : Prop where
  next : ∀ {s w ws}, o = .next s w → R w.host ws.host → ws.requests.migrate = false →
    ∃ e s' ws', RunsOn env m s ws e s' ws' ∧ P e s' ws'
  halt : ∀ {why s w ws}, o = .halt why s w → R w.host ws.host → ws.requests.migrate = false →
    P (exit m s why) s ws

theorem Mirrors.leads {o : Step Unit} {w : Surroundings σ} (hm : Mirrors R env m P (o.move w))
    (hc : o.Calm) (hR : R w.host ws.host) (hq : ws.requests.migrate = false) :
    Leads env m P (o.move ws) := by
  cases o with
  | next s u => exact hm.next rfl hR hq
  | halt why s u =>
    cases why with
    | suspended => exact absurd rfl hc
    | _ => exact hm.halt rfl hR hq

theorem step_leads (hd : h.DelayedBy env R) (hu : s.Unsuspended) (hq : q.isPending = false)
    (hR : R w ws.host) (hqs : ws.requests.migrate = false)
    (hm : Mirrors R env m P (step (h.env false) m s ⟨w, q⟩)) : Leads env m P (step env m s ws) := by
  have hs : h.SteadyIn w := hd.steady w ws.host hR
  obtain ⟨x, hx, hsteady⟩ := step_asks m s
  rw [hx] at hm ⊢
  cases hsteady hu with
  | nothing ho => exact hm.leads ho hR hqs
  | @call g args next s1 hg hcalm hlater hres =>
    rw [Query.answer, call_steady hs hg] at hm
    exact answers_leads hlater hres (hd.call g hg args w ws hR hqs) fun ws' hR' hqs' =>
      hm.leads (hcalm _ (hs g hg args).1) hR' hqs'
  | poll _ hfalse htrue =>
    rw [Query.answer, poll_steady hq, hfalse] at hm
    obtain ⟨hR', hqs'⟩ := hd.poll w ws hR hqs
    rw [Query.answer]
    cases (env.poll ws).1 with
    | true => rw [htrue]; exact ⟨hqs', hm.next rfl hR' hqs'⟩
    | false => rw [hfalse]; exact hm.next rfl hR' hqs'

/-- The run without a stop has ended as given, and the other run like it. -/
def EndsLike (R : σ → τ → Prop) (q : Requests) (w : Surroundings σ) (e : Exit) (s : Machine)
    (e' : Exit) (s' : Machine) (ws : Surroundings τ) : Prop :=
  w.requests = q ∧ e' = e ∧ s' = s ∧ R w.host ws.host ∧ ws.requests.migrate = false

/-- A run without a stop leaves the requests as they are, and the run with suspensions ends in the
same way. -/
theorem run_runsOn (hd : h.DelayedBy env R) (hq : q.isPending = false) (hu : s.Unsuspended)
    (hr : run (h.env false) m fuel s ⟨w, q⟩ = some (e, s', w')) (ws : Surroundings τ)
    (hR : R w ws.host) (hqs : ws.requests.migrate = false) :
    ∃ e1 s1 ws1, RunsOn env m s ws e1 s1 ws1 ∧ EndsLike R q w' e s' e1 s1 ws1 := by
  induction fuel generalizing s w ws with
  | zero => cases hr
  | succ fuel ih =>
    have hc := step_calm (m := m) (hd.steady w ws.host hR) hu hq
    refine (step_leads hd hu hq hR hqs ⟨?_, ?_⟩).runsOn
    · intro s1 w1 ws1 ho hR1 hqs1
      rw [run_succ, ho] at hr
      rw [ho] at hc
      obtain ⟨w1, q1⟩ := w1
      obtain ⟨rfl, hu1⟩ := hc
      exact ih hu1 hr ws1 hR1 hqs1
    · intro why s1 w1 ws1 ho hR1 hqs1
      rw [run_succ, ho] at hr
      rw [ho] at hc
      cases hr
      exact ⟨hc.1, rfl, rfl, hR1, hqs1⟩

end

theorem RunsOn.ne_suspended (h : RunsOn env m s w e s' w') : e ≠ .suspended := by
  induction h with
  | ends _ _ he => exact he
  | again _ _ _ _ ih => exact ih

end Machine

/-! ## Instances -/

namespace Instance

def withRequests (i : Instance) (q : Requests) : Instance := { i with requests := q }

@[simp] theorem withRequests_machine (i : Instance) (q : Requests) :
    (i.withRequests q).machine = i.machine := rfl

@[simp] theorem withRequests_phase (i : Instance) (q : Requests) :
    (i.withRequests q).phase = i.phase := rfl

def Progress.withRequests (q : Requests) : Progress → Progress
  | .more i => .more (i.withRequests q)
  | .done (r, i) => .done (r, i.withRequests q)

def Advance.withRequests (q : Requests) (a : Advance) : Advance := (a.1, a.2.withRequests q)

section

variable (q : Requests)

theorem begin_withRequests (i : Instance) (event : Event) (args : List Value) :
    (i.withRequests q).begin event args =
      ((i.begin event args).1, (i.begin event args).2.withRequests q) := by
  rw [begin_eq, begin_eq]
  have hf : (i.withRequests q).handlerOf? event = i.handlerOf? event := rfl
  rw [hf]
  cases i.handlerOf? event with
  | none => rfl
  | some f =>
    have hm : (i.withRequests q).machine.enter (i.withRequests q).module f args =
      i.machine.enter i.module f args := rfl
    dsimp only
    rw [hm]
    cases i.machine.enter i.module f args <;> rfl

theorem proceed_withRequests (i : Instance) (event : Event) {next : Instance → Advance}
    (hn : ∀ j : Instance, next (j.withRequests q) = (next j).withRequests q) :
    proceed ((i.withRequests q).begin event []) next =
      (proceed (i.begin event []) next).withRequests q := by
  rw [begin_withRequests]
  obtain ⟨r, j⟩ := i.begin event []
  cases r with
  | error f => rfl
  | ok called =>
    cases called with
    | true => rfl
    | false => exact hn j

theorem entered_withRequests (i : Instance) :
    (i.withRequests q).entered = i.entered.withRequests q := by
  unfold entered
  rw [withRequests_machine]
  by_cases h : i.machine.pending.isSome
  · rw [if_pos h, if_pos h]; rfl
  · rw [if_neg h, if_neg h]; rfl

theorem exited_withRequests (i : Instance) (next : UInt16) :
    (i.withRequests q).exited next = (i.exited next).withRequests q := by
  unfold exited
  rw [withRequests_machine]
  by_cases h : i.machine.pending.isSome
  · rw [if_pos h, if_pos h]; rfl
  rw [if_neg h, if_neg h]
  exact proceed_withRequests q { i with state := Int32.ofNat next.toNat, phase := .entering }
    .stateEntry (entered_withRequests q)

theorem handled_withRequests (i : Instance) :
    (i.withRequests q).handled = i.handled.withRequests q := by
  unfold handled
  rw [withRequests_machine]
  cases i.machine.pending with
  | none => rfl
  | some next =>
    dsimp only
    by_cases h : Int32.ofNat next.toNat = i.state
    · rw [if_pos (by exact h), if_pos (by exact h)]; rfl
    rw [if_neg (by exact h), if_neg (by exact h)]
    exact proceed_withRequests q { i.clearPending with phase := .exiting next } .stateExit
      fun j => exited_withRequests q j next

theorem advance_withRequests (i : Instance) :
    (i.withRequests q).advance = i.advance.withRequests q := by
  unfold advance
  rw [withRequests_phase]
  cases i.phase with
  | handler => exact handled_withRequests q i
  | exiting next => exact exited_withRequests q i next
  | entering => exact entered_withRequests q i

theorem reset_withRequests (i : Instance) (fuel : Nat) :
    (i.withRequests q).reset fuel = (i.reset fuel).map (·.withRequests q) := by
  unfold reset
  rw [Option.map_map]
  refine map_congr fun ⟨result, machine, u⟩ _ => ?_
  cases result with
  | error e => rfl
  | ok u =>
    exact proceed_withRequests q ({ i with machine, state := 0 } : Instance).finish .stateEntry
      fun _ => rfl

variable {i : Instance}

theorem reset_mono (hf : fuel ≤ fuel') (h : i.reset fuel = some a) : i.reset fuel' = some a := by
  obtain ⟨x, hb, ha⟩ := map_eq_some_iff.1 h
  exact map_eq_some_iff.2 ⟨x, boot_mono hb hf, ha⟩

variable {q}

theorem settled_withRequests (hq : q.migrate = false) (hi : i.requests.migrate = false) :
    (i.withRequests q).settled = (i.settled.1, i.settled.2.withRequests q) := by
  unfold settled
  rw [flush_of_not_migrate hi, flush_of_not_migrate hq]
  rfl

theorem failed_withRequests (hq : q.migrate = false) (hi : i.requests.migrate = false) :
    (i.withRequests q).failed f = ((i.failed f).1, (i.failed f).2.withRequests q) := by
  unfold failed
  rw [flush_of_not_migrate hq,
    flush_of_not_migrate (i := i.abort) hi]
  rfl

theorem conclude_withRequests (hq : q.migrate = false) (ha : a.2.requests.migrate = false) :
    conclude (a.withRequests q) = (conclude a).withRequests q := by
  obtain ⟨r, i⟩ := a
  cases r with
  | error f => exact congrArg Progress.done (failed_withRequests hq ha)
  | ok called =>
    cases called with
    | true => rfl
    | false => exact congrArg Progress.done (settled_withRequests hq ha)

theorem advance_requests (i : Instance) : i.advance.2.requests = i.requests := by
  rw [show i.advance = i.advance.withRequests i.requests from advance_withRequests i.requests i]
  rfl

theorem reset_requests (h : i.reset fuel = some a) : a.2.requests = i.requests := by
  have hw := reset_withRequests i.requests i fuel
  rw [show i.withRequests i.requests = i from rfl, h] at hw
  rw [some.inj hw]
  rfl

/-- Apart from a suspension, the end of a run is followed by the same with other requests. -/
theorem react_withRequests (hq : q.migrate = false) (hi : i.requests.migrate = false) (fuel : Nat)
    (he : e ≠ .suspended) :
    (i.withRequests q).react fuel e = (i.react fuel e).map (·.withRequests q) := by
  cases e with
  | completed v =>
    show some (conclude (i.withRequests q).advance) = some ((conclude i.advance).withRequests q)
    rw [advance_withRequests, conclude_withRequests hq (by rwa [advance_requests])]
  | suspended => exact absurd rfl he
  | fault f => exact congrArg (some ∘ Progress.done) (failed_withRequests hq hi)
  | signal x =>
    cases x with
    | reset =>
      show ((i.withRequests q).reset fuel).map conclude = ((i.reset fuel).map conclude).map _
      rw [reset_withRequests, Option.map_map, Option.map_map]
      refine map_congr fun a ha => ?_
      exact conclude_withRequests hq (by rwa [reset_requests ha])
    | terminate => rfl

theorem react_requests (hi : i.requests.migrate = false) (he : e ≠ .suspended)
    (h : i.react fuel e = some p) : p = p.withRequests i.requests := by
  have hw := react_withRequests hi hi fuel he
  rw [show i.withRequests i.requests = i from rfl, h] at hw
  exact some.inj hw

/-! ## Handlers that are resumed -/

/-- The next handler runs and no call of it is suspended, or the end is not a suspension. -/
def Progress.GoesOn : Progress → Prop :=
  Progress.Meets (fun j => j.status = .running ∧ j.machine.Unsuspended) (·.1 ≠ .ok .suspended)

theorem entering_goesOn {event : Event} {s machine : Machine} (hs : s.frames = [])
    (he : s.enter m f args = .ok machine) :
    Progress.GoesOn (.more (i.entering event args machine)) := by
  refine ⟨rfl, Machine.Unsuspended.enter ?_ he⟩
  intro g hg
  rw [hs] at hg
  cases hg

theorem settled_goesOn (hi : i.status = .idle) : Progress.GoesOn (.done i.settled) := by
  obtain ⟨q, hq⟩ := flush_eq i
  show i.settled.1 ≠ .ok .suspended
  unfold settled
  split
  · simp
  rename_i hj
  rw [hj] at hq
  cases hq
  simp [hi]

theorem react_goesOn (hl : Exit.Leaves i.machine e) (he : e ≠ .suspended)
    (h : i.react fuel e = some p) : p.GoesOn := by
  cases e with
  | completed v =>
    cases h
    have ha := advance_advances i
    generalize i.advance = a at ha
    cases ha with
    | rests _ => exact settled_goesOn rfl
    | calls _ _ _ hx => exact entering_goesOn (by exact hl) hx
    | refuses _ _ _ | nests _ => exact nofun
  | suspended => exact absurd rfl he
  | fault f => cases h; exact nofun
  | signal x =>
    cases x with
    | reset =>
      obtain ⟨a, ha, rfl⟩ := map_eq_some_iff.1 h
      cases reset_resets ha with
      | fails _ | refuses _ _ _ => exact nofun
      | rests _ => exact settled_goesOn rfl
      | calls hb _ hx => exact entering_goesOn (boot_leaves hb) hx
    | terminate => cases h; exact nofun

theorem react_mono (h : i.react fuel e = some p) (hf : fuel ≤ fuel') :
    i.react fuel' e = some p := by
  cases e with
  | signal x =>
    cases x with
    | reset =>
      obtain ⟨a, ha, rfl⟩ := map_eq_some_iff.1 h
      exact map_eq_some_iff.2 ⟨a, reset_mono hf ha, rfl⟩
    | terminate => exact h
  | _ => exact h

/-- More fuel does not change how handlers end. -/
theorem executeIn_mono (h : executeIn env fuel i v = some x)
    (hf : fuel ≤ fuel') : executeIn env fuel' i v = some x := by
  induction fuel generalizing fuel' i v with
  | zero => cases h
  | succ fuel ih =>
    obtain ⟨n, rfl⟩ : ∃ n, fuel' = n + 1 := ⟨fuel' - 1, by omega⟩
    have hf : fuel ≤ n := by omega
    unfold executeIn at h ⊢
    split at h
    · cases h
    rename_i hr
    rw [run_mono hr hf]
    dsimp only at h ⊢
    split at h
    · cases h
    · rename_i hp
      rw [react_mono hp hf]
      exact ih h hf
    · rename_i hp
      rw [react_mono hp hf]
      exact h

theorem executeIn_succ {i : Instance} {p : Progress}
    (hrun : i.machine.run env i.module fuel ⟨v, i.requests⟩ = some (e, s, ws)) :
    (i.ran s ws.requests).react fuel e = some p →
    executeIn env (fuel + 1) i v = match p with
      | .more j => executeIn env fuel j ws.host
      | .done r => some (r, ws.host) := by
  intro hp
  rw [executeIn, hrun]
  dsimp only
  rw [hp]
  cases p <;> rfl

/-- A result, after the instance has been resumed a number of times until it is no longer
suspended. -/
inductive Resumed (env : Env (Surroundings τ)) :
    Result × τ → Nat → Result × τ → Prop
  | rests {i : Instance} {v : τ} : r ≠ .ok .suspended → Resumed env ((r, i), v) 0 ((r, i), v)
  | again {i : Instance} {v : τ} {x y : Result × τ} :
      i.resumeIn env fuel v = some x → Resumed env x n y →
      Resumed env ((.ok .suspended, i), v) (n + 1) y

/-- What handlers that run now end with, when they are resumed until they are no longer
suspended. -/
def Drives (env : Env (Surroundings τ)) (i : Instance) (v : τ)
    (y : Result × τ) : Prop :=
  ∃ fuel x n, executeIn env fuel i v = some x ∧ Resumed env x n y

/-- What the reaction to the end of a run ends with. -/
def Progress.Drives (env : Env (Surroundings τ)) (v : τ)
    (y : Result × τ) : Progress → Prop
  | .more j => j.Drives env v y
  | .done r => y = (r, v) ∧ r.1 ≠ .ok .suspended

end

variable {env : Env (Surroundings τ)}

def running (i : Instance) (s : Machine) (q : Requests) : Instance :=
  { i with machine := s, requests := q, status := .running }

theorem running_eq {i : Instance} (hi : i.status = .running) :
    i.running s q = i.ran s q := by
  unfold running
  rw [← hi]

/-- A run that is resumed whenever it is suspended is a part of handlers that are. -/
theorem drives_of_runsOn (i : Instance) (hr : Machine.RunsOn env i.module s w e s' w')
    (hp : (i.running s' w'.requests).react fuel e = some p) (hy : p.Drives env w'.host y) :
    (i.running s w.requests).Drives env w.host y := by
  induction hr with
  | @ends fuel0 s s' w w' e hrun he =>
    cases p with
    | more j =>
      obtain ⟨fuel1, x, n, hx, hn⟩ := hy
      refine ⟨max fuel0 (max fuel fuel1) + 1, x, n, ?_, hn⟩
      refine (executeIn_succ (i := i.running s w.requests) (run_mono hrun ?_)
        (react_mono hp ?_)).trans (executeIn_mono hx ?_) <;> omega
    | done r =>
      obtain ⟨rfl, hne⟩ := hy
      refine ⟨max fuel0 fuel + 1, (r, w'.host), 0, ?_, .rests hne⟩
      refine executeIn_succ (i := i.running s w.requests) (run_mono hrun ?_) (react_mono hp ?_) <;>
        omega
  | @again fuel0 s s1 s' w w1 w' e hrun hq _ ih =>
    obtain ⟨fuel1, x, n, hx, hn⟩ := ih hp hy
    -- the first resume goes on with the machine of the suspension
    have hres : ({ i.running s1 (Machine.resumed w1).requests with status := .suspended } :
        Instance).resumeIn env fuel1 w1.host = some x := by
      unfold resumeIn
      rw [if_pos rfl]
      exact hx
    refine ⟨fuel0 + 1, _, n + 1, ?_, .again hres hn⟩
    unfold executeIn
    rw [show (i.running s w.requests).machine.run env (i.running s w.requests).module fuel0
      ⟨w.host, (i.running s w.requests).requests⟩ = some (.suspended, s1, w1) from hrun]
    show some (settled _, _) = _
    unfold settled
    rw [flush_of_not_migrate hq]
    rfl

variable {h : Host σ} {R : σ → τ → Prop}

theorem migrate_of_not_pending {q : Requests} (hq : q.isPending = false) : q.migrate = false := by
  exact (Bool.or_eq_false_iff.1 hq).2

theorem drives_of_executeIn (hd : h.DelayedBy env R) {fuel : Nat} (hi : i.status = .running)
    (hp : i.requests.isPending = false) (hu : i.machine.Unsuspended) (hR : R w v)
    (hq : q.migrate = false) (he : executeIn (h.env false) fuel i w = some ((r, i'), w')) :
    ∃ q' v', (i.withRequests q).Drives env v ((r, i'.withRequests q'), v') ∧ R w' v' := by
  induction fuel generalizing i w v q with
  | zero => cases he
  | succ fuel ih =>
    unfold executeIn at he
    split at he
    · cases he
    rename_i hr
    obtain ⟨e, s, ws1, hruns, hws, rfl, rfl, hR1, hq1⟩ := run_runsOn hd hp hu hr ⟨v, q⟩ hR hq
    have hne := hruns.ne_suspended
    have hmig := migrate_of_not_pending hp
    rw [hws] at he
    -- the two reactions differ in the requests only
    have hreact : ∀ p, ({ i with machine := s } : Instance).react fuel e = some p →
        (i.running s ws1.requests).react fuel e = some (p.withRequests ws1.requests) := by
      intro p hp
      have hw := react_withRequests hq1 (i := { i with machine := s }) hmig fuel hne
      rw [hp] at hw
      rw [running_eq hi]
      exact hw
    have hrun : i.withRequests q = i.running i.machine q := (running_eq hi).symm
    rw [hrun]
    split at he
    · cases he
    · rename_i j hj
      obtain ⟨hrunning, huj⟩ : Progress.GoesOn (.more j) :=
        react_goesOn (run_leaves hr) hne hj
      have hjq : j.requests = i.requests := by
        have hw := react_requests (i := { i with machine := s }) hmig hne hj
        have hj := Progress.more.inj hw
        rw [hj]; rfl
      obtain ⟨q', v', hd', hR'⟩ := ih hrunning (by rwa [hjq]) huj hR1 hq1 he
      exact ⟨q', v', drives_of_runsOn i hruns (hreact _ hj) hd', hR'⟩
    · rename_i hj
      cases he
      have hne' := react_goesOn (run_leaves hr) hne hj
      exact ⟨ws1.requests, ws1.host, drives_of_runsOn i hruns (hreact _ hj) ⟨rfl, hne'⟩, hR1⟩

theorem refusal?_withRequests (i : Instance) (q : Requests) (event : Event) (args : List Value) :
    (i.withRequests q).refusal? event args = i.refusal? event args := rfl

/-- An event that is handled with suspensions, and resumed until it is no longer suspended, ends
after finitely many resumes as it does without a stop: with the same result, and in an instance
that differs in the requests that it has got only. -/
theorem suspension_transparent {m : Module} {settings : Settings} {Allowed : Allows}
    {Given : List Value → Prop} {i i' : Instance} (hi : Reachable m settings Allowed Given i)
    (hp : i.requests.isPending = false) (hd : h.DelayedBy env R) {w w' : σ} {v : τ} (hR : R w v)
    {q : Requests} (hq : q.migrate = false) {fuel : Nat} {event : Event} {args : List Value}
    {r : Except PlacedFault Status}
    (hs : i.startIn (h.env false) fuel event args w = some ((r, i'), w')) :
    ∃ fuel' first n q' v',
      (i.withRequests q).startIn env fuel' event args v = some first ∧
      Resumed env first n ((r, i'.withRequests q'), v') ∧ R w' v' := by
  have hmig := migrate_of_not_pending hp
  rw [startIn_eq] at hs
  simp only [startIn_eq, refusal?_withRequests]
  cases hr : i.refusal? event args with
  | some f =>
    rw [hr] at hs
    cases hs
    exact ⟨0, _, 0, q, v, rfl, .rests nofun, hR⟩
  | none =>
    obtain ⟨hidle, -, -, -⟩ := refusal?_eq_none hr
    rw [hr, flush_of_not_migrate hmig] at hs
    rw [flush_of_not_migrate hq]
    have hb := begin_withRequests q (i.readied i.requests) event args
    dsimp only at hs ⊢
    change ∃ fuel' first n q' v',
      delivered env fuel' v (((i.readied i.requests).withRequests q).begin event args) = some first ∧ _
    rw [hb]
    obtain hc | ⟨f, -, ⟨e, -, hc⟩ | ⟨machine, hx, hc⟩⟩ :=
      begin_cases (i.readied i.requests) event args
    · rw [hc] at hs ⊢
      cases hs
      refine ⟨0, _, 0, q, v, rfl, .rests ?_, hR⟩
      show Except.ok i.status ≠ .ok .suspended
      rw [hidle]; nofun
    · rw [hc] at hs ⊢
      cases hs
      exact ⟨0, _, 0, q, v, rfl, .rests nofun, hR⟩
    · rw [hc] at hs ⊢
      have hu : machine.Unsuspended := by
        refine Machine.Unsuspended.enter ?_ hx
        intro g hg
        rw [show (i.readied i.requests).machine.frames = [] from hi.frames_of_idle hidle] at hg
        cases hg
      obtain ⟨q', v', ⟨fuel', x, n, hx, hn⟩, hR'⟩ :=
        drives_of_executeIn (i := (i.readied i.requests).entering event args machine)
          hd rfl hp hu hR hq hs
      exact ⟨fuel', x, n, q', v', hx, hn, hR'⟩

end Instance

/-! ## The recording host -/

namespace Recorder

def yielding (r : Recorder) : Recorder := { r with yields := true }

theorem answer_yielding (hf : f.name ≠ "llSleep") :
    answer f args r.yielding = ((answer f args r).1, (answer f args r).2.yielding) := by
  unfold answer
  split
  case h_3 hn => exact absurd hn hf
  case h_11 => dsimp only; split <;> rfl
  all_goals rfl

theorem answer_sleep (hf : f.name = "llSleep") :
    answer f args r = if r.yields then (.error .suspend, r) else (.ok (.default f.ret), r) := by
  obtain ⟨name, _⟩ := f
  cases hf
  rfl

theorem answer_steady (f : ApiFunction) (args : List Value) (hr : r.yields = false) :
    (answer f args r).1 ≠ .error .suspend ∧ (answer f args r).2.yields = false := by
  unfold answer
  split
  case h_3 => simp [hr]
  case h_11 => dsimp only; split <;> exact ⟨nofun, hr⟩
  all_goals exact ⟨nofun, hr⟩

def logged (f : ApiFunction) (args : List Value) (r : Recorder) : Recorder :=
  { r with log := ⟨f.name, args⟩ :: r.log }

theorem call_eq (f : ApiFunction) (args : List Value) (r : Recorder) : call f args r =
      match ApiFunction.pure? f.name args with
      | some v => ⟨.ok v, r, []⟩
      | none => ⟨(answer f args (r.logged f args)).1, (answer f args (r.logged f args)).2, []⟩ := by
  rfl

theorem call_steady (hr : r.yields = false) :
    (call f args r).answer ≠ .error .suspend ∧ (call f args r).posts = [] ∧
      (call f args r).state.yields = false := by
  rw [call_eq]
  split
  · exact ⟨nofun, rfl, hr⟩
  · have ha := answer_steady f args (r := r.logged f args) hr
    exact ⟨ha.1, rfl, ha.2⟩

theorem ret_of_sleep : ∀ f ∈ ApiFunction.table, f.name = "llSleep" → f.ret = .void := by decide

theorem delayedBy_yielding : Host.recording.DelayedBy (Host.recording.env true)
      fun w v => w.yields = false ∧ v = w.yielding where
  steady w v hR f _ args := ⟨(call_steady hR.1).1, (call_steady hR.1).2.1⟩
  poll w s hR hq := ⟨hR, hq⟩
  call f hf args w s hR hq := by
    obtain ⟨hw, hv⟩ := hR
    obtain ⟨v, q⟩ := s
    cases hv
    show Answers _ _ f args (call f args w) ((call f args w.yielding).answer,
      ⟨(call f args w.yielding).state, (call f args w.yielding).posts.foldl Requests.post q⟩)
    rw [call_eq, call_eq]
    cases ApiFunction.pure? f.name args with
    | some a => exact .now ⟨hw, rfl⟩ hq
    | none =>
      rw [show w.yielding.logged f args = (w.logged f args).yielding from rfl]
      by_cases hn : f.name = "llSleep"
      · -- the sleep is over when the call is resumed
        have hsleep : answer f args (w.logged f args) = (.ok .undefined, w.logged f args) := by
          rw [answer_sleep hn, ret_of_sleep f hf hn, if_neg (by simp [logged, hw])]
          rfl
        have hyield : answer f args (w.logged f args).yielding =
            (.error .suspend, (w.logged f args).yielding) := by
          rw [answer_sleep hn, if_pos (by rfl)]
        rw [hsleep, hyield]
        refine .later hq fun q' hq' => ?_
        have hres : (Host.recording.env true).resume f args ⟨(w.logged f args).yielding, q'⟩ =
            (.ok .undefined, ⟨(w.logged f args).yielding, q'⟩) := by
          show Host.ask (resume f args) _ = _
          unfold Host.ask resume
          rw [if_pos hn]
          rfl
        rw [hres]
        exact .now ⟨hw, rfl⟩ hq'
      · rw [answer_yielding hn]
        exact .now ⟨(answer_steady f args (r := w.logged f args) hw).2, rfl⟩ hq

end Recorder

def sleeper : String :=
  "default \x7b state_entry() \x7b llSleep(1.0); llSay(0, \"bye\"); state rest; \x7d \x7d
   state rest \x7b state_entry() \x7b llSleep(2.0); \x7d \x7d"

/-- The sleeper makes three calls without a stop, and ends like this with suspensions too. -/
theorem sleeper_transparent :
    Script.Sample sleeper "sleeper" 100 fun _ _ i =>
      ∃ i' w',
      i.startIn (Host.recording.env false) 100 .stateEntry [] {} = some ((.ok .idle, i'), w') ∧
      w'.calls.map (·.function) = ["llSleep", "llSay", "llSleep"] ∧
      ∃ fuel first n q v,
        (i.withRequests { suspend := true }).startIn (Host.recording.env true) fuel .stateEntry []
          (Recorder.yielding {}) = some first ∧
      Instance.Resumed (Host.recording.env true) first n ((.ok .idle, i'.withRequests q), v) ∧
      w'.yields = false ∧ v = w'.yielding := by
  refine .of_test (fun _ _ i =>
      ∃ x ∈ i.startIn (Host.recording.env false) 100 .stateEntry [] {}, x.1.1 = .ok .idle ∧
        x.2.calls.map (·.function) = ["llSleep", "llSay", "llSleep"]) ?_
  rintro _ m i hs hm hmade ⟨⟨⟨_, i'⟩, w'⟩, hstart, rfl, hcalls⟩
  refine ⟨i', w', hstart, hcalls, ?_⟩
  have hnew : Instance.Arises m {} i := .new hmade
  have hp : i.requests.isPending = false := by rw [Instance.new_requests hmade]; rfl
  exact Instance.suspension_transparent hnew hp Recorder.delayedBy_yielding ⟨rfl, rfl⟩ rfl hstart

end EventScript
