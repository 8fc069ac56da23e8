import EventScript.Proofs.Code.Proper

/-!
# Checkpoints

A machine that is to stop at the next checkpoint stops, whatever its script does
(`Module.runs_interruptible`).

1. Code: a jump goes forward or to a checkpoint, and a call goes to a function that comes to a
   checkpoint before its first statement. The initializer neither jumps nor calls.
2. Steps: a machine that goes on comes nearer to the ends of the active functions, calls a function
   or jumps back (`Machine.Moves`).
3. Runs: a machine that has called a function or jumped back is about to stop.
-/

namespace EventScript

open List Option

/-- The instruction gives a new frame its cost and its variables their first values. -/
def Op.prepares : Op → Bool
  | .memStatic _ | .memIncr _ | .pushDefault _ | .storeLocal _ => true
  | _ => false

namespace Compile

theorem prepares_entryOps (Y : Layout) : ∀ op ∈ .memStatic Y.frameStatic ::
      (Y.outer.dynamicSlots.map fun slot => .memIncr (.localVar slot)) ++ initOps Y.body.vars,
      op.prepares = true :=
  forall_mem_append.2 ⟨forall_mem_cons.2 ⟨rfl, forall_mem_map.2 fun _ _ => rfl⟩,
    forall_mem_initOps (fun _ => rfl) fun _ _ => rfl⟩

theorem target?_of_prepares {op : Op} (h : op.prepares = true) : op.target? = none := by
  cases op with
  | memStatic | memIncr | pushDefault | storeLocal => rfl
  | _ => cases h

end Compile

open Compile

/-! ## Functions -/

/-- A jump that does not go forward goes to a checkpoint. -/
def Function.Checkpointed (g : Function) : Prop :=
  ∀ (pc : Nat) (op : Op) (target : UInt32), g.ops[pc]? = some op → op.target? = some target →
    target.toNat ≤ pc → g.ops[target.toNat]? = some .checkRun

/-- The function comes to a checkpoint before its first statement. -/
def Function.Opens (g : Function) : Prop :=
  ∃ entry body, g.ops.toList = entry ++ .checkRun :: body ∧ ∀ op ∈ entry, op.prepares = true

/-- The function only jumps forward, and calls no function. -/
def Function.Descends (g : Function) : Prop :=
  ∀ (pc : Nat) (op : Op), g.ops[pc]? = some op →
    (∀ target, op.target? = some target → pc < target.toNat) ∧ ∀ i, op ≠ .call i

/-- What keeps a module responsive. The functions and handlers of the script come before the
initializer. -/
structure Module.Responsive (m : Module) : Prop where
  checkpointed : ∀ i g, m.function? i = some g → g.Checkpointed
  opens : ∀ i g, m.function? i = some g → i.toNat < m.init.toNat → g.Opens
  calls : ∀ i g, m.function? i = some g → ∀ (pc : Nat) (j : UInt16),
    g.ops[pc]? = some (.call j) → j.toNat < m.init.toNat
  descends : ∀ g, m.function? m.init = some g → g.Descends

theorem Compile.Each.op {g : Function} (h : Each P 0 g.ops.toList) {op : Op}
    (hop : g.ops[pc]? = some op) : P pc op := by
  have := each_iff.1 h pc op (by rw [Array.getElem?_toList, hop])
  rwa [Nat.zero_add] at this

theorem Module.Coded.responsive {m : Module} {script : Script} (h : m.Coded script tests) :
    m.Responsive := by
  obtain ⟨Y, hlaid⟩ := h.exists_laid
  have hfunctions : (m.linkage tests).functions.length ≤ m.init.toNat := by
    show (map _ _).length ≤ _
    rw [length_map, length_take]
    exact Nat.min_le_left _ _
  have hproper : ∀ i g, m.function? i = some g → ∃ r : Ranges, r.functions ≤ m.init.toNat ∧
      Each (Op.Proper (fun pc => g.ops[pc]? = some .checkRun) r) 0 g.ops.toList := by
    intro i g hg
    by_cases hi : i.toNat < m.init.toNat
    · obtain ⟨f, -, -, -, hcode⟩ := hlaid i g hg hi
      refine ⟨_, hfunctions, hcode.proper (Linkage.within_ranges _ g.ops.toList.length) rfl
        (each_iff.2 fun k op hk hop => ?_)⟩
      show g.ops[0 + k]? = _
      rw [Nat.zero_add, ← Array.getElem?_toList, hk, hop]
    · exact ⟨_, hfunctions, (h.init_of_ge hg hi).2.proper
        (Linkage.within_ranges _ g.ops.toList.length) (Nat.zero_add _).le⟩
  refine ⟨fun i g hg pc op target hop htarget hle => ?_, fun i g hg hi => ?_,
    fun i g hg pc j hop => ?_, fun g hg pc op hop => ?_⟩
  · obtain ⟨r, -, hproper⟩ := hproper i g hg
    exact ((hproper.op hop).jump target htarget).resolve_left (Nat.not_lt.2 hle)
  · obtain ⟨f, -, -, -, hcode⟩ := hlaid i g hg hi
    generalize hops : g.ops.toList = ops at hcode
    obtain @⟨Λ, id, fresh, code, l⟩ := hcode
    refine ⟨_, code ++ returnDefaultOps (m.frameLinkage tests g (Y i)) (Y i).frame, ?_,
      prepares_entryOps (Y i)⟩
    rw [hops]
    simp only [Layout.enterOps, append_assoc, cons_append, nil_append]
  · obtain ⟨r, hr, hproper⟩ := hproper i g hg
    exact (of_decide_eq_true (hproper.op hop).within).trans_le hr
  · rw [← Array.getElem?_toList] at hop
    have hdeparts := (h.init_of_ge hg (Nat.lt_irrefl _)).2.departs op (mem_of_getElem? hop)
    cases op with
    | jump | jumpIfFalse | jumpIfTrue | jumpIfNoStateChange | call => cases hdeparts
    | _ =>
      refine ⟨fun target h => ?_, fun i h => ?_⟩ <;> cases h

/-! ## Steps -/

namespace Machine

variable {ω : Type} {env : Env ω}

def Stands (s : Machine) (function : UInt16) (pc : Nat) : Prop :=
  ∃ f fs, s.frames = f :: fs ∧ f.receiver = .script ∧ f.function = function ∧ f.pc = pc

/-- Where a machine is after an instruction: after it or where it jumps to, in a function that it
calls, or back in the caller. -/
inductive Lands (m : Module) (f : Frame) (s : Machine) (op : Op) (s' : Machine) : Prop
  | top : s'.frames = f' :: s.frames.tail → f'.receiver = f.receiver → f'.function = f.function →
      (f'.pc = f.pc ∨ ∃ target, op.target? = some target ∧ f'.pc = target.toNat) → Lands m f s op s'
  | called : op = .call i → m.function? i = some g → s'.Stands i 0 → Lands m f s op s'
  | returned : op = .ret → s.frames.tail = caller :: callers → s'.frames = caller' :: callers →
      caller'.function = caller.function → caller'.pc = caller.pc → Lands m f s op s'

theorem Does.lands {ret : Ty} (h : Does env m ret f s w op s' w') : Lands m f s op s' := by
  cases h with
  | store var _ _ | @arraySet var => cases var <;> exact .top rfl rfl rfl (.inl rfl)
  | jump => exact .top rfl rfl rfl (.inr ⟨_, rfl, rfl⟩)
  | jumpIfFalse | jumpIfTrue =>
    refine .top rfl rfl rfl ?_
    split
    · exact .inr ⟨_, rfl, rfl⟩
    · exact .inl rfl
  | jumpIfNoStateChange =>
    split
    · exact .top rfl rfl rfl (.inr ⟨_, rfl, rfl⟩)
    · exact .top rfl rfl rfl (.inl rfl)
  | call _ _ he =>
    obtain ⟨g', hg', -, rfl⟩ := enter_ok he
    exact .called rfl hg' ⟨_, _, rfl, rfl, rfl, rfl⟩
  | callApi _ _ _ =>
    unfold answered
    split <;> exact .top rfl rfl rfl (.inl rfl)
  | ret _ hcallers =>
    split <;> exact .returned rfl hcallers rfl rfl rfl
  | _ => exact .top rfl rfl rfl (.inl rfl)

def distance (m : Module) (s : Machine) : Nat :=
  (s.frames.map fun f => (m.function? f.function).elim 0 (fun g => g.ops.size - f.pc) + 1).sum

/-- How a machine goes on: nearer to the ends of the active functions, at the start of another
function, or at a place that it has been at. -/
inductive Moves (m : Module) (s s' : Machine) : Prop
  | nearer : s'.distance m < s.distance m →
      s'.frames.map Frame.function ⊆ s.frames.map Frame.function → Moves m s s'
  | calls {i : UInt16} : s.frames = f :: fs →
      m.function? f.function = some g → g.ops[f.pc]? = some (.call i) → m.function? i = some g' →
      s'.Stands i 0 → Moves m s s'
  | back : s.frames = f :: fs → m.function? f.function = some g → g.ops[f.pc]? = some op →
      op.target? = some target → target.toNat ≤ f.pc → s'.Stands f.function target.toNat →
      Moves m s s'

theorem nearer_of_return
    (hframes : s.frames = f :: caller :: fs) (hframes' : s'.frames = caller' :: fs)
    (hf : caller'.function = caller.function) (hpc : caller'.pc = caller.pc) : Moves m s s' := by
  refine .nearer ?_ ?_
  · unfold distance
    simp only [hframes, hframes', map_cons, sum_cons, hf, hpc]
    omega
  · simp only [hframes, hframes', map_cons, hf]
    exact subset_cons_self _ _

theorem step_moves (h : step env m s w = .next s' w') : Moves m s s' := by
  cases step_goes h with
  | answers hframes hr _ _ =>
    refine nearer_of_return hframes rfl ?_ ?_ <;> unfold answered <;> split <;> rfl
  | @runs f fs g op s' w' hframes hr hg hop hdoes =>
    have htail : s.frames.tail = fs := by rw [hframes]; rfl
    cases hdoes.lands with
    | called hcall hg' hstands =>
      subst hcall
      exact .calls hframes hg hop hg' hstands
    | returned hret hcallers hframes' hf hpc =>
      rw [htail] at hcallers
      subst hcallers
      exact nearer_of_return hframes hframes' hf hpc
    | @top f' hframes' hr' hf hpc =>
      rw [htail] at hframes'
      -- it has gone forward unless it has jumped back
      by_cases hforward : f.pc < f'.pc
      · refine .nearer ?_ ?_
        · have hlt := (Array.getElem?_eq_some_iff.1 hop).1
          unfold distance
          simp only [hframes, hframes', map_cons, sum_cons, hf, hg, elim_some]
          omega
        · simp only [hframes, hframes', map_cons, hf]
          exact List.Subset.refl _
      · rcases hpc with hpc | ⟨target, htarget, hpc⟩
        · dsimp only at hpc
          omega
        · exact .back hframes hg hop htarget (by omega) ⟨f', fs, hframes', hr'.trans hr, hf, hpc⟩

/-! ## Runs -/

def Ends (env : Env ω) (m : Module) (s : Machine) (w : ω) : Prop :=
  ∃ fuel e s' w', run env m fuel s w = some (e, s', w')

theorem Ends.of_step (h : ∀ s' w', step env m s w = .next s' w' → Ends env m s' w') :
    Ends env m s w := by
  cases hstep : step env m s w with
  | halt why s' w' => exact ⟨1, exit m s' why, s', w', by rw [run, hstep]⟩
  | next s' w' =>
    obtain ⟨fuel, e, s'', w'', hrun⟩ := h s' w' hstep
    exact ⟨fuel + 1, e, s'', w'', by rw [run, hstep]; exact hrun⟩

section

variable (hpoll : ∀ w, (env.poll w).1 = true)
include hpoll

theorem Stands.ends_at (hs : s.Stands i pc)
    (hg : m.function? i = some g) (hop : g.ops[pc]? = some .checkRun) : Ends env m s w := by
  obtain ⟨f, fs, hframes, hr, rfl, rfl⟩ := hs
  refine .of_step fun s' w' hstep => ?_
  rw [step_script hframes hr hg hop] at hstep
  simp only [exec, check] at hstep
  split at hstep
  · cases hstep
  have hstop := hpoll w
  split at hstep
  · cases hstep
  rename_i hgo
  rw [hgo] at hstop
  cases hstop

theorem Stands.ends_before (hs : s.Stands i pc) (hg : m.function? i = some g)
    (hcode : g.ops.toList.drop pc = entry ++ .checkRun :: body)
    (hentry : ∀ op ∈ entry, op.prepares = true) : Ends env m s w := by
  induction entry generalizing s w pc with
  | nil =>
    have hop := (drop_eq_cons hcode).1
    rw [Array.getElem?_toList] at hop
    exact hs.ends_at hpoll hg hop
  | cons op entry ih =>
    obtain ⟨hop, hrest⟩ := drop_eq_cons hcode
    rw [Array.getElem?_toList] at hop
    have hprepares := hentry op mem_cons_self
    obtain ⟨f, fs, hframes, hr, rfl, rfl⟩ := hs
    refine .of_step fun s' w' hstep => ih ?_ hrest (forall_mem_cons.1 hentry).2
    rw [step_script hframes hr hg hop] at hstep
    cases (exec_does hstep).lands with
    | called hcall _ _ => rw [hcall] at hprepares; cases hprepares
    | returned hret _ _ _ _ => rw [hret] at hprepares; cases hprepares
    | @top f' hframes' hr' hf hpc =>
      refine ⟨f', _, hframes', hr'.trans hr, hf, hpc.resolve_right ?_⟩
      rintro ⟨target, htarget, -⟩
      rw [target?_of_prepares hprepares] at htarget
      cases htarget

/-- A machine that is to stop at each checkpoint stops. -/
theorem ends_of_responsive (hm : m.Responsive) (s : Machine) (w : ω) : Ends env m s w := by
  induction hn : s.distance m using Nat.strongRecOn generalizing s w with
  | _ n ih =>
    refine .of_step fun s' w' hstep => ?_
    cases step_moves hstep with
    | nearer hlt _ => exact ih _ (hn ▸ hlt) s' w' rfl
    | calls hframes hg hop hg' hstands =>
      obtain ⟨entry, body, hcode, hentry⟩ := hm.opens _ _ hg' (hm.calls _ _ hg _ _ hop)
      exact hstands.ends_before hpoll hg' hcode hentry
    | back hframes hg hop htarget hle hstands =>
      exact hstands.ends_at hpoll hg (hm.checkpointed _ _ hg _ _ _ hop htarget hle)

end

/-- The initializer ends, with or without stops. -/
theorem boot_ends (hm : m.Responsive) (s : Machine) (w : ω) :
    ∃ fuel r s' w', s.boot env m fuel w = some (r, s', w') := by
  -- no function but the initializer is active
  have hends : ∀ (s : Machine) (w : ω), (∀ f ∈ s.frames, f.function = m.init) →
      Ends env.unpolled m s w := by
    intro s w hs
    induction hn : s.distance m using Nat.strongRecOn generalizing s w with
    | _ n ih =>
      have hdescends {f : Frame} {fs : List Frame} {g : Function} {op : Op}
          (hframes : s.frames = f :: fs) (hg : m.function? f.function = some g)
          (hop : g.ops[f.pc]? = some op) :
          (∀ target, op.target? = some target → f.pc < target.toNat) ∧ ∀ i, op ≠ .call i := by
        rw [hs f (hframes ▸ mem_cons_self)] at hg
        exact hm.descends g hg f.pc op hop
      refine .of_step fun s' w' hstep => ?_
      cases step_moves hstep with
      | nearer hlt hsub =>
        refine ih _ (hn ▸ hlt) s' w' (fun f hf => ?_) rfl
        obtain ⟨f', hf', heq⟩ := mem_map.1 (hsub (mem_map_of_mem hf))
        exact heq ▸ hs f' hf'
      | calls hframes hg hop _ _ => exact absurd rfl ((hdescends hframes hg hop).2 _)
      | back hframes hg hop htarget hle _ =>
        exact absurd ((hdescends hframes hg hop).1 _ htarget) (Nat.not_lt.2 hle)
  unfold boot
  dsimp only
  cases he : (s.rewound m).enter m m.init [] with
  | error f => exact ⟨0, _, _, _, rfl⟩
  | ok s0 =>
    have hinit : ∀ f ∈ s0.frames, f.function = m.init := by
      obtain ⟨g, -, -, rfl⟩ := enter_ok he
      exact forall_mem_singleton.2 rfl
    obtain ⟨fuel, e, s', w', hrun⟩ := hends s0 w hinit
    refine ⟨fuel, bootResult e, s', w', ?_⟩
    dsimp only
    rw [hrun]
    rfl

end Machine

/-! ## Compiled modules -/

/-- A compiled script stays responsive. Its jumps go forward or to checkpoints, its functions and
handlers come to a checkpoint before their first statement, and its initializer neither jumps back nor
calls. So a machine that is to stop at the next checkpoint stops, wherever it is in the script and
whatever the host answers, and the initializer ends. -/
theorem Module.runs_interruptible {source name : String} {script : Script} {m : Module}
    (hs : Script.ofSource source = .ok script) (hm : Module.ofSource source name = .ok m) :
    (∀ i g, m.function? i = some g → g.Checkpointed) ∧
    (∀ i g, m.function? i = some g → i.toNat < m.init.toNat → g.Opens) ∧
    (∀ g, m.function? m.init = some g → g.Descends) ∧
    (∀ {ω : Type} (env : Env ω), (∀ w, (env.poll w).1 = true) → ∀ (s : Machine) (w : ω),
      ∃ fuel e s' w', s.run env m fuel w = some (e, s', w')) ∧
    ∀ {ω : Type} (env : Env ω) (s : Machine) (w : ω),
      ∃ fuel r s' w', s.boot env m fuel w = some (r, s', w') := by
  have hcoded := Module.ofSource_coded hs hm
  have hr := hcoded.responsive
  exact ⟨hr.checkpointed, hr.opens, hr.descends, fun env hpoll => Machine.ends_of_responsive hpoll hr,
    fun env => Machine.boot_ends hr⟩

def treadmill : String :=
  "integer laps = 3;
   integer walk(integer k) \x7b
     @again; if (++k < laps) jump again;
     do \x7b integer rest = k; while (rest) --rest; \x7d while (walk(k - 2));
     return 1; \x7d
   default \x7b touch_start(integer c) \x7b for (;;) walk(c); \x7d \x7d"

set_option maxRecDepth 10000 in
/-- The treadmill jumps back, and six calls deep it stops when it is to. -/
theorem treadmill_interruptible :
    Script.Sample treadmill "treadmill" 100 fun _ m i =>
      ∃ g i₀ s w, m.function? 0 = some g ∧ g.ops[11]? = some (.jump 2) ∧
      i.begun? (.start .touchStart [.integer 1]) = some i₀ ∧
      i₀.machine.after? (Host.recording.env false) m 300 ⟨{}, i₀.requests⟩ = some (s, w) ∧
      s.frames.length = 6 ∧
      ∃ fuel e s' w', s.run (Host.recording.env true) m fuel w = some (e, s', w') := by
  refine .of_test (fun _ m i =>
      ∃ g ∈ m.function? 0,
      ∃ i₀ ∈ i.begun? (.start .touchStart [.integer 1]),
      ∃ x ∈ i₀.machine.after? (Host.recording.env false) m 300 ⟨{}, i₀.requests⟩,
        g.ops[11]? = some (.jump 2) ∧ x.1.frames.length = 6) ?_
  rintro script m i hs hm hmade ⟨g, hg, i₀, hbegun, ⟨s, w⟩, hafter, hjump, hframes⟩
  obtain ⟨-, -, -, hstops, -⟩ := Module.runs_interruptible hs hm
  exact ⟨g, i₀, s, w, hg, hjump, hbegun, hafter, hframes,
    hstops (Host.recording.env true) (fun _ => rfl) s w⟩

end EventScript
