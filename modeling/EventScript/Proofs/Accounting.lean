import EventScript.Proofs.Code.Memory
import EventScript.Proofs.Courses
import EventScript.Proofs.Soundness

/-!
# The memory in use

The memory in use of an idle instance is what its global variables cost, and at a checkpoint each
active call adds what its frame and its variables cost (`Instance.memory_balanced`). It is so
whatever an instance goes through, as long as no sum leaves the range of words (`Machine.Exact`) and
nothing faults: in compiled code each frame has a number, and their sum follows the memory in use
step by step (`Machine.Accounts`).
-/

namespace EventScript

open List Option Annotation Machine

open Compile

/-! ## Steps -/

theorem Word.toInt_clamp (h : Word.least ≤ n ∧ n ≤ Word.greatest) : (Word.clamp n).toInt = n := by
  unfold Word.clamp
  unfold Word.least Word.greatest at *
  rw [if_neg (by omega), if_neg (by omega)]
  exact Int32.toInt_ofInt_of_le (by omega) (by omega)

def Module.cost (m : Module) (globals : List Value) : Int :=
  globalsCost (m.globals.map GlobalSlot.ty) globals

namespace Machine

variable {ω : Type} {s s' : Machine}

/-- What the next instruction adds to the memory in use does not lead out of the range of words. -/
def Exact (m : Module) (s : Machine) : Prop :=
  Word.least ≤ s.memUsage.toInt + s.adds m ∧ s.memUsage.toInt + s.adds m ≤ Word.greatest

instance : Decidable (s.Exact m) := inferInstanceAs (Decidable (_ ∧ _))

theorem step_memUsage (h : step env m s w = .next s' w') (hs : s.Exact m) :
    s'.memUsage.toInt = s.memUsage.toInt + s.adds m := by
  cases step_goes h with
  | @runs f fs g op s' w' hframes hr hg hop hdoes =>
    have hadds : s.adds m = s.opAdds f op := by
      simp only [adds, nextOp?, hframes, hr, hg, hop, bind_some, map_some, Option.elim]
    have hvar (var : VarRef) : s.var? { f with pc := f.pc + 1 } var = s.var? f var := by
      cases var <;> rfl
    rw [Exact, hadds] at hs
    rw [hadds]
    cases hdoes with
    | operands ho _ =>
      have hzero : s.opAdds f op = 0 := by cases op <;> first | rfl | cases ho
      rw [hzero]
      exact (Int.add_zero _).symm
    | memStatic => exact Word.toInt_clamp hs
    | memIncr hv | memDecr hv =>
      rw [hvar] at hv
      rw [opAdds, hv] at hs ⊢
      exact Word.toInt_clamp hs
    | load var _ | store var _ _ | @arraySet var _ _ _ _ _ _ _ _ =>
      cases var <;> exact (Int.add_zero _).symm
    | call _ _ he =>
      obtain ⟨g, -, -, rfl⟩ := enter_ok he
      exact (Int.add_zero _).symm
    | _ => exact (Int.add_zero _).symm
  | answers hframes hr _ _ =>
    have hzero : s.adds m = 0 := by simp only [adds, nextOp?, hframes, hr, Option.elim]
    rw [hzero]
    exact (Int.add_zero _).symm

/-- The memory in use is what the frames and the global variables account for. -/
def Accounts (P : Annotation) (m : Module) (s : Machine) : Prop :=
  ∃ κs, P.Conforms m s.globals s.frames κs ∧ s.memUsage.toInt = P.total s.globals κs

variable {P : Annotation} (hP : P.Valid m) (hb : P.terms.balanced = true)

include hP hb

theorem Accounts.next (henv : Env.Answers P.terms env) (hs : s.Accounts P m) (hexact : s.Exact m)
    (h : step env m s w = .next s' w') : s'.Accounts P m := by
  obtain ⟨κs, hc, hmem⟩ := hs
  obtain ⟨κs', hc', htotal⟩ := step_continues hP henv hc h
  exact ⟨κs', hc', by rw [step_memUsage h hexact, htotal hb, hmem]⟩

theorem Accounts.suspended (hs : s.Accounts P m) (h : step env m s w = .halt .suspended s' w') :
    s'.Accounts P m := by
  obtain ⟨κs, hc, hmem⟩ := hs
  obtain ⟨κs', hc', htotal⟩ := pauses_continues hP hc (step_pauses h)
  have hsame : s'.memUsage = s.memUsage := by rw [step_halt_keeps h]
  exact ⟨κs', hc', by rw [hsame, htotal hb, hmem]⟩

theorem Accounts.completed (hs : s.Accounts P m) (h : step env m s w = .halt (.completed v) s' w') :
    s'.memUsage.toInt = globalsCost P.terms.globals s'.globals := by
  obtain ⟨κs, hc, hmem⟩ := hs
  have htotal := step_completed_total hP hb hc h
  rw [step_halt_keeps h]
  exact hmem.trans htotal.symm

theorem Accounts.reaches (henv : Env.Answers P.terms env) (h : Reaches env m s w s' w')
    (hs : s.Accounts P m) (hexact : ∀ s1 w1, Reaches env m s w s1 w1 → s1.Exact m) :
    s'.Accounts P m := by
  induction h with
  | refl => exact hs
  | next hstep _ ih =>
    refine ih (hs.next hP hb henv (hexact _ _ .refl) hstep) fun s1 w1 hr => ?_
    exact hexact s1 w1 (.next hstep hr)

end Machine

/-! ## The initializer -/

/-- No sum of the initializer leaves the range of words. -/
def Machine.BootsExactly (m : Module) (s : Machine) : Prop :=
  ∀ s₀ s₁ u, (s.rewound m).enter m m.init [] = .ok s₀ →
    Reaches Host.null.bareEnv.unpolled m s₀ () s₁ u → s₁.Exact m

theorem Module.accounting_answers (m : Module) (functions : List (List Ty × Ty))
    (states : Nat) (env : Env ω) : Env.Answers (m.accounting functions states) env :=
  ⟨fun _ _ _ _ _ _ _ _ => trivial, fun _ _ _ _ _ _ _ _ => trivial⟩

namespace Module.Coded

variable {s s' : Machine}

/-- The initializer begins with an account in which the frame takes off what the variables cost by
default. -/
theorem init_accounts (hcoded : m.Coded script tests)
    (he : (s.rewound m).enter m m.init [] = .ok s') :
    ∃ Inv, Annotation.Valid ⟨m.accounting [] 0, fun _ _ _ _ => True, false, Inv, fun _ _ _ => True⟩ m ∧
      s'.Accounts ⟨m.accounting [] 0, fun _ _ _ _ => True, false, Inv, fun _ _ _ => True⟩ m := by
  obtain ⟨Inv, g, hP, hg, hstart⟩ := hcoded.initAccounting
  obtain ⟨g', hg', -, rfl⟩ := enter_ok he
  have hinv := hstart (Machine.fillLocals g'.localCount.toNat []) [] (Machine.defaults m)
  refine ⟨Inv, hP, [-m.cost (Machine.defaults m)], .running rfl hg' ?_ .nil, ?_⟩
  · rw [show (0 : Int) = m.cost (Machine.defaults m) + -m.cost (Machine.defaults m) from
      (Int.add_right_neg _).symm] at hinv
    exact hinv
  · show (0 : Int) = m.cost (Machine.defaults m) + ([-m.cost (Machine.defaults m)] : List Int).sum
    rw [sum_singleton, Int.add_right_neg]

/-- After the initializer the memory in use is what the global variables cost. -/
theorem boot_memUsage (hcoded : m.Coded script tests) (hs : s.BootsExactly m)
    (h : s.boot Host.null.bareEnv m fuel () = some (.ok (), s', ())) :
    s'.memUsage.toInt = m.cost s'.globals := by
  obtain ⟨s0, s1, w1, v, he, hreach, hstep⟩ := boot_reaches h
  obtain ⟨Inv, hP, hfirst⟩ := hcoded.init_accounts he
  have hlast := hfirst.reaches hP rfl (m.accounting_answers ..) hreach fun s1 u => hs s0 s1 u he
  exact hlast.completed hP rfl hstep

theorem boot_pending (hcoded : m.Coded script tests)
    (h : s.boot Host.null.bareEnv m fuel () = some (.ok (), s', ())) : s'.pending = none := by
  obtain ⟨s0, s1, w1, v, he, hreach, hstep⟩ := boot_reaches h
  obtain ⟨Inv, hP, κs, hc, -⟩ := hcoded.init_accounts he
  have hpending : s0.pending = none := by
    obtain ⟨g, -, -, rfl⟩ := enter_ok he
    rfl
  have hlast := reaches_pending hP (m.accounting_answers ..) rfl hreach ⟨κs, hc⟩ hpending
  rw [step_halt_keeps hstep]
  exact hlast

end Module.Coded

/-! ## Instances -/

namespace Instance

variable {σ : Type}

/-- The next turn leads no sum out of the range of words, neither by an instruction nor by the
initializer. -/
structure Exact (env : Env (Surroundings σ)) (i : Instance) (w : σ) : Prop where
  step : i.machine.Exact i.module
  reset : ∀ s ws, i.machine.step env i.module ⟨w, i.requests⟩ = .halt (.signal .reset) s ws →
    s.BootsExactly i.module

/-- No sum leaves the range of words while an input is handled. -/
def HandlesExactly (env : Env (Surroundings σ)) (i : Instance) (input : Input) (w : σ) : Prop :=
  ∀ j v, i.Executes env input w j v → j.Exact env v

/-- The memory in use is what the global variables cost. -/
def Balanced (i : Instance) : Prop :=
  i.machine.memUsage.toInt = i.module.cost i.machine.globals

end Instance

theorem Module.Coded.accounts {Inv : UInt16 → Nat → Local → Prop} (hcoded : m.Coded script tests)
    (hP : (m.books tests Y Inv).Valid m)
    (hstarts : ∀ i g, m.function? i = some g → i.toNat < m.init.toNat →
      (m.books tests Y Inv).Starts i g) :
    Upkeep m (fun s => s.memUsage.toInt = m.cost s.globals) (Machine.Accounts (m.books tests Y Inv) m)
      Instance.Exact where
  clear h := h
  enter {s s' n event f args} hs hframes hf hargs h := by
    obtain ⟨-, hlt, g, hg, hparams⟩ := hcoded.handler hf
    obtain ⟨g', hg', -, rfl⟩ := enter_ok h
    rw [hg] at hg'
    cases hg'
    have hpassed : List.Forall₂ (m.books tests Y Inv).terms.Passed g.params args :=
      forall₂_iff_get.2 ⟨by rw [hparams, hargs], fun _ _ _ => trivial⟩
    have hx := hstarts f g hg hlt args s.globals hpassed trivial
    rw [← Int.add_zero (globalsCost _ _)] at hx
    refine ⟨[0], ?_, ?_⟩
    · rw [hframes]
      exact .running rfl hg hx .nil
    · exact hs.trans (Int.add_zero _).symm
  next hm hexact hi hs := by
    have hstep := hexact.step
    rw [hm] at hstep
    exact hi.next hP rfl (m.accounting_answers ..) hstep hs
  suspend hs h := hs.suspended hP rfl h
  completed hs h := by
    have hmem := hs.completed hP rfl h
    exact hmem
  reset {σ env i w s s' ws fuel} hm hexact hs hb := by
    have hreset := hexact.reset s ws
    rw [hm] at hreset
    exact hcoded.boot_memUsage (hreset hs) hb

/-! ## Checkpoints -/

/-- What active calls account for, the innermost at its place and the others at their calls. -/
def Machine.framesCost (Y : UInt16 → Layout) : List Frame → Int
  | [] => 0
  | f :: fs => (Y f.function).frameCost f.pc f.locals +
      (fs.map fun c => (Y c.function).frameCost (c.pc - 1) c.locals).sum

section

variable {m : Module} {Inv : UInt16 → Nat → Local → Prop}

theorem Annotation.Callers.sum_eq (h : (m.books tests Y Inv).Callers m ret fs κs) :
    κs.sum = (fs.map fun c => (Y c.function).frameCost (c.pc - 1) c.locals).sum := by
  induction h with
  | nil => rfl
  | @cons _ f fs _ κ κs _ _ hcheck _ _ ih =>
    have hκ := hcheck
    rw [map_cons, sum_cons, sum_cons, ih, hκ]

theorem Machine.Accounts.checkpoint (hP : (m.books tests Y Inv).Valid m) {s : Machine}
    (h : s.Accounts (m.books tests Y Inv) m) (hop : s.nextOp? m = some (f, .checkRun)) :
    s.memUsage.toInt = m.cost s.globals + framesCost Y s.frames := by
  obtain ⟨κs, hc, hmem⟩ := h
  obtain ⟨fs, g, hframes, hr, hg, hop⟩ := nextOp?_eq_some hop
  obtain ⟨κ, κs, rfl, hw, hcallers⟩ := hc.wp hP hframes hr hg hop
  have hκ : κ = (Y f.function).frameCost f.pc f.locals := by
    refine Eq.trans (Eq.symm ?_) hw.leads.1
    exact charge_view s.globals f κ
  rw [hmem, hframes, framesCost, ← hκ, ← hcallers.sum_eq]
  exact congrArg _ sum_cons

end

/-! ## Tests -/

namespace Machine

variable {ω : Type}

/-- The machine stops within the given number of steps, and no sum leaves the range of words. -/
def stopsExactly (env : Env ω) (m : Module) : Nat → Machine → ω → Bool
  | 0, _, _ => false
  | n + 1, s, w => decide (s.Exact m) &&
    match step env m s w with
    | .next s w => stopsExactly env m n s w
    | .halt .. => true

theorem exact_of_stopsExactly
    (h : stopsExactly env m n s w = true) (hr : Reaches env m s w s' w') : s'.Exact m := by
  induction hr generalizing n with
  | refl =>
    cases n with
    | zero => cases h
    | succ n => exact of_decide_eq_true (Bool.and_eq_true_iff.1 h).1
  | next hs _ ih =>
    cases n with
    | zero => cases h
    | succ n =>
      have hn := (Bool.and_eq_true_iff.1 h).2
      rw [hs] at hn
      exact ih hn

def bootsExactly (m : Module) (n : Nat) (s : Machine) : Bool :=
  match (s.rewound m).enter m m.init [] with
  | .error _ => true
  | .ok s => stopsExactly Host.null.bareEnv.unpolled m n s ()

theorem BootsExactly.of_test {s : Machine} (h : s.bootsExactly m n = true) : s.BootsExactly m := by
  intro s0 s1 u he hr
  unfold bootsExactly at h
  rw [he] at h
  exact exact_of_stopsExactly h hr

end Machine

namespace Instance

variable {σ : Type}

def restsExactly (env : Env (Surroundings σ)) : Nat → Instance → σ → Bool
  | 0, _, _ => false
  | n + 1, i, w => decide (i.machine.Exact i.module) &&
    match i.machine.step env i.module ⟨w, i.requests⟩ with
    | .next s ws => restsExactly env n (i.ran s ws.requests) ws.host
    | .halt why s ws => s.bootsExactly i.module n && match (i.ran s ws.requests).react n
        (s.exit i.module why) with
      | none => false
      | some (.more i') => restsExactly env n i' ws.host
      | some (.done _) => true

theorem exact_of_restsExactly
    (h : restsExactly env n i w = true) (hp : Passes env i w j v) : j.Exact env v := by
  induction hp generalizing n with
  | refl =>
    cases n with
    | zero => cases h
    | succ n =>
      obtain ⟨hexact, hn⟩ := Bool.and_eq_true_iff.1 h
      refine ⟨of_decide_eq_true hexact, fun s ws hs => ?_⟩
      rw [hs] at hn
      exact .of_test (Bool.and_eq_true_iff.1 hn).1
  | next ht _ ih =>
    cases n with
    | zero => cases h
    | succ n =>
      have hn := (Bool.and_eq_true_iff.1 h).2
      cases ht with
      | runs hs =>
        rw [hs] at hn
        exact ih hn
      | @follows _ why s ws fuel hs hreact =>
        rw [hs] at hn
        have hn := (Bool.and_eq_true_iff.1 hn).2
        split at hn
        · cases hn
        · rename_i j hmore
          have h1 := react_mono hreact (Nat.le_max_left fuel n)
          have h2 := react_mono hmore (Nat.le_max_right fuel n)
          rw [h1] at h2
          cases h2
          exact ih hn
        · rename_i r hdone
          have h1 := react_mono hreact (Nat.le_max_left fuel n)
          have h2 := react_mono hdone (Nat.le_max_right fuel n)
          rw [h1] at h2
          cases h2

def handlesExactly (env : Env (Surroundings σ)) (n : Nat) (i : Instance) (input : Input) (w : σ) :
    Bool :=
  (i.begun? input).all fun j => restsExactly env n j w

theorem HandlesExactly.of_test {i : Instance} (h : i.handlesExactly env n input w = true) :
    i.HandlesExactly env input w := by
  rintro j v ⟨i0, hb, hp⟩
  unfold handlesExactly at h
  rw [begins_iff.1 hb] at h
  exact exact_of_restsExactly h hp

end Instance

/-! ## Compiled modules -/

/-- Compiled code keeps account of memory. The initializer leaves in use what the global variables
cost. From there on it is so whenever the instance is idle, and at each checkpoint the memory in use
is that and what the active calls account for. -/
theorem Instance.memory_balanced {source name : String} {script : Script} {m : Module}
    (hs : Script.ofSource source = .ok script) (hm : Module.ofSource source name = .ok m) :
    ∃ Y, m.Laid script true Y ∧
      (∀ settings fuel i, Instance.new m settings fuel = some (.ok i) →
        (settings.machine m).BootsExactly m → i.Balanced) ∧
      (∀ (i i' : Instance) fuel called, i.module = m → i.machine.BootsExactly m →
        i.reset fuel = some (.ok called, i') → i'.Balanced) ∧
      ∀ i j : Instance, i.module = m → i.status = .idle → i.machine.frames = [] → i.Balanced →
        Follows Exact i j →
        (j.status = .idle → j.Balanced) ∧
        ∀ {σ : Type} (env : Env (Surroundings σ)) (input : Input) (w : σ),
          j.HandlesExactly env input w → ∀ k v f, j.Executes env input w k v →
          k.machine.nextOp? m = some (f, .checkRun) →
          k.machine.memUsage.toInt =
            m.cost k.machine.globals + Machine.framesCost Y k.machine.frames := by
  have hcoded := Module.ofSource_coded hs hm
  obtain ⟨Y, hlaid⟩ := hcoded.exists_laid
  obtain ⟨Inv, hP, hstarts, -⟩ := hlaid.accounting
  refine ⟨Y, hlaid, ?_, ?_, ?_⟩
  · intro settings fuel i hnew hboot
    obtain ⟨⟨result, s, u⟩, hb, hr⟩ := map_eq_some_iff.1 hnew
    cases result with
    | error e => cases hr
    | ok u =>
      cases hr
      exact hcoded.boot_memUsage hboot hb
  · rintro i i' fuel called rfl hboot hreset
    cases reset_resets hreset with
    | rests hb => exact hcoded.boot_memUsage hboot hb
    | @calls s machine _ f hb _ hx =>
      have hmem := hcoded.boot_memUsage hboot hb
      obtain ⟨g, -, -, rfl⟩ := Machine.enter_ok hx
      exact hmem
  · intro i j hi hidle hframes hmem hfollows
    have hU := hcoded.accounts hP hstarts
    have hj := hU.follows ⟨hi, fun _ => ⟨hframes, by rw [← hi]; exact hmem⟩,
      fun h => absurd (hidle.symm.trans h) (by decide)⟩ hfollows
    refine ⟨fun h => ?_, fun env input w hexact k v f hk hop => ?_⟩
    · unfold Balanced
      rw [hj.module]
      exact (hj.idle h).2
    · exact (hU.executes hj hexact hk).2.checkpoint hP hop

def parrot : String :=
  "string heard = \"a\"; list all = [1, heard];
   string twice(string s) \x7b string t = s + s; llSleep(1.0); return t; \x7d
   default \x7b touch_start(integer c) \x7b
     while (c > 0) \x7b string last = heard; heard = twice(last); --c; \x7d
     all += heard; state rest; \x7d \x7d
   state rest \x7b state_entry() \x7b heard = \"\"; \x7d \x7d"

set_option maxRecDepth 10000 in
/-- The parrot is suspended in a function that a loop has called, and goes on until it has changed
its state. -/
theorem parrot_balanced :
    Script.Sample parrot "parrot" 200 fun script m i =>
      ∃ Y j k w w', m.Laid script true Y ∧
      i.handle (Host.recording.env false) 200 { yields := true } (.start .touchStart [.integer 1]) =
        some ((.ok .suspended, j), w) ∧
      j.handle (Host.recording.env false) 200 w .resume = some ((.ok .idle, k), w') ∧ i.Balanced ∧
      i.machine.memUsage = 188 ∧ k.Balanced ∧ k.machine.memUsage = 230 ∧
      ∀ j' v f, j.Executes (Host.recording.env false) .resume w j' v →
        j'.machine.nextOp? m = some (f, .checkRun) →
        j'.machine.memUsage.toInt =
          m.cost j'.machine.globals + Machine.framesCost Y j'.machine.frames := by
  refine .of_test (fun _ m i =>
      ∃ x ∈ i.handle (Host.recording.env false) 200 { yields := true }
        (.start .touchStart [.integer 1]),
      ∃ y ∈ x.1.2.handle (Host.recording.env false) 200 x.2 .resume,
        x.1.1 = .ok .suspended ∧ y.1.1 = .ok .idle ∧ i.machine.memUsage = 188 ∧
        y.1.2.machine.memUsage = 230 ∧ y.1.2.status = .idle ∧
        (Settings.machine {} m).bootsExactly m 200 ∧
        i.handlesExactly (Host.recording.env false) 200 (.start .touchStart [.integer 1])
          { yields := true } ∧
        x.1.2.handlesExactly (Host.recording.env false) 200 .resume x.2) ?_
  rintro script m i hs hm hmade ⟨⟨⟨_, j⟩, w⟩, hstart, ⟨⟨_, k⟩, w'⟩, hresume, rfl, rfl, husage,
    husage', hrests, hboot, hfirst, hsecond⟩
  obtain ⟨Y, hlaid, hnew, -, hfollows⟩ := Instance.memory_balanced hs hm
  have hbalanced := hnew {} 200 i hmade (.of_test hboot)
  have hj : Instance.Follows Instance.Exact i j :=
    .handles .refl (Instance.HandlesExactly.of_test hfirst) hstart
  have hk : Instance.Follows Instance.Exact i k :=
    .handles hj (Instance.HandlesExactly.of_test hsecond) hresume
  obtain ⟨hmodule, hidle, hframes⟩ := Instance.new_rests hmade
  exact ⟨Y, j, k, w, w', hlaid, hstart, hresume, hbalanced, husage,
    (hfollows i k hmodule hidle hframes hbalanced hk).1 hrests, husage',
    (hfollows i j hmodule hidle hframes hbalanced hj).2 _ _ _ (.of_test hsecond)⟩

end EventScript
