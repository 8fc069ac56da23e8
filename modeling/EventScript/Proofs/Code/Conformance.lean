import EventScript.Proofs.Code.Assertions
import EventScript.Proofs.Steps

/-!
# Machines conform to assertions

When each function of a module has assertions that hold together, a machine whose frames have these
assertions (`Conforms`) goes on to one whose frames have them, whatever the library answers within
the terms (`step_continues`). A frame below the innermost one waits for a value: its assertions hold as
soon as there is one.

Each frame has a number beside it, what the call accounts for. The sum of these and the cost of the
global variables changes exactly by what instructions add to the memory in use (`Machine.adds`).
-/

namespace EventScript

open List Option

structure Annotation where
  terms : Terms
  Check : UInt16 → Nat → List Value → Int → Prop
  strict : Bool
  Inv : UInt16 → Nat → Local → Prop
  Here : UInt16 → Nat → List Value → Prop

namespace Annotation

def contract (P : Annotation) (i : UInt16) (g : Function) : Contract :=
  { P.terms with ret := g.ret, Check := P.Check i, strict := P.strict, Here := P.Here i }

def Starts (P : Annotation) (i : UInt16) (g : Function) : Prop :=
  ∀ args globals, List.Forall₂ P.terms.Passed g.params args → P.terms.Shared globals →
    P.Inv i 0 ⟨Machine.fillLocals g.localCount.toNat args, [], globals,
      globalsCost P.terms.globals globals⟩

structure Valid (P : Annotation) (m : Module) : Prop where
  constants : P.terms.constants = m.constants.toList
  functions : ∀ (i : UInt16) params ret, P.terms.functions[i.toNat]? = some (params, ret) →
    ∃ g, m.function? i = some g ∧ g.params = params ∧ g.ret = ret ∧ P.Starts i g
  annotated : ∀ i g, m.function? i = some g → Annotated (P.contract i g) g.ops.toList (P.Inv i)

/-- The frames wait for a value of a type; each has a number beside it, what it accounts for. -/
inductive Callers (P : Annotation) (m : Module) : Ty → List Frame → List Int → Prop
  | nil : Callers P m ret [] []
  | cons {fs : List Frame} {g : Function} {κ : Int} {κs : List Int} :
      f.receiver = .script → m.function? f.function = some g →
      P.Check f.function (f.pc - 1) f.locals κ →
      Resumes P.terms f.locals f.operands κ ret (P.Inv f.function f.pc) →
      Callers P m g.ret fs κs → Callers P m ret (f :: fs) (κ :: κs)

variable (P : Annotation) (m : Module) (globals : List Value) in
/-- The frames of a machine have the assertions. -/
inductive Conforms : List Frame → List Int → Prop
  | nil : P.terms.Shared globals → Conforms [] []
  | running {fs : List Frame} {g : Function} {κ : Int} {κs : List Int} :
      f.receiver = .script → m.function? f.function = some g →
      P.Inv f.function f.pc ⟨f.locals, f.operands, globals, globalsCost P.terms.globals globals + κ⟩ →
      Callers P m g.ret fs κs → Conforms (f :: fs) (κ :: κs)
  /-- The innermost call is of a library function and is to be finished. -/
  | asking : ApiFunction.get? i = some h → args.length = h.params.length → P.terms.Shared globals →
      fs ≠ [] → Callers P m h.ret fs κs → Conforms (.waiting i args :: fs) κs

end Annotation

/-- The answers of the environment are on the terms. -/
structure Env.Answers {ω : Type} (T : Terms) (env : Env ω) : Prop where
  call : ∀ f ∈ ApiFunction.table, ∀ args w v w', f.ret ≠ .void →
    env.call f args w = (.ok v, w') → T.Passed f.ret v
  resume : ∀ f ∈ ApiFunction.table, ∀ args w v w', f.ret ≠ .void →
    env.resume f args w = (.ok v, w') → T.Passed f.ret v

namespace Machine

/-! ## Account of memory -/

def opAdds (s : Machine) (f : Frame) : Op → Int
  | .memStatic n => n.toInt
  | .memIncr var => (s.var? f var).elim 0 fun v => v.dynSize.toInt
  | .memDecr var => (s.var? f var).elim 0 fun v => -v.dynSize.toInt
  | _ => 0

def nextOp? (m : Module) (s : Machine) : Option (Frame × Op) :=
  match s.frames with
  | [] => none
  | f :: _ =>
    match f.receiver with
    | .api => none
    | .script => (m.function? f.function).bind fun g => (g.ops[f.pc]?).map fun op => (f, op)

theorem nextOp?_eq_some {s : Machine} (h : s.nextOp? m = some (f, op)) : ∃ fs g, s.frames = f :: fs
    ∧ f.receiver = .script ∧ m.function? f.function = some g ∧ g.ops[f.pc]? = some op := by
  unfold nextOp? at h
  split at h
  · cases h
  rename_i f' fs hframes
  split at h
  · cases h
  obtain ⟨g, hg, h⟩ := bind_eq_some_iff.1 h
  obtain ⟨op', hop, heq⟩ := map_eq_some_iff.1 h
  cases heq
  exact ⟨fs, g, hframes, ‹_›, hg, hop⟩

def adds (m : Module) (s : Machine) : Int := (s.nextOp? m).elim 0 fun p => s.opAdds p.1 p.2

end Machine

namespace Annotation

open Machine

variable {ω : Type} {P : Annotation}

def view (P : Annotation) (globals : List Value) (f : Frame) (κ : Int) : Local :=
  ⟨f.locals, f.operands, globals, globalsCost P.terms.globals globals + κ⟩

theorem charge_view (globals : List Value) (f : Frame) (κ : Int) :
    (P.view globals f κ).charge P.terms = κ := add_sub_cancel_left _ _

theorem var?_view (s : Machine) (f : Frame) (κ : Int) (var : VarRef) :
    (P.view s.globals f κ).var? var = s.var? f var := by
  cases var <;> rfl

/-- What the frames and the global variables account for. -/
def total (P : Annotation) (globals : List Value) (κs : List Int) : Int :=
  globalsCost P.terms.globals globals + κs.sum

/-- Frames have the assertions again, and account for what was added. -/
def Continues (P : Annotation) (m : Module) (s : Machine) (total : Int) : Prop :=
  ∃ κs, Conforms P m s.globals s.frames κs ∧
    (P.terms.balanced = true → P.total s.globals κs = total)

section

variable {f : Frame} {s : Machine}

theorem continues_of_inv (hr : f.receiver = .script) (hg : m.function? f.function = some g)
    (hc : Callers P m g.ret fs κs) (hx : P.Inv f.function pc ⟨locals, operands, s.globals, mem⟩)
    (hframes : s.frames = ⟨f.receiver, f.function, pc, locals, operands⟩ :: fs)
    (hn : mem + κs.sum = n) : Continues P m s n := by
  refine ⟨(mem - globalsCost P.terms.globals s.globals) :: κs, ?_, fun _ => ?_⟩
  · rw [hframes]
    refine .running hr hg ?_ hc
    rw [add_sub_cancel]
    exact hx
  · unfold total
    rw [sum_cons]
    omega

theorem callers_of_calls (hr : f.receiver = .script) (hg : m.function? f.function = some g)
    (hc : Callers P m g.ret fs κs)
    (h : Calls (P.contract f.function g) f.pc (P.view s.globals f κ) params ret
      (P.Inv f.function (f.pc + 1)))
    (hs : Operands.split? params.length f.operands = some (args, rest)) :
    List.Forall₂ P.terms.Passed params args ∧
      Callers P m ret ({ f with pc := f.pc + 1, operands := rest } :: fs) (κ :: κs) := by
  obtain ⟨hargs, hcheck, hresumes⟩ := h args rest hs
  have hκ : (P.view s.globals f κ).charge (P.contract f.function g).toTerms = κ := charge_view ..
  rw [hκ] at hcheck hresumes
  exact ⟨hargs, .cons hr hg hcheck hresumes hc⟩

theorem does_continues (hP : P.Valid m) (henv : Env.Answers P.terms env) (hr : f.receiver = .script)
    (hg : m.function? f.function = some g) (hc : Callers P m g.ret fs κs)
    (hframes : s.frames = f :: fs)
    (hw : Wp (P.contract f.function g) op f.pc (P.view s.globals f κ) (P.Inv f.function))
    (h : Does env m g.ret { f with pc := f.pc + 1 } s w op s' w') :
    Continues P m s' (P.total s.globals (κ :: κs) + s.opAdds f op) := by
  have htail : s.frames.tail = fs := by rw [hframes]; rfl
  have hleads := hw.leads
  have htotal : P.total s.globals (κ :: κs) =
      globalsCost P.terms.globals s.globals + κ + κs.sum := by
    unfold total
    rw [sum_cons]
    omega
  rw [htotal]
  have stays {pc locals operands} {s' : Machine} (hx : P.Inv f.function pc ⟨locals, operands,
      s'.globals, globalsCost P.terms.globals s.globals + κ⟩)
      (hs' : s'.frames = ⟨f.receiver, f.function, pc, locals, operands⟩ :: s.frames.tail) :
      Continues P m s' (globalsCost P.terms.globals s.globals + κ + κs.sum + 0) :=
    continues_of_inv hr hg hc hx (htail ▸ hs') (Int.add_zero _).symm
  cases h with
  | operands ho hs =>
    have hx := (leadsTo_of_operate ho).1 hleads _ hs
    have hzero : s.opAdds f op = 0 := by cases op <;> first | rfl | cases ho
    rw [hzero]
    exact stays hx rfl
  | pushConst hi =>
    have hx := hleads _ (by
      show P.terms.constants[_]? = _
      rw [hP.constants, ← hi, Module.constant?, Array.getElem?_toList])
    exact stays hx rfl
  | @load var v hv =>
    have hx : P.Inv f.function (f.pc + 1) ((P.view s.globals f κ).push v) := by
      cases var <;> exact hleads _ hv
    have hzero : s.opAdds f var.loadOp = 0 := by cases var <;> rfl
    rw [hzero]
    exact stays hx rfl
  | store var ho hv =>
    cases var <;> exact stays (hleads _ _ _ ho hv) rfl
  | @arraySet var v k rest old new ho hv hs =>
    have hx := hleads v k rest old new ho (by rw [var?_view]; cases var <;> exact hv) hs
    cases var <;> exact stays hx rfl
  | jump => exact stays hleads rfl
  | @jumpIfFalse target v rest ho =>
    have hx : P.Inv f.function (if !v.truthy then target.toNat else f.pc + 1)
        { P.view s.globals f κ with operands := rest } := by
      split
      · exact (hleads v rest ho).2
      · exact (hleads v rest ho).1
    exact stays hx rfl
  | @jumpIfTrue target v rest ho =>
    have hx : P.Inv f.function (if v.truthy then target.toNat else f.pc + 1)
        { P.view s.globals f κ with operands := rest } := by
      split
      · exact (hleads v rest ho).2
      · exact (hleads v rest ho).1
    exact stays hx rfl
  | jumpIfNoStateChange =>
    cases hp : s.pending.isNone with
    | true => exact stays hleads.2 rfl
    | false => exact stays hleads.1 rfl
  | call hf hs he =>
    obtain ⟨params, ret, hi, hcalls⟩ := hleads
    obtain ⟨g', hg', rfl, rfl, hstarts⟩ := hP.functions _ params ret hi
    rw [hg'] at hf
    cases hf
    obtain ⟨hargs, hcallers⟩ := callers_of_calls hr hg hc hcalls hs
    obtain ⟨g'', hg'', -, rfl⟩ := enter_ok he
    rw [hg'] at hg''
    cases hg''
    have hx := hstarts _ s.globals hargs hw.shared
    rw [← Int.add_zero (globalsCost _ _)] at hx
    refine ⟨0 :: κ :: κs, .running rfl hg' hx ?_, fun _ => ?_⟩
    · rw [setTop_frames, htail]
      exact hcallers
    · show P.total s.globals (0 :: κ :: κs) = _
      unfold total
      rw [sum_cons, sum_cons]
      dsimp only [opAdds]
      omega
  | @callApi i h args rest v w' hf hs he =>
    obtain ⟨h', hi, hcalls⟩ := hleads
    rw [hf] at hi
    cases hi
    obtain ⟨hargs, hcheck, hresumes⟩ := hcalls args rest (by
      rw [ApiFunction.signature, length_map]; exact hs)
    have hx := hresumes s.globals v hw.shared fun hne =>
      henv.call _ (mem_of_getElem? hf) _ _ _ _ hne he
    rw [show (P.view s.globals f κ).charge (P.contract f.function g).toTerms = κ from
      charge_view ..] at hx
    refine continues_of_inv hr hg hc hx ?_ (Int.add_zero _).symm
    rw [setTop_frames, htail]
    unfold answered answer
    split <;> rfl
  | @ret v caller callers hv hcallers =>
    rw [htail] at hcallers
    subst hcallers
    cases hc with
    | @cons _ _ _ g2 κ2 κs hr2 hg2 hcheck hresumes hc =>
      have hx := hresumes s.globals v hw.shared fun hne => by
        rw [if_neg hne] at hv
        exact hleads.2 hne v hv
      refine ⟨κ2 :: κs, ?_, fun hb => ?_⟩
      · by_cases hvoid : g.ret = .void
        · rw [answer, if_pos hvoid] at hx
          rw [if_pos hvoid]
          exact .running hr2 hg2 hx hc
        · rw [answer, if_neg hvoid] at hx
          rw [if_neg hvoid]
          exact .running hr2 hg2 hx hc
      · have hzero := hleads.1 hb
        rw [show (P.view s.globals f κ).charge (P.contract f.function g).toTerms = κ from
          charge_view ..] at hzero
        unfold total
        rw [sum_cons]
        dsimp only [opAdds]
        omega
  | memStatic =>
    exact continues_of_inv hr hg hc hleads (congrArg (_ :: ·) htail)
      (by dsimp only [view, opAdds]; omega)
  | @memIncr var v hv | @memDecr var v hv =>
    have hv' : s.var? f var = some v := by cases var <;> exact hv
    have hx := hleads v ((var?_view ..).trans hv')
    refine continues_of_inv hr hg hc hx (congrArg (_ :: ·) htail) ?_
    dsimp only [view, opAdds]
    rw [hv', elim_some]
    omega
  | checkRun _ _ | setState => exact stays hleads.2 rfl

theorem exec_fault (hP : P.Valid m) (hstrict : P.strict = true)
    (hw : Wp (P.contract f.function g) op f.pc (P.view s.globals f κ) (P.Inv f.function))
    (h : exec env m g.ret op { f with pc := f.pc + 1 } s w = .halt (.fault e) s' w') :
    ¬ e.IsCodeError := by
  have hfinds := hw.finds hstrict
  have hleads := hw.leads
  have absent : ∀ {var : VarRef}, ((P.view s.globals f κ).var? var).isSome →
      s.var? { f with pc := f.pc + 1 } var ≠ none := by
    intro var hv hnone
    rw [var?_view] at hv
    have hnone' : s.var? f var = none := by cases var <;> exact hnone
    rw [hnone'] at hv
    cases hv
  cases op with
  | pushConst i =>
    have hnone := map_eq_none_iff.1 (load_fault h)
    unfold Module.constant? at hnone
    rw [← Array.getElem?_toList, ← hP.constants, getElem?_eq_none_iff] at hnone
    exact absurd hfinds (Nat.not_lt.2 hnone)
  | loadLocal slot | loadGlobal index => exact absurd (load_fault h) (absent hfinds)
  | storeLocal slot | storeGlobal index =>
    exact ((store_fault h).elim hfinds.1 (absent hfinds.2)).elim
  | arraySet var => exact hfinds.elim
  | jump target | jumpIfNoStateChange target | memStatic n | setState i | pushDefault ty
  | pushUndefined => cases h
  | jumpIfFalse target | jumpIfTrue target => exact absurd (branch_fault h) hfinds
  | call i =>
    obtain ⟨params, ret, hi, -⟩ := hleads
    obtain ⟨g', hg', rfl, -, -⟩ := hP.functions _ params ret hi
    rcases callFunction_fault h with hnone | ⟨g'', hg'', hlt⟩ | ⟨n, rfl⟩
    · rw [hg'] at hnone; cases hnone
    · rw [hg'] at hg''
      cases hg''
      exact absurd (hfinds _ _ hi) (Nat.not_le.2 hlt)
    · exact id
  | callApi i =>
    obtain ⟨f', hf', -⟩ := hleads
    rcases callApi_fault h with hnone | ⟨g', hg', hlt⟩ | ⟨name, message, rfl⟩
    · rw [hf'] at hnone; cases hnone
    · exact absurd (hfinds g' hg') (Nat.not_le.2 hlt)
    · exact id
  | ret => exact absurd (leave_fault h).2 (hfinds (leave_fault h).1)
  | memIncr var | memDecr var =>
    unfold exec at h
    dsimp only at h
    split at h
    · cases h
    · exact absurd ‹_› (absent hfinds)
  | checkRun =>
    rw [check_fault h]
    exact id
  | _ =>
    obtain ⟨stack, hs⟩ := replace_fault h
    exact (finds_of_operate rfl).1 hfinds e stack hs

end

/-! ## Steps -/

variable {s s' : Machine}

/-- The running function of a machine, its next instruction, and what is so there. -/
theorem Conforms.running_wp (hP : P.Valid m)
    (hc : Conforms P m s.globals (f :: fs) κs) (hr : f.receiver = .script) :
    ∃ g op κ κs', m.function? f.function = some g ∧ g.ops[f.pc]? = some op ∧ κs = κ :: κs' ∧
      Wp (P.contract f.function g) op f.pc (P.view s.globals f κ) (P.Inv f.function) ∧
      Callers P m g.ret fs κs' := by
  cases hc with
  | @running _ _ g κ κs _ hg hx hc =>
    obtain ⟨op, hop, hw⟩ := hP.annotated _ _ hg _ _ hx
    rw [Array.getElem?_toList] at hop
    exact ⟨g, op, κ, κs, hg, hop, rfl, hw, hc⟩
  | asking _ _ _ _ _ => cases hr

theorem Conforms.wp (hP : P.Valid m) (hc : Conforms P m s.globals s.frames κs)
    (hframes : s.frames = f :: fs) (hr : f.receiver = .script)
    (hg : m.function? f.function = some g) (hop : g.ops[f.pc]? = some op) : ∃ κ κs', κs = κ :: κs' ∧
      Wp (P.contract f.function g) op f.pc (P.view s.globals f κ) (P.Inv f.function) ∧
      Callers P m g.ret fs κs' := by
  obtain ⟨g', op', κ, κs', hg', hop', h⟩ := (hframes ▸ hc).running_wp hP hr
  cases hg.symm.trans hg'
  cases hop.symm.trans hop'
  exact ⟨κ, κs', h⟩

theorem Conforms.asking_callers
    (hc : Conforms P m s.globals (f :: fs) κs) (hr : f.receiver = .api) :
    ∃ g, ApiFunction.get? f.function = some g ∧ f = .waiting f.function f.locals ∧
      f.locals.length = g.params.length ∧ P.terms.Shared s.globals ∧ fs ≠ [] ∧
      Callers P m g.ret fs κs := by
  cases hc with
  | running hr' _ _ _ => rw [hr] at hr'; cases hr'
  | asking hi hargs hshared hne hc => exact ⟨_, hi, rfl, hargs, hshared, hne, hc⟩

theorem Conforms.shared (hP : P.Valid m) {globals : List Value} {frames : List Frame}
    (h : Conforms P m globals frames κs) : P.terms.Shared globals := by
  cases h with
  | nil h | asking _ _ h _ _ => exact h
  | running _ hg hx _ =>
    obtain ⟨op, -, hw⟩ := hP.annotated _ _ hg _ _ hx
    exact hw.shared

theorem continues_of_answered
    (hshared : P.terms.Shared s.globals) (hc : Callers P m g.ret (f :: fs) κs)
    (hv : g.ret ≠ .void → P.terms.Passed g.ret v) :
    Continues P m { s with frames := answered g v f :: fs } (P.total s.globals κs) := by
  cases hc with
  | @cons _ _ _ g' κ κs hr hg hcheck hresumes hc =>
    have hx := hresumes s.globals v hshared hv
    refine ⟨κ :: κs, ?_, fun _ => rfl⟩
    unfold answer at hx
    unfold answered
    split
    · rw [if_pos ‹_›] at hx; exact .running hr hg hx hc
    · rw [if_neg ‹_›] at hx; exact .running hr hg hx hc

/-- A step leads from assertions to assertions, and accounts for what it adds to the memory. -/
theorem step_continues (hP : P.Valid m) (henv : Env.Answers P.terms env)
    (hc : Conforms P m s.globals s.frames κs) (h : step env m s w = .next s' w') :
    Continues P m s' (P.total s.globals κs + s.adds m) := by
  cases step_goes h with
  | @runs f fs g op s' w' hframes hr hg hop hdoes =>
    obtain ⟨κ, κs, rfl, hw, hcallers⟩ := hc.wp hP hframes hr hg hop
    have hadds : s.adds m = s.opAdds f op := by
      simp only [adds, nextOp?, hframes, hr, hg, hop, bind_some, map_some, Option.elim]
    rw [hadds]
    exact does_continues hP henv hr hg hcallers hframes hw hdoes
  | @answers f caller fs g v w' hframes hr hg he =>
    rw [hframes] at hc
    obtain ⟨g', hg', -, -, hshared, -, hcallers⟩ := hc.asking_callers hr
    rw [hg] at hg'
    cases hg'
    have hzero : s.adds m = 0 := by simp only [adds, nextOp?, hframes, hr, Option.elim]
    rw [hzero, Int.add_zero]
    exact continues_of_answered hshared hcallers fun hne =>
      henv.resume _ (mem_of_getElem? hg) _ _ _ _ hne he

theorem pauses_continues (hP : P.Valid m) (hc : Conforms P m s.globals s.frames κs)
    (h : Pauses env m s w s' w') : Continues P m s' (P.total s.globals κs) := by
  cases h with
  | @checkpoint f fs g w' hframes hr hg hop =>
    obtain ⟨κ, κs, rfl, hw, hcallers⟩ := hc.wp hP hframes hr hg hop
    refine continues_of_inv hr hg hcallers hw.leads.2 ?_ ?_
    · rw [setTop_frames, hframes]; rfl
    · exact Int.add_assoc _ _ _
  | @asks f fs g i h args rest w' hframes hr hg hop hi hs =>
    obtain ⟨κ, κs, rfl, hw, hcallers⟩ := hc.wp hP hframes hr hg hop
    obtain ⟨h', hi', hcalls⟩ := hw.leads
    rw [hi] at hi'
    cases hi'
    obtain ⟨-, hcallers'⟩ := callers_of_calls hr hg hcallers hcalls (by
      rw [ApiFunction.signature, length_map]; exact hs)
    have hargs : args.length = h.params.length := by
      unfold Operands.split? at hs
      split at hs
      · cases hs
        rw [length_reverse, length_take]
        omega
      · cases hs
    exact ⟨κ :: κs, .asking hi hargs hw.shared (cons_ne_nil _ _) hcallers', fun _ => rfl⟩
  | @waits f fs g w' hframes hr hg =>
    rw [hframes] at hc
    obtain ⟨g', hg', hf, -, -, -, -⟩ := hc.asking_callers hr
    refine ⟨κs, ?_, fun _ => rfl⟩
    rw [← hf]
    exact hc

/-- A machine faults only where its function does not find what it needs. -/
theorem step_fault (hP : P.Valid m) (hstrict : P.strict = true)
    (hc : Conforms P m s.globals s.frames κs)
    (h : step env m s w = .halt (.fault e) s' w') : ¬ e.IsCodeError := by
  cases hframes : s.frames with
  | nil => simp only [step, hframes] at h; cases h
  | cons f fs =>
    rw [hframes] at hc
    cases hr : f.receiver with
    | api =>
      rw [step_api hframes hr] at h
      obtain ⟨g, hg, -, -, -, hne, -⟩ := hc.asking_callers hr
      unfold resumeApi at h
      rw [hg] at h
      dsimp only at h
      split at h
      · split at h
        · exact absurd rfl hne
        · cases h
      · rename_i i w1 he
        cases i <;> cases h
        exact id
    | script =>
      obtain ⟨g, op, κ, κs, hg, hop, rfl, hw, -⟩ := hc.running_wp hP hr
      rw [step_script hframes hr hg hop] at h
      exact exec_fault hP hstrict hw h

/-- The outermost call gives back all that it accounted for. -/
theorem step_completed_total (hP : P.Valid m) (hb : P.terms.balanced = true)
    (hc : Conforms P m s.globals s.frames κs) (h : step env m s w = .halt (.completed v) s' w') :
    globalsCost P.terms.globals s.globals = P.total s.globals κs := by
  rcases step_completed h with hframes | ⟨f, g, hframes, hr, hg, hop⟩
  · rw [hframes] at hc
    cases hc
    exact (Int.add_zero _).symm
  · obtain ⟨κ, κs, rfl, hw, hcallers⟩ := hc.wp hP hframes hr hg hop
    cases hcallers
    have hzero := hw.leads.1 hb
    rw [show (P.view s.globals f κ).charge (P.contract f.function g).toTerms = κ from
      charge_view ..] at hzero
    rw [hzero]
    exact (Int.add_zero _).symm

theorem step_pending (hP : P.Valid m) (hc : Conforms P m s.globals s.frames κs)
    (h : step env m s w = .next s' w') :
    s'.pending = s.pending ∨ ∃ i, s'.pending = some i ∧ i.toNat < P.terms.states := by
  cases step_goes h with
  | @runs f fs g op s' w' hframes hr hg hop hdoes =>
    obtain ⟨κ, κs, rfl, hw, -⟩ := hc.wp hP hframes hr hg hop
    cases hdoes with
    | setState => exact .inr ⟨_, rfl, hw.leads.1⟩
    | store var _ _ => cases var <;> exact .inl rfl
    | arraySet _ _ _ =>
      rename_i var _ _ _ _ _ _ _ _
      cases var <;> exact .inl rfl
    | call _ _ he =>
      obtain ⟨g'', -, -, rfl⟩ := enter_ok he
      exact .inl rfl
    | _ => exact .inl rfl
  | answers hframes hr hg he => exact .inl rfl

/-! ## Runs -/

theorem reaches_conforms (hP : P.Valid m) (henv : Env.Answers P.terms env)
    (h : Reaches env m s w s' w') (hc : ∃ κs, Conforms P m s.globals s.frames κs) :
    ∃ κs, Conforms P m s'.globals s'.frames κs := by
  induction h with
  | refl => exact hc
  | next hs _ ih =>
    obtain ⟨κs, hc⟩ := hc
    obtain ⟨κs', hc', -⟩ := step_continues hP henv hc hs
    exact ih ⟨κs', hc'⟩

theorem reaches_pending (hP : P.Valid m) (henv : Env.Answers P.terms env)
    (hstates : P.terms.states = 0) (h : Reaches env m s w s' w')
    (hc : ∃ κs, Conforms P m s.globals s.frames κs) (hn : s.pending = none) :
    s'.pending = none := by
  induction h with
  | refl => exact hn
  | next hs _ ih =>
    obtain ⟨κs, hc⟩ := hc
    obtain ⟨κs', hc', -⟩ := step_continues hP henv hc hs
    refine ih ⟨κs', hc'⟩ ?_
    rcases step_pending hP hc hs with heq | ⟨i, -, hlt⟩
    · exact heq.trans hn
    · rw [hstates] at hlt
      exact absurd hlt (Nat.not_lt_zero _)

end Annotation

end EventScript
