import EventScript.Proofs.Stops
import EventScript.Proofs.Instructions

/-!
# What a step does

A step goes on after an instruction or after the answer of the library (`Machine.Goes`). A run is
such steps (`Machine.run_reaches`).
-/

namespace EventScript.Machine

variable {ω : Type} {s s' : Machine}

theorem enter_ok (h : s.enter m i args = .ok s') : ∃ g, m.function? i = some g ∧
      s.frames.length < s.maxCallDepth ∧
      s' = { s with
        frames := ⟨.script, i, 0, fillLocals g.localCount.toNat args, []⟩ :: s.frames } := by
  unfold enter at h
  split at h
  · cases h
  rename_i g hg
  split at h
  · cases h
  rename_i hdepth
  cases h
  exact ⟨g, hg, Nat.lt_of_not_le hdepth, rfl⟩

/-! ## Going on -/

/-- How a machine goes on. -/
inductive Goes (env : Env ω) (m : Module) (s : Machine) (w : ω) : Machine → ω → Prop
  | runs {s' : Machine} {w' : ω} :
      s.frames = f :: fs → f.receiver = .script → m.function? f.function = some g →
      g.ops[f.pc]? = some op → Does env m g.ret { f with pc := f.pc + 1 } s w op s' w' →
      Goes env m s w s' w'
  /-- A library call that was suspended has an answer. -/
  | answers {w' : ω} :
      s.frames = f :: caller :: fs → f.receiver = .api → ApiFunction.get? f.function = some g →
      env.resume g f.locals w = (.ok v, w') →
      Goes env m s w { s with frames := answered g v caller :: fs } w'

theorem resumeApi_goes (hframes : s.frames = f :: fs)
    (hr : f.receiver = .api) (h : resumeApi env s f fs w = .next s' w') : Goes env m s w s' w' := by
  unfold resumeApi at h
  split at h
  · cases h
  rename_i g hg
  split at h
  · rename_i v w1 he
    split at h
    · cases h
    · cases h; exact .answers hframes hr hg he
  · rename_i i w1 he
    cases i <;> cases h

theorem step_goes (h : step env m s w = .next s' w') : Goes env m s w s' w' := by
  cases hframes : s.frames with
  | nil => simp only [step, hframes] at h; cases h
  | cons f fs =>
    obtain ⟨hr, h⟩ | ⟨g, op, hr, hg, hop, h⟩ | ⟨_, ⟨⟩, _⟩ := step_cons hframes h
    · exact resumeApi_goes hframes hr h
    · exact .runs hframes hr hg hop (exec_does h)

/-! ## Faults -/

theorem load_fault (h : load s f x e' w = .halt (.fault e) s' w') : x = none := by
  cases x with
  | none => rfl
  | some v => cases h

theorem store_fault (h : store s f var w = .halt (.fault e) s' w') :
    f.operands = [] ∨ s.var? f var = none := by
  unfold store at h
  split at h
  · exact .inl ‹_›
  dsimp only at h
  split at h
  · cases h
  · exact .inr ‹_›

theorem branch_fault (h : branch s f test target w = .halt (.fault e) s' w') : f.operands = [] := by
  unfold branch at h
  split at h
  · assumption
  · cases h

theorem callFunction_fault
    (h : callFunction m s f i w = .halt (.fault e) s' w') : m.function? i = none ∨
      (∃ g, m.function? i = some g ∧ f.operands.length < g.params.length) ∨ ∃ n, e = .callDepth n := by
  unfold callFunction at h
  split at h
  · exact .inl ‹_›
  rename_i g hg
  split at h
  · rename_i hs
    refine .inr (.inl ⟨g, hg, ?_⟩)
    unfold Operands.split? at hs
    split at hs
    · cases hs
    · omega
  · dsimp only [enter] at h
    rw [hg] at h
    dsimp only at h
    split at h
    · cases h
    rename_i he
    split at he
    · cases he
      cases h
      exact .inr (.inr ⟨_, rfl⟩)
    · cases he

theorem callApi_fault {env : Env ω} (h : callApi env s f i w = .halt (.fault e) s' w') :
    ApiFunction.get? i = none ∨
      (∃ g, ApiFunction.get? i = some g ∧ f.operands.length < g.params.length) ∨
      ∃ name message, e = .host name message := by
  unfold callApi at h
  split at h
  · exact .inl ‹_›
  rename_i g hg
  split at h
  · rename_i hs
    refine .inr (.inl ⟨g, hg, ?_⟩)
    unfold Operands.split? at hs
    split at hs
    · cases hs
    · omega
  · split at h
    · cases h
    rename_i i w1 he
    cases i with
    | failed message => cases h; exact .inr (.inr ⟨_, _, rfl⟩)
    | signal x | suspend => cases h

theorem leave_fault (h : leave s f ret w = .halt (.fault e) s' w') :
    ret ≠ .void ∧ f.operands = [] := by
  unfold leave at h
  dsimp only at h
  split at h
  · rename_i hv
    split at hv
    · cases hv
    · exact ⟨‹_›, List.head?_eq_none_iff.1 hv⟩
  · split at h <;> cases h

theorem check_fault {env : Env ω} (h : check env s w = .halt (.fault e) s' w') :
    e = .memoryLimit s.memUsage s.memLimit := by
  unfold check at h
  split at h
  · cases h; rfl
  · split at h <;> cases h

theorem replace_fault (h : replace s f r w = .halt (.fault e) s' w') :
    ∃ stack, r = .error (e, stack) := by
  unfold replace at h
  split at h
  · cases h
  · cases h; exact ⟨_, rfl⟩

/-! ## Runs -/

/-- The states that a machine goes through. -/
inductive Reaches (env : Env ω) (m : Module) : Machine → ω → Machine → ω → Prop
  | refl {s : Machine} {w : ω} : Reaches env m s w s w
  | next {s s₁ s' : Machine} {w w₁ w' : ω} : step env m s w = .next s₁ w₁ →
      Reaches env m s₁ w₁ s' w' → Reaches env m s w s' w'

/-- A run goes through states to one in which it stops. -/
theorem run_reaches (h : run env m fuel s w = some (e, s', w')) :
    ∃ s1 w1 why, Reaches env m s w s1 w1 ∧ step env m s1 w1 = .halt why s' w' ∧
      e = exit m s' why := by
  induction fuel generalizing s w with
  | zero => cases h
  | succ fuel ih =>
    rw [run_succ] at h
    cases hs : step env m s w with
    | next s1 w1 =>
      rw [hs] at h
      obtain ⟨s2, w2, why, hr, hstep, he⟩ := ih h
      exact ⟨s2, w2, why, .next hs hr, hstep, he⟩
    | halt why s1 w1 =>
      rw [hs] at h
      cases h
      exact ⟨s, w, why, .refl, hs, rfl⟩

end EventScript.Machine
