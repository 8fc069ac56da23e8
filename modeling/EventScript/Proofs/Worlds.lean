import EventScript.Machine.Run
import Mathlib.Tactic

/-!
# Steps and worlds

Only calls of library functions and checkpoints touch the world of a machine; every other
instruction does the same in all worlds (`Machine.exec_move`). More fuel does not change how a run
ends (`Machine.run_mono`, `Machine.boot_mono`).
-/

namespace EventScript

def Step.move {ω ω' : Type} (v : ω') : Step ω → Step ω'
  | .next s _ => .next s v
  | .halt why s _ => .halt why s v

def Step.world {ω : Type} : Step ω → ω
  | .next _ w => w
  | .halt _ _ w => w

@[simp] theorem Step.world_move (o : Step ω) (v : ω') : (o.move v).world = v := by
  cases o <;> rfl

def Op.asks : Op → Bool
  | .checkRun | .callApi _ => true
  | _ => false

namespace Machine

/-! ## Instructions that ask for nothing -/

@[simp] theorem replace_move : (replace s f r w).move v = replace s f r v := by
  unfold replace; split <;> rfl

@[simp] theorem load_move : (load s f x e w).move v = load s f x e v := by
  unfold load; split <;> rfl

@[simp] theorem store_move : (store s f var w).move v = store s f var v := by
  unfold store
  split
  · rfl
  · dsimp only
    split <;> rfl

@[simp] theorem storeElement_move : (storeElement s f var w).move v = storeElement s f var v := by
  unfold storeElement
  split
  · dsimp only
    split
    · rfl
    · split <;> rfl
  · rfl

@[simp] theorem branch_move :
     (branch s f test target w).move v = branch s f test target v := by
  unfold branch; split <;> rfl

@[simp] theorem callFunction_move :
    (callFunction m s f index w).move v = callFunction m s f index v := by
  unfold callFunction
  split
  · rfl
  split
  · rfl
  · dsimp only
    split <;> rfl

@[simp] theorem leave_move : (leave s f ret w).move v = leave s f ret v := by
  unfold leave
  dsimp only
  split
  · rfl
  · split <;> rfl

/-- An instruction that asks for nothing does the same in every environment and world. -/
theorem exec_move (h : op.asks = false) (env : Env ω) (env' : Env ω') (m : Module)
    (ret : Ty) (f : Frame) (s : Machine) (w : ω) (v : ω') :
    exec env' m ret op f s v = (exec env m ret op f s w).move v := by
  cases op with
  | callApi i | checkRun => cases h
  | pushConst i | loadLocal slot | loadGlobal index => exact (load_move ..).symm
  | storeLocal slot | storeGlobal index => exact (store_move ..).symm
  | arraySet var => exact (storeElement_move ..).symm
  | jumpIfFalse target | jumpIfTrue target => exact (branch_move ..).symm
  | call index => exact (callFunction_move ..).symm
  | ret => exact (leave_move ..).symm
  | jump target | jumpIfNoStateChange target => rfl
  | memStatic n | setState state | pushDefault ty | pushUndefined => rfl
  | memIncr var | memDecr var =>
    unfold exec
    dsimp only
    split <;> rfl
  | _ => exact (replace_move ..).symm

/-! ## Fuel -/

theorem run_succ (env : Env ω) (m : Module) (fuel : Nat) (s : Machine) (w : ω) :
    run env m (fuel + 1) s w =
      match step env m s w with
      | .next s w => run env m fuel s w
      | .halt why s w => some (exit m s why, s, w) := rfl

theorem run_mono (h : run env m fuel s w = some r) (hle : fuel ≤ fuel') :
    run env m fuel' s w = some r := by
  induction fuel generalizing fuel' s w with
  | zero => simp [run] at h
  | succ fuel ih =>
    obtain ⟨k, rfl⟩ : ∃ k, fuel' = k + 1 := ⟨fuel' - 1, by omega⟩
    rw [run_succ] at h ⊢
    cases hs : step env m s w with
    | next s' w' =>
      rw [hs] at h
      exact ih h (by omega)
    | halt why s' w' =>
      rw [hs] at h
      exact h

theorem boot_mono (h : boot env m fuel s w = some r)
    (hle : fuel ≤ fuel') : boot env m fuel' s w = some r := by
  unfold boot at h ⊢
  cases he : (s.rewound m).enter m m.init [] with
  | error f => simpa only [he] using h
  | ok s' =>
    simp only [he] at h ⊢
    obtain ⟨x, hx, hr⟩ := Option.map_eq_some_iff.1 h
    exact Option.map_eq_some_iff.2 ⟨x, run_mono hx hle, hr⟩

end Machine

end EventScript
