import EventScript.Proofs.Interpretation.Reference
import EventScript.Proofs.Steps

/-!
# Machines that follow an interpretation

`Interp.Follows` says that a machine does what an interpretation does: it comes to a state that goes
with the result, or it stops where the interpretation is abandoned. An interpretation that has used
up its bound stands for a machine that takes at least as many steps.

A machine can stop for reasons of its own: at a checkpoint, or because a limit is reached. Then
nothing more is said about it, so these stops are part of `Interp.Leads` and are left out of the
proofs about code. Code that is not `calling` calls nothing and has no checkpoints: it is never cut
off, uses up no bound, and is abandoned for no reason but a division by zero.
-/

namespace EventScript

def Fault.isLimit : Fault → Bool
  | .memoryLimit .. | .callDepth _ => true
  | _ => false

/-- The machine stops for a reason that the script does not have. -/
def Halt.cuts : Halt → Bool
  | .suspended => true
  | .fault e => e.isLimit
  | _ => false

namespace Interp

open Machine

variable {ω α : Type}

variable (calling : Prop) (env : Env ω) (m : Module) (Q : Machine → ω → Prop) in
/-- The machine comes to a state with the property, unless it is cut off before. -/
inductive Leads : Machine → ω → Prop
  | here : Q s w → Leads s w
  | next : step env m s w = .next s' w' → Leads s' w' → Leads s w
  | cut : calling → step env m s w = .halt why s' w' → why.cuts = true → Leads s w

/-- The machine takes a number of steps, unless it is cut off before. -/
inductive Lasts (env : Env ω) (m : Module) : Nat → Machine → ω → Prop
  | zero : Lasts env m 0 s w
  | next : step env m s w = .next s' w' → Lasts env m n s' w' → Lasts env m (n + 1) s w
  | cut : step env m s w = .halt why s' w' → why.cuts = true → Lasts env m n s w

theorem Leads.bind (h : Leads calling env m P s w)
    (hP : ∀ s w, P s w → Leads calling env m Q s w) : Leads calling env m Q s w := by
  induction h with
  | here h => exact hP _ _ h
  | next hstep _ ih => exact .next hstep ih
  | cut hcalling hstep hcut => exact .cut hcalling hstep hcut

theorem Leads.mono (h : Leads calling env m P s w) (hP : ∀ s w, P s w → Q s w) :
    Leads calling env m Q s w :=
  h.bind fun s w hs => .here (hP s w hs)

theorem Lasts.mono (h : Lasts env m n s w) (hle : n' ≤ n) : Lasts env m n' s w := by
  induction h generalizing n' with
  | zero => rw [Nat.le_zero.1 hle]; exact .zero
  | cut hstep hcut => exact .cut hstep hcut
  | next hstep _ ih =>
    cases n' with
    | zero => exact .zero
    | succ n' => exact .next hstep (ih (Nat.le_of_succ_le_succ hle))

theorem Leads.lasts (h : Leads calling env m (fun s w => calling ∧ Lasts env m n s w) s w) :
    calling ∧ Lasts env m n s w := by
  induction h with
  | here h => exact h
  | next hstep _ ih => exact ⟨ih.1, (Lasts.next hstep ih.2).mono (Nat.le_succ _)⟩
  | cut hcalling hstep hcut => exact ⟨hcalling, .cut hstep hcut⟩

/-- What a machine comes to if it is not cut off. -/
theorem Leads.reaches (h : Leads calling env m Q s w)
    (huncut : calling → ∀ s' w' why s'' w'', Reaches env m s w s' w' →
      step env m s' w' = .halt why s'' w'' → why.cuts = false) :
    ∃ s' w', Reaches env m s w s' w' ∧ Q s' w' := by
  induction h with
  | here h => exact ⟨_, _, .refl, h⟩
  | next hstep _ ih =>
    obtain ⟨s', w', hreach, hQ⟩ := ih fun hcalling s' w' why s'' w'' hr =>
      huncut hcalling s' w' why s'' w'' (.next hstep hr)
    exact ⟨s', w', .next hstep hreach, hQ⟩
  | cut hcalling hstep hcut =>
    exact absurd (huncut hcalling _ _ _ _ _ .refl hstep) (by rw [hcut]; decide)

/-- A machine that is not cut off and takes so many steps has not stopped after them. -/
theorem Lasts.run_eq_none (h : Lasts env m n s w)
    (huncut : ∀ s' w' why s'' w'', Reaches env m s w s' w' →
      step env m s' w' = .halt why s'' w'' → why.cuts = false) : run env m n s w = none := by
  induction h with
  | zero => rfl
  | next hstep _ ih =>
    rw [run_succ, hstep]
    exact ih fun s' w' why s'' w'' hr => huncut s' w' why s'' w'' (.next hstep hr)
  | cut hstep hcut => exact absurd (huncut _ _ _ _ _ .refl hstep) (by rw [hcut]; decide)

/-- The machine stops where the handling of an event is abandoned. -/
def Stops (env : Env ω) (m : Module) (why : Halt) (globals : Vars) (w' : ω) (s : Machine) (w : ω) :
    Prop :=
  ∃ s', step env m s w = .halt why s' w' ∧ s'.globals = globals.values ∧ s'.pending = none

/-- What the machine does where the handling of an event is abandoned. A change of state has been
asked for, and the functions are still to be left. -/
def Reason.Shown (env : Env ω) (m : Module) (globals : Vars) (w' : ω) :
    Reason → Machine → ω → Prop
  | .fault f => Stops env m (.fault f) globals w'
  | .signal x => Stops env m (.signal x) globals w'
  | .suspended => Stops env m .suspended globals w'
  | .changed t => fun s w => w = w' ∧ s.globals = globals.values ∧
    s.pending.map UInt16.toNat = some t

/-- What goes with the result of an interpretation that has a bound. -/
def Ends (calling : Prop) (env : Env ω) (m : Module) (bound : Nat)
    (Q : α → Store ω → Machine → ω → Prop) :
    Except (Stop ω) (α × Store ω) → Machine → ω → Prop
  | .ok (a, σ) => Q a σ
  | .error (.abandoned why globals w') => fun s w =>
    (calling ∨ why = .fault .divisionByZero) ∧ why.Shown env m globals w' s w
  | .error .exhausted => fun s w => calling ∧ Lasts env m bound s w
  | .error .stuck => fun _ _ => False

def Follows (calling : Prop) (env : Env ω) (m : Module) (bound : Nat)
    (r : Except (Stop ω) (α × Store ω)) (Q : α → Store ω → Machine → ω → Prop) (s : Machine) (w : ω) :
    Prop :=
  Leads calling env m (Ends calling env m bound Q r) s w

@[simp] theorem pure_run (a : α) (σ : Store ω) : (pure a : Interp ω α).run σ = .ok (a, σ) := rfl

theorem bind_run_ok {f : α → Interp ω β} (h : x.run σ = .ok (a, σ')) : (x >>= f).run σ = (f a).run
    σ' := by
  rw [StateT.run_bind, h]
  rfl

theorem bind_run_error {f : α → Interp ω β} (h : x.run σ = .error e) : (x >>= f).run σ = .error e :=
    by
  rw [StateT.run_bind, h]
  rfl

namespace Follows

theorem here (h : P a σ s w) : Follows calling env m bound (.ok (a, σ)) P s w :=
  Leads.here h

theorem abandoned {globals : Vars} (hwhy : calling ∨ why = .fault .divisionByZero)
    (h : why.Shown env m globals w' s w) :
    Follows calling env m bound (.error (.abandoned why globals w')) P s w := Leads.here ⟨hwhy, h⟩

theorem of_calling (hcalling : calling) (h : Follows True env m bound r P s w) :
    Follows calling env m bound r P s w := by rwa [eq_true hcalling]

theorem bind_post (h : Follows calling env m bound r P s w)
    (hP : ∀ a σ s w, P a σ s w → Leads calling env m (P' a σ) s w) :
    Follows calling env m bound r P' s w := by
  refine Leads.bind h fun s w hs => ?_
  match r with
  | .ok (a, σ) => exact hP a σ s w hs
  | .error (.abandoned _ _ _) => exact .here hs
  | .error .exhausted => exact .here hs
  | .error .stuck => exact .here hs

theorem mono (h : Follows calling env m bound r P s w) (hP : ∀ a σ s w, P a σ s w → P' a σ s w) :
    Follows calling env m bound r P' s w := h.bind_post fun a σ s w hs => .here (hP a σ s w hs)

theorem bind {f : α → Interp ω β} (hx : Follows calling env m bound (x.run σ) P s w)
    (hf : ∀ a σ s w, P a σ s w → Follows calling env m bound ((f a).run σ) Q s w) :
    Follows calling env m bound ((x >>= f).run σ) Q s w := by
  cases hr : x.run σ with
  | ok p =>
    rw [hr] at hx
    rw [bind_run_ok hr]
    exact Leads.bind hx fun s w hs => hf p.1 p.2 s w hs
  | error e =>
    rw [hr] at hx
    rw [bind_run_error hr]
    refine Leads.mono hx fun s w hs => ?_
    cases e <;> exact hs

theorem step (hstep : Machine.step env m s w = .next s' w')
    (h : Follows calling env m bound r P s' w') :
    Follows calling env m bound r P s w := Leads.next hstep h

theorem later (hstep : Machine.step env m s w = .next s' w')
    (h : Follows calling env m bound r P s' w') : Follows calling env m (bound + 1) r P s w := by
  match r with
  | .ok (a, σ) => exact Leads.next hstep h
  | .error (.abandoned _ _ _) => exact Leads.next hstep h
  | .error .exhausted =>
    obtain ⟨hcalling, hlasts⟩ := Leads.lasts h
    exact Leads.here ⟨hcalling, .next hstep hlasts⟩
  | .error .stuck => exact Leads.next hstep h

theorem of_le (hle : bound' ≤ bound) (h : Follows calling env m bound r P s w) :
    Follows calling env m bound' r P s w := by
  match r with
  | .ok (a, σ) => exact h
  | .error (.abandoned _ _ _) => exact h
  | .error .exhausted => exact Leads.mono h fun s w hs => ⟨hs.1, hs.2.mono hle⟩
  | .error .stuck => exact h

end Follows

end Interp

end EventScript
