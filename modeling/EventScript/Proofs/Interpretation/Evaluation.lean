import EventScript.Proofs.Interpretation.Expressions

/-!
# Expressions compile to their values

`Bench.expr_evaluates`: the code of an expression without calls, run in any frame whose variables
hold values of their types, ends with the value of the expression on top of the operands that were
there before, or with a division by zero. The interpretation says which, and what the variables are
then. It evaluates the right operand before the left one, both operands of every operator, and reads
the target of a compound assignment after the value.
-/

namespace EventScript.Interp

open Compile Machine

variable {ω α β : Type}

/-- The interpretation gives a value if it comes to an end. -/
def Yields (i : Interp ω (Option Value)) : Prop :=
  ∀ ⦃σ r σ'⦄, i.run σ = .ok (r, σ') → ∃ v, r = some v

theorem Yields.bind (h : ∀ a, Yields (f a)) : Yields (i >>= f) := by
  intro σ r σ' hrun
  cases hi : i.run σ with
  | ok p => exact h p.1 ((bind_run_ok hi).symm.trans hrun)
  | error e => cases (bind_run_error hi).symm.trans hrun

theorem Yields.some (v : Value) : Yields (pure (some v) : Interp ω (Option Value)) := by
  intro σ r σ' hrun
  cases hrun
  exact ⟨v, rfl⟩

theorem eval_yields {I : Setting ω} (he : e.isCall = false) : Yields (eval I e) := by
  have stuck : Yields (stuck : Interp ω (Option Value)) := nofun
  cases e with
  | call name args span => cases he
  | undefined _ | index _ _ _ | method _ _ _ _ | isType _ _ _ => unfold eval; exact stuck
  | integer _ _ | float _ _ | string _ _ => unfold eval; exact .some _
  | _ =>
    repeat' first | exact .some _ | refine .bind fun _ => ?_

variable {B : Bench ω}

theorem Bench.expr_evaluates (hB : ¬ B.calling) {e : Expr} (hreg : e.Regular true Expr.Any)
    (hcalls : ∀ p ∈ e.parts, p.isCall = false) {s s' : State} {ty : Ty} {code : Code}
    (hgen : genExpr e B.context s = .done ty code s') (hapart : Apart s.scopes s.localCount)
    (hfits : B.Fits s code s') {S : List Value} {σ : Store ω} {M : Machine} {w : ω}
    (hM : B.Placed s.pc s.scopes S σ M w) :
    (∃ v σ' M' w', (eval B.setting e).run σ = .ok (some v, σ') ∧ ty.Admits v ∧
      Reaches B.setting.env B.module M w M' w' ∧ B.Placed s'.pc s.scopes (v :: S) σ' M' w') ∨
    ∃ globals M₁ M₂ w₁ w₂,
      (eval B.setting e).run σ = .error (.abandoned (.fault .divisionByZero) globals w₂) ∧
      Reaches B.setting.env B.module M w M₁ w₁ ∧
      step B.setting.env B.module M₁ w₁ = .halt (.fault .divisionByZero) M₂ w₂ ∧
      M₂.globals = globals.values := by
  have hno : ∀ p ∈ e.parts, p.isCall = true → B.calling := fun p hp hcall => by
    rw [hcalls p hp] at hcall
    cases hcall
  obtain ⟨-, -, hrun⟩ := genExpr_computes hreg hno S hgen rfl hapart hfits
  obtain ⟨M', w', hreach, hends⟩ := Leads.reaches (hrun hM) fun h => absurd h hB
  have hyields := eval_yields (I := B.setting) (hcalls e (by cases e <;> exact List.mem_cons_self))
  cases hr : (eval B.setting e).run σ with
  | ok p =>
    obtain ⟨v, hv⟩ := hyields hr
    obtain ⟨r, σ'⟩ := p
    obtain rfl : r = some v := hv
    rw [hr] at hends
    obtain ⟨S', hpushed, hplaced⟩ := hends
    rw [hpushed.stack] at hplaced
    exact .inl ⟨v, σ', M', w', rfl, hpushed.gives.2, hreach, hplaced⟩
  | error e =>
    rw [hr] at hends
    cases e with
    | abandoned why globals w₂ =>
      obtain ⟨hwhy, hshown⟩ := hends
      obtain rfl := hwhy.resolve_left hB
      obtain ⟨M₂, hstep, hglobals, -⟩ := hshown
      exact .inr ⟨globals, M', M₂, w', w₂, rfl, hreach, hstep, hglobals⟩
    | exhausted => exact absurd hends.1 hB
    | stuck => exact hends.elim

/-- The variable `x`, and `x` with two assigned to it: the assignment comes first. -/
def reassigned : Expr :=
  .binary .add (.name "x" default) (.assign none (.name "x" default) (.integer 2 default) default)
    default

/-- The variable is declared, in the first slot. -/
def oneVariable : State :=
  { (default : State) with
    localCount := 1
    scopes := [⟨none, [("x", ⟨0, .integer⟩)], [], [⟨0, .integer⟩], 0⟩] }

def reassigning : Bench Unit where
  setting := ⟨Host.null.bareEnv, default, .void, 0, fun _ _ => stuck⟩
  module := { (default : Module) with
    constants := #[.integer 2]
    functions := #[{ (default : Function) with
      localCount := 1
      ops := #[.pushConst 0, .dup, .storeLocal 0, .loadLocal 0, .binary .intAdd] }] }
  context := ⟨⟨⟨[]⟩, [], [], []⟩, .void, 0, [], none⟩
  marks := []
  index := 0
  function := _
  callers := []
  found := rfl
  ordered := ⟨nofun, nofun⟩
  calling := False
  linked := False.elim

theorem reassigned_evaluates :
    ∃ ty code s' M M' w' σ σ', genExpr reassigned reassigning.context oneVariable = .done ty code s' ∧
      reassigning.Placed 0 oneVariable.scopes [] σ M () ∧
      (eval reassigning.setting reassigned).run σ = .ok (some (.integer 4), σ') ∧
      Reaches reassigning.setting.env reassigning.module M () M' w' ∧
      reassigning.Placed s'.pc oneVariable.scopes [.integer 4] σ' M' w' := by
  have hgen : ∃ ty code s', genExpr reassigned reassigning.context oneVariable = .done ty code s' ∧
      s'.constants = [.integer 2] ∧ s'.localCount = 1 ∧ opsOf [] code =
        [.pushConst 0, .dup, .storeLocal 0, .loadLocal 0, .binary .intAdd] :=
    ⟨_, _, _, rfl, rfl, rfl, rfl⟩
  obtain ⟨ty, code, s', hgen, hconstants, hcount, hops⟩ := hgen
  let M : Machine := ⟨[], [⟨.script, 0, 0, [.integer 7], []⟩], 0, 0, none, 0⟩
  let σ : Store Unit := ⟨[], [⟨[("x", ⟨.integer, .integer 7⟩)], []⟩], ()⟩
  have hM : reassigning.Placed 0 oneVariable.scopes [] σ M () :=
    ⟨[.integer 7], ⟨rfl, rfl, rfl, .nil⟩, rfl, rfl,
      .cons ⟨.cons ⟨rfl, rfl, .inr rfl, rfl⟩ .nil, .nil⟩ .nil⟩
  have hfits : reassigning.Fits oneVariable code s' := by
    refine ⟨by rw [hconstants]; exact List.prefix_rfl, by rw [hcount]; decide, fun k op hk => ?_⟩
    rw [show reassigning.marks = [] from rfl, hops] at hk
    rw [show oneVariable.pc = 0 from rfl, Nat.zero_add]
    simpa [reassigning] using hk
  have heval : ∃ σ', (eval reassigning.setting reassigned).run σ = .ok (some (.integer 4), σ') :=
    ⟨_, rfl⟩
  obtain ⟨σ', heval⟩ := heval
  have hresult := Bench.expr_evaluates (B := reassigning) id (e := reassigned)
    (by simp [reassigned, Expr.Regular]) (by simp [reassigned, Expr.parts, Expr.isCall]) hgen
    ⟨by decide, by decide, by decide, by simp [oneVariable, Ty.Allowed]⟩ hfits hM
  rw [heval] at hresult
  obtain ⟨v, σ'', M', w', heq, -, hreach, hplaced⟩ | ⟨_, _, _, _, _, herror, -⟩ := hresult
  · cases heq
    exact ⟨ty, code, s', M, M', w', σ, σ', hgen, hM, heval, hreach, hplaced⟩
  · cases herror

end EventScript.Interp
