import EventScript.Proofs.Code.Expressions
import EventScript.Proofs.Code.Values

/-!
# Tables and evaluation

The tables of conversions and operators promise what evaluation keeps (`tables_kept`): a conversion
that is allowed gives a value of its type, and the row of an operator a value of the type of the
row. Only a division by zero gives none.
-/

namespace EventScript

open List

/-- A value that is promised to convert does. -/
theorem Value.cast_of_converts {v : Value} (hv : v.ty ≠ .object) (h : v.ty.Converts t) :
    ∃ r, v.cast t = .ok r ∧ if t = .object then r = v else r.ty = t := by
  cases v with
  | undefined => exact absurd rfl hv
  | _ => cases t <;> first | exact ⟨_, rfl, rfl⟩ | exact absurd h (by dsimp only [ty]; decide)

theorem Ty.Converts.refl (t : Ty) : t.Converts t := .inl (by cases t <;> rfl)

/-- The evaluations that divide stand in rows of divisions and remainders. -/
theorem BinOp.lookup?_divides {op : BinOp} (h : op.lookup? l r = some e) :
    (e.eval ∈ [.intDiv, .intMod] → op ∈ [div, mod] ∧ e.right = .integer) ∧
    (e.eval ∈ [.floatDiv, .floatMod, .vecDivScalar] → op ∈ [div, mod] ∧ e.right = .float) := by
  have all : ∀ op ∈ BinOp.all, ∀ l ∈ Ty.all, ∀ r ∈ Ty.all, ∀ e ∈ op.lookup? l r,
      (e.eval ∈ [.intDiv, .intMod] → op ∈ [div, mod] ∧ e.right = .integer) ∧
      (e.eval ∈ [.floatDiv, .floatMod, .vecDivScalar] → op ∈ [div, mod] ∧ e.right = .float) := by
    decide +kernel
  exact all op (by cases op <;> decide) l (by cases l <;> decide) r (by cases r <;> decide) e h

theorem BinEval.result_fails {eval : BinEval} (h : eval.result l r = .error f) :
    f = .divisionByZero ∧ (eval ∈ [intDiv, intMod] ∧ r.asInt = 0 ∨
      eval ∈ [floatDiv, floatMod, vecDivScalar] ∧ r.asFloat.isZero = true) := by
  unfold result at h
  cases hr : eval.result? l r with
  | some v => rw [hr] at h; cases h
  | none =>
    rw [hr] at h
    cases h
    refine ⟨rfl, ?_⟩
    cases eval with
    | intDiv | intMod =>
      simp only [result?, ite_eq_left_iff, reduceCtorEq, imp_false, Decidable.not_not] at hr
      exact .inl ⟨by decide, hr⟩
    | floatDiv | floatMod | vecDivScalar =>
      simp only [result?, ite_eq_left_iff, reduceCtorEq, imp_false, Decidable.not_not] at hr
      exact .inr ⟨by decide, hr⟩
    | _ => cases hr

/-- A value converts to every type that the table of conversions allows for its own, and then has
that type; as an object it stays as it is. The operands of an operator with a row, its own or that
of integers in place of truth values, convert to the types of the row, and the result has the type
of the row, or the operator divides and the right operand is zero. -/
theorem tables_kept :
    (∀ (v : Value) (t : Ty) (explicit : Bool), v.ty ≠ .object → v.ty.canCast t explicit = true →
      ∃ r, v.cast t = .ok r ∧ if t = .object then r = v else r.ty = t) ∧
    ∀ (op : BinOp) (l r : Value) (e : OpEntry), op.lookup? l.ty r.ty = some e →
      ∃ l' r', l.cast e.left = .ok l' ∧ r.cast e.right = .ok r' ∧
        l'.ty = e.left ∧ r'.ty = e.right ∧
        ((∃ v, e.eval.result l' r' = .ok v ∧ v.ty = e.result) ∨
          e.eval.result l' r' = .error .divisionByZero ∧ op ∈ [BinOp.div, .mod] ∧
            (r' = .integer 0 ∨ ∃ d, r' = .float d ∧ d.isZero = true)) := by
  refine ⟨fun v t explicit hv h => v.cast_of_converts hv (converts_of_canCast h),
    fun op l r e he => ?_⟩
  obtain ⟨hresult, hright, hleft, hty⟩ := BinOp.lookup?_entry he
  have hcast {v : Value} {t : Ty} (hv : v.ty ∈ [l.ty, r.ty, e.left, e.right, e.result])
      (ht : t ∈ [l.ty, r.ty, e.left, e.right, e.result]) (h : v.ty ≠ t → v.ty.Converts t) :
      ∃ v', v.cast t = .ok v' ∧ v'.ty = t := by
    have hconverts : v.ty.Converts t := by
      by_cases heq : v.ty = t
      · exact heq ▸ .refl _
      · exact h heq
    obtain ⟨v', hv', htype⟩ := v.cast_of_converts (hty _ hv).2.2 hconverts
    rw [if_neg (hty _ ht).2.2] at htype
    exact ⟨v', hv', htype⟩
  obtain ⟨l', hl, hl'⟩ := hcast (v := l) (by simp) (by simp) hleft
  obtain ⟨r', hr, hr'⟩ := hcast (v := r) (by simp) (by simp) hright
  refine ⟨l', r', hl, hr, hl', hr', ?_⟩
  cases heval : e.eval.result l' r' with
  | ok v =>
    refine .inl ⟨v, rfl, ?_⟩
    have hadmits := Ty.Admits.of_result heval
    rw [← hresult] at hadmits
    exact hadmits.ty_eq (hty _ (by simp)).2.2
  | error f =>
    obtain ⟨rfl, hzero⟩ := BinEval.result_fails heval
    obtain ⟨hint, hfloat⟩ := BinOp.lookup?_divides he
    obtain ⟨hdiv, hzero⟩ | ⟨hdiv, hzero⟩ := hzero
    · obtain ⟨hop, ht⟩ := hint hdiv
      refine .inr ⟨rfl, hop, .inl ?_⟩
      cases r' <;> cases hr'.trans ht
      exact congrArg _ hzero
    · obtain ⟨hop, ht⟩ := hfloat hdiv
      refine .inr ⟨rfl, hop, .inr ?_⟩
      cases r' <;> cases hr'.trans ht
      exact ⟨_, rfl, hzero⟩

/-- The remainder of a truth value, which counts as an integer, by zero. -/
theorem widened_kept : ∃ e l r, BinOp.mod.lookup? .bool .integer = some e ∧
    (Value.bool true).cast e.left = .ok l ∧ (Value.integer 0).cast e.right = .ok r ∧
    l.ty = .integer ∧ e.eval.result l r = .error .divisionByZero := by
  obtain ⟨l, r, hl, hr, hty, -, -⟩ := tables_kept.2 .mod (.bool true) (.integer 0) _ rfl
  refine ⟨_, l, r, rfl, hl, hr, hty, ?_⟩
  cases hl
  cases hr
  rfl

end EventScript
