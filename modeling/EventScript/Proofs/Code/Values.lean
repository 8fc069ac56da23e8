import EventScript.Proofs.Code.Assertions
import EventScript.Proofs.Code.Structured

/-!
# Types of values

`Ty.Admits` says which values a variable of a type can hold: those of the type, and any value for
`object`. The operations of the machine give values of the types that compiled code counts on
(`Plain.operands_admit`). Without the array extension they also have the operands that they need, so
the only fault is a division by zero (`Plain.operands_fault`).
-/

namespace EventScript

open List

/-- A variable of the type can hold the value. -/
def Ty.Admits (t : Ty) (v : Value) : Prop := t = .object ∨ v.isOf t = true

/-- Every value of the list is of the type in its place. -/
abbrev Ty.AdmitAll : List Ty → List Value → Prop := List.Forall₂ Ty.Admits

abbrev Module.Admits (m : Module) : List Value → Prop :=
  Ty.AdmitAll (m.globals.map GlobalSlot.ty)

instance (t : Ty) (v : Value) : Decidable (t.Admits v) := inferInstanceAs (Decidable (_ ∨ _))

namespace Ty.Admits

variable {t u : Ty} {v r : Value}

theorem default (h : t ≠ .void) : t.Admits (.default t) := by
  cases t with
  | void => exact absurd rfl h
  | object => exact .inl rfl
  | _ => exact .inr rfl

theorem ofConstant (c : Constant) : c.ty.Admits (.ofConstant c) := by
  cases c <;> exact .inr rfl

theorem isOf (h : t.Admits v) (ht : t ≠ .object) : v.isOf t = true := h.resolve_left ht

theorem ty_eq (h : t.Admits v) (ht : t ≠ .object) : v.ty = t := by
  have h := h.isOf ht
  unfold Value.isOf at h
  rw [Bool.and_eq_true] at h
  exact eq_of_beq h.2

theorem of_cast (h : v.cast u = .ok r) : u.Admits r := by
  unfold Value.cast at h
  split at h
  · rename_i x hx
    cases h
    cases u with
    | object => exact .inl rfl
    | _ => right; cases v <;> cases hx <;> rfl
  · cases h

/-- Without the array extension every conversion between types that convert succeeds. -/
theorem cast_ok (ht : t.Allowed true) (hu : u.Allowed true) (h : t.Converts u) (hv : t.Admits v) :
    ∃ r, v.cast u = .ok r := by
  have hty := hv.ty_eq (ht.2 rfl).2
  cases v with
  | undefined => exact absurd hty.symm (ht.2 rfl).2
  | array es => exact absurd hty.symm (ht.2 rfl).1
  | _ =>
    cases hty
    cases u with
    | void => exact absurd rfl hu.1
    | array => exact absurd rfl (hu.2 rfl).1
    | object => exact absurd rfl (hu.2 rfl).2
    | _ => first | exact ⟨_, rfl⟩ | exact absurd h (by dsimp only [Value.ty]; decide)

theorem negate (ht : t ∈ [Ty.integer, .float, .vector, .rotation]) (hv : t.Admits v) :
    ∃ r, v.negate = .ok r ∧ t.Admits r := by
  have hne : t ≠ .object := by rintro rfl; exact absurd ht (by decide)
  have hty := hv.ty_eq hne
  cases v <;> cases hty <;>
    first | exact ⟨_, rfl, .inr rfl⟩ | exact absurd ht (by dsimp only [Value.ty]; decide)

theorem component (hc : t.HasComponent c) (hv : t.Admits v) :
    ∃ d, v.component c = .ok (.float d) := by
  rcases hc with ⟨rfl, hs⟩ | rfl
  · have hty := hv.ty_eq nofun
    cases v <;> cases hty
    cases c <;> first | exact ⟨_, rfl⟩ | exact absurd rfl hs
  · have hty := hv.ty_eq nofun
    cases v <;> cases hty
    exact ⟨_, rfl⟩

theorem setComponent (hc : t.HasComponent c) (hv : t.Admits v) (d : Double) :
    ∃ r, v.setComponent c d = .ok r ∧ t.Admits r := by
  rcases hc with ⟨rfl, hs⟩ | rfl
  · have hty := hv.ty_eq nofun
    cases v <;> cases hty
    cases c <;> first | exact ⟨_, rfl, .inr rfl⟩ | exact absurd rfl hs
  · have hty := hv.ty_eq nofun
    cases v <;> cases hty
    exact ⟨_, rfl, .inr rfl⟩

theorem of_result {eval : BinEval} (h : eval.result l r = .ok v) : eval.resultTy.Admits v := by
  unfold BinEval.result at h
  split at h
  · rename_i x hx
    cases h
    right
    cases eval <;> simp only [BinEval.result?] at hx <;> first | (cases hx; rfl) | skip
    all_goals
      split at hx
      · cases hx
      · cases hx; rfl
  · cases h

end Ty.Admits

/-! ## Operands -/

namespace Operands

theorem pushResult_error (h : pushResult rest x = .error (e, stack)) : x = .error e := by
  cases x with
  | ok r => cases h
  | error e => cases h; rfl

theorem split?_eq_some (h : split? n stack = some (args, rest)) :
    n ≤ stack.length ∧ args = (stack.take n).reverse ∧ rest = stack.drop n := by
  unfold split? at h
  split at h
  · cases h; exact ⟨‹_›, rfl, rfl⟩
  · cases h

end Operands

namespace Compile

open Operands

variable {S S' : List Ty}

theorem admits_split (hvs : Ty.AdmitAll (params.reverse ++ S) vs)
    (h : split? params.length vs = some (args, rest)) :
    Ty.AdmitAll params args ∧ Ty.AdmitAll S rest := by
  obtain ⟨-, rfl, rfl⟩ := split?_eq_some h
  constructor
  · have htop := forall₂_take params.length hvs
    rw [take_left' length_reverse] at htop
    refine forall₂_reverse_iff.1 ?_
    rwa [reverse_reverse]
  · have hrest := forall₂_drop params.length hvs
    rwa [drop_left' length_reverse] at hrest

/-- An instruction that uses nothing but the operands gives values of the types it is to give. -/
theorem Plain.operands_admit (h : Plain Γ χ fresh op S S') (htests : Γ.tests = false)
    (hg : op.operate? = some g) (hvs : Ty.AdmitAll S vs) (hs : g vs = .ok stack) :
    Ty.AdmitAll S' stack := by
  cases h with
  | const _ | callApi _ _ | checkRun _ => cases hg
  | @load var _ _ _ => cases var <;> cases hg
  | default ht => cases hg; cases hs; exact .cons (.default ht.1) hvs
  | undefined _ => cases hg; cases hs; exact .cons (.inl rfl) hvs
  | pop => cases hvs; cases hg; cases hs; assumption
  | dup =>
    obtain _ | ⟨hv, hvs⟩ := hvs
    cases hg; cases hs
    exact .cons hv (.cons hv hvs)
  | cast _ _ _ =>
    obtain _ | ⟨hv, hvs⟩ := hvs
    cases hg
    obtain ⟨r, hr, rfl⟩ := pushResult_ok hs
    exact .cons (.of_cast hr) hvs
  | castSecond _ _ _ =>
    obtain _ | ⟨ha, _ | ⟨hv, hvs⟩⟩ := hvs
    cases hg
    dsimp only [below] at hs
    split at hs
    · rename_i r hr
      cases hs
      exact .cons ha (.cons (.of_cast hr) hvs)
    · cases hs
  | binary =>
    obtain _ | ⟨-, _ | ⟨-, hvs⟩⟩ := hvs
    cases hg
    obtain ⟨r, hr, rfl⟩ := pushResult_ok hs
    exact .cons (.of_result hr) hvs
  | neg ht =>
    obtain _ | ⟨hv, hvs⟩ := hvs
    cases hg
    obtain ⟨r, hr, rfl⟩ := pushResult_ok hs
    obtain ⟨r', hr', hadmits⟩ := hv.negate ht
    rw [hr] at hr'
    cases hr'
    exact .cons hadmits hvs
  | bitNot | not =>
    obtain _ | ⟨-, hvs⟩ := hvs
    cases hg; cases hs
    exact .cons (.inr rfl) hvs
  | isType _ ht =>
    have hne := ht.resolve_left (by simp [htests])
    rw [returned, if_neg hne] at hvs
    obtain _ | ⟨-, hvs⟩ := hvs
    cases hg; cases hs
    exact .cons (.inr rfl) hvs
  | @makeList n items S hn =>
    cases hg
    dsimp only [gather] at hs
    split at hs
    · rename_i args rest hsplit
      cases hs
      have hvs' : Ty.AdmitAll (items.reverse.reverse ++ S) vs := by
        rwa [reverse_reverse]
      rw [← hn, ← length_reverse] at hsplit
      exact .cons (.inr rfl) (admits_split hvs' hsplit).2
    · cases hs
  | makeVector =>
    obtain _ | ⟨-, _ | ⟨-, _ | ⟨-, hvs⟩⟩⟩ := hvs
    cases hg; cases hs
    exact .cons (.inr rfl) hvs
  | makeRotation =>
    obtain _ | ⟨-, _ | ⟨-, _ | ⟨-, _ | ⟨-, hvs⟩⟩⟩⟩ := hvs
    cases hg; cases hs
    exact .cons (.inr rfl) hvs
  | getField hc =>
    obtain _ | ⟨hv, hvs⟩ := hvs
    cases hg
    obtain ⟨r, hr, rfl⟩ := pushResult_ok hs
    obtain ⟨d, hd⟩ := hv.component hc
    cases hr.symm.trans hd
    exact .cons (.inr rfl) hvs
  | arrayGet _ | arrayKey _ | arrayValue _ =>
    obtain _ | ⟨-, _ | ⟨-, hvs⟩⟩ := hvs
    cases hg
    obtain ⟨r, hr, rfl⟩ := pushResult_ok hs
    exact .cons (.inl rfl) hvs
  | arrayCount _ =>
    obtain _ | @⟨_, v, _, _, -, hvs⟩ := hvs
    cases hg
    obtain ⟨r, hr, rfl⟩ := pushResult_ok hs
    refine .cons (.inr ?_) hvs
    cases v <;> cases hr
    rfl

/-- Such an instruction finds its operands. Without the array extension they are of types that it
has a value for, unless that is a division by zero. -/
theorem Plain.operands_fault (h : Plain Γ χ fresh op S S')
    (htests : Γ.core = true ∨ Γ.tests = false) (hg : op.operate? = some g)
    (hvs : Ty.AdmitAll S vs) (hs : g vs = .error (e, stack)) :
    e.isCorrupt = false ∧ (Γ.core = true → ¬ e.IsCodeError) := by
  have cast {v : Value} {t u : Ty} (hv : t.Admits v) (ht : t.Allowed Γ.core)
      (hu : u.Allowed Γ.core) (hconv : t.Converts u) (h : v.cast u = .error e) :
      e.isCorrupt = false ∧ (Γ.core = true → ¬ e.IsCodeError) := by
    refine ⟨?_, fun hcore => ?_⟩
    · unfold Value.cast at h
      split at h <;> cases h
      rfl
    · rw [hcore] at ht hu
      obtain ⟨r, hr⟩ := hv.cast_ok ht hu hconv
      cases h.symm.trans hr
  have arrays (hcore : Γ.core = false) (he : e.isCorrupt = false) :
      e.isCorrupt = false ∧ (Γ.core = true → ¬ e.IsCodeError) :=
    ⟨he, fun h => nomatch hcore.symm.trans h⟩
  cases h with
  | const _ | callApi _ _ | checkRun _ => cases hg
  | @load var _ _ _ => cases var <;> cases hg
  | default _ | undefined _ => cases hg; cases hs
  | pop | dup | bitNot | not => cases hvs; cases hg; cases hs
  | cast ht hu hconv =>
    obtain _ | ⟨hv, hvs⟩ := hvs
    cases hg
    exact cast hv ht hu hconv (pushResult_error hs)
  | castSecond ht hu hconv =>
    obtain _ | ⟨-, _ | ⟨hv, hvs⟩⟩ := hvs
    cases hg
    dsimp only [below] at hs
    split at hs
    · cases hs
    rename_i he
    cases hs
    exact cast hv ht hu hconv he
  | binary =>
    obtain _ | ⟨-, _ | ⟨-, hvs⟩⟩ := hvs
    cases hg
    have he := pushResult_error hs
    unfold BinEval.result at he
    split at he
    · cases he
    · cases he
      exact ⟨rfl, fun _ => id⟩
  | neg ht =>
    obtain _ | ⟨hv, hvs⟩ := hvs
    cases hg
    obtain ⟨r, hr, -⟩ := hv.negate ht
    cases (pushResult_error hs).symm.trans hr
  | isType hcore ht =>
    have htests := htests.resolve_left (by simp [hcore])
    rw [returned, if_neg (ht.resolve_left (by simp [htests]))] at hvs
    cases hvs
    cases hg
    cases hs
  | makeList hn =>
    cases hg
    dsimp only [gather] at hs
    split at hs
    · cases hs
    rename_i hnone
    have hlen := hvs.length_eq
    rw [length_append] at hlen
    unfold split? at hnone
    rw [if_pos (by omega)] at hnone
    cases hnone
  | makeVector =>
    obtain _ | ⟨-, _ | ⟨-, _ | ⟨-, hvs⟩⟩⟩ := hvs
    cases hg; cases hs
  | makeRotation =>
    obtain _ | ⟨-, _ | ⟨-, _ | ⟨-, _ | ⟨-, hvs⟩⟩⟩⟩ := hvs
    cases hg; cases hs
  | getField hc =>
    obtain _ | ⟨hv, hvs⟩ := hvs
    cases hg
    obtain ⟨d, hd⟩ := hv.component hc
    cases (pushResult_error hs).symm.trans hd
  | arrayGet hcore =>
    obtain _ | ⟨-, _ | @⟨_, v, _, _, -, hvs⟩⟩ := hvs
    cases hg
    have he := pushResult_error hs
    refine arrays hcore ?_
    cases v with
    | array es =>
      simp only [Value.entries, Entries.getValue, ArrayKey.ofValue, bind, Except.bind] at he
      split at he
      · rename_i hkey
        split at hkey <;> cases hkey
        cases he
        rfl
      · cases he
    | _ => cases he; rfl
  | arrayKey hcore | arrayValue hcore =>
    obtain _ | ⟨-, _ | @⟨_, v, _, _, -, hvs⟩⟩ := hvs
    cases hg
    have he := pushResult_error hs
    refine arrays hcore ?_
    cases v <;> cases he <;> rfl
  | arrayCount hcore =>
    obtain _ | @⟨_, v, _, _, -, hvs⟩ := hvs
    cases hg
    have he := pushResult_error hs
    refine arrays hcore ?_
    cases v <;> cases he <;> rfl

end Compile

end EventScript
