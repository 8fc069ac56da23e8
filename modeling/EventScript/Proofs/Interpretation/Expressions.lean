import EventScript.Proofs.Interpretation.Bench

/-!
# The code of expressions follows their interpretation

`genExpr_computes`: a machine that runs the code of an expression does what the interpretation does,
and ends with the value on the operand stack.

`Bench.Computes` relates an action that generates code to an interpretation. Its rules put actions
together in the way in which interpretations are put together, and also cover code without a
counterpart in the tree, as that which keeps account of the memory.
-/

namespace EventScript

open List

namespace Expr

def isCall : Expr → Bool
  | .call .. => true
  | _ => false

theorem mem_allParts (he : e ∈ es) (hp : p ∈ e.parts) : p ∈ allParts es := by
  induction es with
  | nil => cases he
  | cons x xs ih =>
    rcases mem_cons.1 he with rfl | he
    · exact mem_append_left _ hp
    · exact mem_append_right _ (ih he)

end Expr

namespace Interp

open Compile Machine

set_option synthInstance.maxSize 1000

variable {ω α β γ δ : Type}

namespace Bench

/-- Generated code is part of the code of the function. -/
structure Fits (B : Bench ω) (s : State) (code : Code) (s' : State) : Prop where
  constants : s'.constants <+: B.module.constants.toList
  slots : s'.localCount ≤ B.slots
  code : B.Has s.pc (opsOf B.marks code)

section

variable {B : Bench ω}

theorem Fits.first (h : B.Fits s (code1 ++ code2) s') (hle : s1.Le s') : B.Fits s code1 s1 where
  constants := hle.constants.trans h.constants
  slots := hle.localCount.trans h.slots
  code := by
    have := h.code
    rw [opsOf_append] at this
    exact this.left

theorem Fits.second (h : B.Fits s (code1 ++ code2) s') (hpc : s1.pc = s.pc + code1.length) :
    B.Fits s1 code2 s' where
  constants := h.constants
  slots := h.slots
  code := by
    have := h.code
    rw [opsOf_append] at this
    rw [hpc, ← length_opsOf B.marks code1]
    exact this.right

end

/-- Code has been generated while the scopes were open. -/
structure Made (scopes : List Compile.Scope) (s : State) (code : Code) (s' : State) : Prop where
  scopes : s'.scopes = scopes
  pc : s'.pc = s.pc + code.length
  count : s.localCount ≤ s'.localCount

theorem Made.trans {scopes1 scopes : List Compile.Scope} (h1 : Made scopes1 s code1 s1)
    (h2 : Made scopes s1 code2 s') : Made scopes s (code1 ++ code2) s' where
  scopes := h2.scopes
  pc := by rw [h2.pc, h1.pc, length_append, Nat.add_assoc]
  count := h1.count.trans h2.count

theorem Made.of_emits {scopes : List Compile.Scope} (hx : Gen.Emits c scopes x ops)
    (h : x c s = .done () code s')
    (hs : s.scopes = scopes) : Made scopes s code s' ∧ ∀ marks, opsOf marks code = ops := by
  obtain ⟨emitted, hemitted, hops⟩ := hx s hs
  rw [h] at hemitted
  cases hemitted
  exact ⟨⟨hs, by rw [← hops [], length_opsOf], le_rfl⟩, hops⟩

/-- The code of the action does what the interpretation does; their values and the operands after
them are related. What is known about the value of the action must not hang on whether the
interpretation ends, so there is always a value that it could have. -/
def Computes (B : Bench ω) (scopes : List Compile.Scope) (x : Gen α) (S : List Value)
    (i : Interp ω β) (R : α → β → List Value → Prop) : Prop :=
  ∀ ⦃s a code s'⦄, x B.context s = .done a code s' → s.scopes = scopes → Apart scopes s.localCount →
    B.Fits s code s' → Made scopes s code s' ∧ (∃ b S', R a b S') ∧
    ∀ ⦃σ M w⦄, B.Placed s.pc scopes S σ M w → B.Follows (i.run σ)
      (fun b σ' M' w' => ∃ S', R a b S' ∧ B.Placed s'.pc scopes S' σ' M' w') M w

/-- Code without a counterpart in the interpretation, with known operands behind it. -/
abbrev Passes (B : Bench ω) (scopes : List Compile.Scope) (x : Gen α) (S : List Value)
    (P : α → List Value → Prop) : Prop :=
  B.Computes scopes x S (pure ()) fun a (_ : Unit) S' => P a S'

variable {B : Bench ω}

namespace Computes

theorem mono (h : B.Computes scopes x S i R) (hR : ∀ a b S', R a b S' → R' a b S') :
    B.Computes scopes x S i R' := by
  intro s a code s' hx hs hapart hfits
  obtain ⟨hmade, ⟨b, S', hb⟩, hrun⟩ := h hx hs hapart hfits
  refine ⟨hmade, ⟨b, S', hR a b S' hb⟩, fun σ M w hM => (hrun hM).mono ?_⟩
  rintro b σ' M' w' ⟨S', hR', hplaced⟩
  exact ⟨S', hR _ _ _ hR', hplaced⟩

theorem pure (h : R a b S) : B.Computes scopes (Pure.pure a) S (Pure.pure b) R := by
  intro s a' code s' hx hs _ _
  cases hx
  exact ⟨⟨hs, rfl, le_rfl⟩, ⟨b, S, h⟩, fun σ M w hM => .here ⟨S, h, hM⟩⟩

theorem fail {span : Span} : B.Computes scopes (Gen.fail e span) S i R := nofun

theorem bind_of_grows (hx : B.Computes scopes x S i R)
    (hf : ∀ a b S1, R a b S1 → B.Computes scopes (f a) S1 (j b) Q) (hgrows : ∀ a, Gen.Grows (f a)) :
    B.Computes scopes (x >>= f) S (i >>= j) Q := by
  intro s c code s' hdone hs hapart hfits
  obtain ⟨a, code1, s1, code2, h1, h2, rfl⟩ := Gen.bind_done hdone
  have hle : s1.Le s' := (hgrows a).of_done h2
  obtain ⟨hmade1, ⟨b, S1, hR⟩, hrun1⟩ := hx h1 hs hapart (hfits.first hle)
  have hrest : ∀ b S1, R a b S1 → _ := fun b S1 hR =>
    hf a b S1 hR h2 hmade1.scopes (hapart.mono hmade1.count) (hfits.second hmade1.pc)
  obtain ⟨hmade2, hQ, -⟩ := hrest b S1 hR
  refine ⟨hmade1.trans hmade2, hQ, fun σ M w hM => Follows.bind (hrun1 hM) ?_⟩
  rintro b σ' M' w' ⟨S1, hR, hplaced⟩
  exact (hrest b S1 hR).2.2 hplaced

theorem bind [hgrows : ∀ a, Gen.Grows (f a)] (hx : B.Computes scopes x S i R)
    (hf : ∀ a b S1, R a b S1 → B.Computes scopes (f a) S1 (j b) Q) :
    B.Computes scopes (x >>= f) S (i >>= j) Q := bind_of_grows hx hf hgrows

theorem skip_of_grows {Q : γ → β → List Value → Prop} (hx : B.Passes scopes x S P)
    (hf : ∀ a S1, P a S1 → B.Computes scopes (f a) S1 i Q)
    (hgrows : ∀ a, Gen.Grows (f a)) : B.Computes scopes (x >>= f) S i Q :=
  bind_of_grows hx (fun a _ S1 h => hf a S1 h) hgrows

theorem skip [hgrows : ∀ a, Gen.Grows (f a)] {Q : γ → β → List Value → Prop}
    (hx : B.Passes scopes x S P)
    (hf : ∀ a S1, P a S1 → B.Computes scopes (f a) S1 i Q) : B.Computes scopes (x >>= f) S i Q :=
  skip_of_grows hx hf hgrows

theorem ite [Decidable p] (hx : p → B.Computes scopes x S i R)
    (hy : ¬p → B.Computes scopes y S i R) : B.Computes scopes (if p then x else y) S i R := by
  by_cases h : p
  · rw [if_pos h]; exact hx h
  · rw [if_neg h]; exact hy h

theorem when [Decidable p] {x : Gen Unit} {f : Unit → Gen γ} {R : β → List Value → Prop}
    [∀ u, Gen.Grows (f u)] (hx : p → B.Computes scopes x S i fun _ => R)
    (hn : ¬p → ∃ b, i = Pure.pure b ∧ R b S)
    (hf : ∀ b S1, R b S1 → B.Computes scopes (f ()) S1 (j b) Q) :
    B.Computes scopes (if p then x >>= f else f ()) S (i >>= j) Q := by
  refine .ite (fun h => .bind (hx h) fun _ => hf) fun h => ?_
  obtain ⟨b, rfl, hb⟩ := hn h
  exact hf b S hb

theorem context {f : Context → Gen α} (h : B.Computes scopes (f B.context) S i R) :
    B.Computes scopes (Gen.context >>= f) S i R := by
  intro s b code s' hb hs hapart hfits
  obtain ⟨code2, h2, rfl⟩ := Gen.rest_done rfl hb
  exact h h2 hs hapart hfits

theorem ret {g : β → δ} {Q : α → δ → List Value → Prop} (hx : B.Computes scopes x S i R)
    (hR : ∀ a b S', R a b S' → Q a (g b) S') :
    B.Computes scopes x S (i >>= fun b => Pure.pure (g b)) Q := by
  intro s a code s' hdone hs hapart hfits
  obtain ⟨hmade, ⟨b, S', hb⟩, hrun⟩ := hx hdone hs hapart hfits
  refine ⟨hmade, ⟨g b, S', hR a b S' hb⟩, fun σ M w hM => Follows.bind (hrun hM) ?_⟩
  rintro b σ' M' w' ⟨S', hR', hplaced⟩
  exact .here ⟨S', hR a b S' hR', hplaced⟩

theorem post [∀ a, Gen.Grows (f a)] {Q : γ → β → List Value → Prop} (hx : B.Computes scopes x S i R)
    (hf : ∀ a b S1, R a b S1 → B.Passes scopes (f a) S1 fun c S' => Q c b S') :
    B.Computes scopes (x >>= f) S i Q := by
  rw [← bind_pure i]
  refine bind hx fun a b S1 hR => ?_
  intro s c code s' hdone hs hapart hfits
  obtain ⟨hmade, ⟨_, S', hQ⟩, hrun⟩ := hf a b S1 hR hdone hs hapart hfits
  exact ⟨hmade, ⟨b, S', hQ⟩, hrun⟩

theorem known {j : δ → Interp ω β} (hk : ∀ ⦃pc σ M w⦄, B.Placed pc scopes S σ M w → k.run σ = .ok
    (d, σ)) (hx : B.Computes scopes x S (j d) R) : B.Computes scopes x S (k >>= j) R := by
  intro s a code s' hdone hs hapart hfits
  obtain ⟨hmade, hR, hrun⟩ := hx hdone hs hapart hfits
  refine ⟨hmade, hR, fun σ M w hM => ?_⟩
  rw [bind_run_ok (hk hM)]
  exact hrun hM

theorem of_emits {x : Gen Unit} {R : Unit → β → List Value → Prop}
    (hx : Gen.Emits B.context scopes x ops) (hR : ∃ b S', R () b S')
    (hrun : ∀ ⦃n pc locals σ M w⦄, Apart scopes n → n ≤ B.slots → B.Has pc ops →
      B.At pc scopes locals S σ M w → B.Follows (i.run σ)
        (fun b σ' M' w' => ∃ S', R () b S' ∧ B.Placed (pc + ops.length) scopes S' σ' M' w') M w) :
    B.Computes scopes x S i R := by
  intro s a code s' hdone hs hapart hfits
  obtain ⟨hmade, ho⟩ := Made.of_emits hx hdone hs
  have hcode := hfits.code
  rw [ho] at hcode
  refine ⟨hmade, hR, ?_⟩
  rintro σ M w ⟨locals, hM⟩
  rw [hmade.pc, ← length_opsOf B.marks, ho]
  exact hrun (hapart.mono hmade.count) hfits.slots hcode hM

end Computes

namespace Passes

theorem of_emits (hx : Gen.Emits B.context scopes x ops)
    (hrun : ∀ ⦃n pc locals σ M w⦄, Apart scopes n → n ≤ B.slots → B.Has pc ops →
      B.At pc scopes locals S σ M w → B.Leads (B.Placed (pc + ops.length) scopes S' σ) M w) :
    B.Passes scopes x S fun _ S1 => S1 = S' :=
  Computes.of_emits hx ⟨(), S', rfl⟩ fun _ _ _ _ _ _ hapart hn hops hM =>
    (hrun hapart hn hops hM).mono fun _ _ hs => ⟨S', rfl, hs⟩

theorem idle (hx : Gen.Emits B.context scopes x ops)
    (hidle : ∀ ⦃n⦄, Apart scopes n → n ≤ B.slots → ∀ op ∈ ops, B.Idle op) :
    B.Passes scopes x S fun _ S1 => S1 = S :=
  of_emits hx fun _ _ _ _ _ _ hapart hn hops hM =>
    (hM.idles hops (hidle hapart hn)).mono fun _ _ hs => ⟨_, hs⟩

theorem setPlace (span : Span) : B.Passes scopes (Gen.setPlace span) S fun _ S1 => S1 = S := by
  intro s a code s' h hs _ _
  cases h
  exact ⟨⟨hs, rfl, le_rfl⟩, ⟨(), S, rfl⟩, fun σ M w hM => .here ⟨S, rfl, hM⟩⟩

theorem emitConstant (v : Constant) (span : Span) :
    B.Passes scopes (Gen.emitConstant v span) S fun _ S1 => S1 = .ofConstant v :: S := by
  intro s a code s' h hs _ hfits
  obtain ⟨i, _, s1, _, h1, h2, rfl⟩ := Gen.bind_done h
  obtain ⟨rfl, hi, hs1⟩ := constantIndex_done h1
  cases h2
  have hv : B.module.constant? i = some v := by
    have := getElem?_of_prefix hfits.constants hi
    rwa [Array.getElem?_toList] at this
  rw [hs1]
  refine ⟨⟨hs, rfl, le_rfl⟩, ⟨(), _, rfl⟩, ?_⟩
  rintro σ M w ⟨locals, hM⟩
  exact (hM.pushConst hfits.code.head hv).mono fun _ _ hs => ⟨_, rfl, locals, hs⟩

theorem operate (hg : op.operate? = some g)
    (hS : g S = .ok S') : B.Passes scopes (Gen.emit op) S fun _ S1 => S1 = S' :=
  of_emits (.emit op) fun _ _ _ _ _ _ _ _ hops hM =>
    (hM.operate hops.head hg hS).mono fun _ _ hs => ⟨_, hs⟩

end Passes

theorem Computes.lift {op : Op} {result : Value → List Value} (hg : op.operate? = some g)
    (hok : ∀ v, x = .ok v → g S = .ok (result v))
    (herror : ∀ e, x = .error e → e = .divisionByZero ∧ ∃ rest, g S = .error (e, rest))
    (hR : ∃ v S', R v S') (hresult : ∀ v, x = .ok v → R v (result v)) :
    B.Computes scopes (Gen.emit op) S (Interp.lift x) fun _ => R := by
  refine .of_emits (.emit op) hR fun _ _ locals _ _ _ _ _ hops hM => ?_
  refine (hM.compute hops.head hg hok herror).mono ?_
  rintro v σ' M' w' ⟨hx, hat, rfl⟩
  exact ⟨result v, hresult v hx, locals, hat⟩

theorem Computes.unary (hop : op.operate? = some (Operands.unary f)) (hr : f v = .ok r)
    (hR : R r (r :: S)) :
    B.Computes scopes (Gen.emit op) (v :: S) (Interp.lift (f v)) fun _ => R := by
  have hresult : ∀ x, f v = .ok x → R x (x :: S) := fun x hx => by
    cases hr.symm.trans hx
    exact hR
  refine .lift hop (fun x hx => ?_) (fun e he => ?_) ⟨r, _, hR⟩ hresult
  · dsimp only [Operands.unary]; rw [hx]; rfl
  · cases hr.symm.trans he

/-! ## Values on the stack -/

/-- The value of an expression of the type is pushed, if there is one. -/
structure Pushed (S : List Value) (ty : Ty) (r : Option Value) (S' : List Value) : Prop where
  stack : S' = r.toList ++ S
  gives : Gives ty r
  allowed : ty = .void ∨ ty.Allowed true

/-- A value of the type is on top. -/
structure OnTop (S : List Value) (ty : Ty) (v : Value) (S' : List Value) : Prop where
  stack : S' = v :: S
  admits : ty.Admits v

variable {v : Value}
  {span : Span}

/-- A value of a type that values have is on top. -/
abbrev Valued (S : List Value) (ty : Ty) (v : Value) (S' : List Value) : Prop :=
  OnTop S ty v S' ∧ ty.Allowed true

theorem OnTop.pushed (h : OnTop S ty v S1) (hty : ty.Allowed true) : Pushed S ty (some v) S1 :=
  ⟨h.stack, ⟨hty.1, h.admits⟩, .inr hty⟩

theorem OnTop.possible (hty : ty.Allowed true) : ∃ v S', OnTop S ty v S' :=
  ⟨.default ty, _, rfl, .default hty.1⟩

theorem Pushed.some (h : Pushed S ty (some v) S1) : OnTop S ty v S1 ∧ ty.Allowed true :=
  ⟨⟨h.stack, h.gives.2⟩, h.allowed.resolve_left h.gives.1⟩

theorem OnTop.ty_eq (h : OnTop S ty v S1) (hty : ty.Allowed true) : v.ty = ty :=
  h.admits.ty_eq (hty.2 rfl).2

theorem cast_computes (hv : OnTop S source v S1) (hs : source.Allowed true)
    (ht : target.Allowed true) (hne : source ≠ target) (hconv : source.Converts target) :
    B.Computes scopes (Gen.emit (.cast target)) S1 (convert target v) fun _ => OnTop S target := by
  unfold convert
  rw [if_neg (hv.ty_eq hs ▸ hne), hv.stack]
  obtain ⟨r, hr⟩ := hv.admits.cast_ok hs ht hconv
  exact .unary (f := (·.cast target)) rfl hr ⟨rfl, .of_cast hr⟩

theorem coerce_computes (hv : OnTop S source v S1) (hs : source.Allowed true)
    (ht : target.Allowed true) :
    B.Computes scopes (Gen.coerce source target explicit span) S1 (convert target v)
      fun _ => OnTop S target := by
  refine .ite (fun h => ?_) fun h => .ite (fun _ => .fail) fun _ => .ite (fun hcast => ?_)
    fun _ => .ite (fun _ => .fail) fun _ => .fail
  · unfold convert
    rw [if_pos ((hv.ty_eq hs).trans h)]
    exact .pure ⟨hv.stack, h ▸ hv.admits⟩
  · exact cast_computes hv hs ht h (converts_of_canCast hcast)

theorem coerce_operandAs (hr : Pushed S source r S1) (ht : target.Allowed true) :
    B.Computes scopes (Gen.coerce source target explicit span) S1 (operandAs target r)
      fun _ => OnTop S target := by
  cases r with
  | some v => exact coerce_computes hr.some.1 hr.some.2 ht
  | none =>
    obtain rfl : source = .void := hr.gives
    unfold Gen.coerce
    rw [if_neg (Ne.symm ht.1), if_pos rfl]
    exact .fail

/-! ## Operators -/

theorem castSecond_computes (hv : source.Admits v) (hs : source.Allowed true)
    (ht : target.Allowed true) (hne : source ≠ target) (hconv : source.Converts target) :
    B.Computes scopes (Gen.emit (.castSecond target)) (l :: v :: S) (convert target v)
      fun _ x S' => S' = l :: x :: S ∧ target.Admits x := by
  unfold convert
  rw [if_neg (hv.ty_eq (hs.2 rfl).2 ▸ hne)]
  obtain ⟨r, hr⟩ := hv.cast_ok hs ht hconv
  refine .lift rfl (fun r hr => ?_) (fun e he => ?_) ⟨r, _, rfl, .of_cast hr⟩
    fun r hr => ⟨rfl, .of_cast hr⟩
  · dsimp only [Operands.below]; rw [hr]
  · cases hr.symm.trans he

theorem binary_computes (eval : BinEval) (hresult : eval.resultTy.Allowed true) (l r : Value) :
    B.Computes scopes (Gen.emit (.binary eval)) (l :: r :: S) (Interp.lift (eval.result l r))
      fun _ => OnTop S eval.resultTy := by
  refine .lift rfl (fun v hv => ?_) (fun e he => ⟨?_, S, ?_⟩) (OnTop.possible hresult)
    fun v hv => ⟨rfl, .of_result hv⟩
  · dsimp only [Operands.binary]; rw [hv]; rfl
  · unfold BinEval.result at he
    split at he <;> cases he
    rfl
  · dsimp only [Operands.binary]; rw [he]; rfl

theorem genBinary_computes {compound : Bool} {r : Value} (hl : left.Admits l)
    (hlt : left.Allowed true) (hr : right.Admits r) (hrt : right.Allowed true) :
    B.Computes scopes (genBinary left op right compound span) (l :: r :: S) (combine op l r)
      fun ty v S' => OnTop S ty v S' ∧ ty.Allowed true ∧ (compound = true → ty = left) := by
  have hlty := hl.ty_eq (hlt.2 rfl).2
  have hrty := hr.ty_eq (hrt.2 rfl).2
  unfold genBinary
  split
  · exact .fail
  rename_i e he
  obtain ⟨he, hcompound⟩ := Option.filter_eq_some_iff.1 he
  obtain ⟨hresult, hconvr, hconvl, hne⟩ := BinOp.lookup?_entry he
  have allowed : ∀ ty ∈ [left, right, e.left, e.right, e.result], ty.Allowed true :=
    fun ty hty => ⟨(hne ty hty).1, fun _ => (hne ty hty).2⟩
  have hsame : compound = true → e.result = left := fun h => by
    simp only [h, Bool.not_true, Bool.false_or, Bool.and_eq_true, beq_iff_eq] at hcompound
    exact hcompound.2
  unfold combine
  rw [hlty, hrty, he]
  refine .when (fun h => castSecond_computes hr hrt (allowed _ (by simp)) h (hconvr h))
    (fun h => ⟨r, if_pos (hrty.trans (not_not.1 h)), rfl, not_not.1 h ▸ hr⟩) fun r' S1 h1 => ?_
  rw [h1.1]
  refine .when (fun h => cast_computes ⟨rfl, hl⟩ hlt (allowed _ (by simp)) h (hconvl h))
    (fun h => ⟨l, if_pos (hlty.trans (not_not.1 h)), rfl, not_not.1 h ▸ hl⟩) fun l' S2 h2 => ?_
  rw [h2.stack]
  refine .post (binary_computes e.eval (hresult ▸ allowed _ (by simp)) l' r') fun _ v S3 h3 => ?_
  exact .pure ⟨hresult ▸ h3, allowed _ (by simp), hsame⟩

/-- The operands are values that have been pushed, the left one last. -/
theorem genBinary_operands {l r : Option Value} (hr : Pushed S right r S1)
    (hl : Pushed S1 left l S2) : B.Computes scopes (genBinary left op right compound span) S2
      (operand l >>= fun l => operand r >>= fun r => combine op l r)
      fun ty v S' => OnTop S ty v S' ∧ ty.Allowed true ∧ (compound = true → ty = left) := by
  have hvoid : left = .void ∨ right = .void →
      (op.lookup? left right).filter (fun e => !compound || (e.assignable && e.result == left)) =
        none := by
    intro h
    rw [Option.filter_eq_none_iff]
    intro e he
    obtain ⟨-, -, -, hne⟩ := BinOp.lookup?_entry he
    rcases h with h | h
    · exact absurd h (hne left (by simp)).1
    · exact absurd h (hne right (by simp)).1
  cases l with
  | none =>
    unfold genBinary
    rw [hvoid (.inl hl.gives)]
    exact .fail
  | some l =>
    cases r with
    | none =>
      unfold genBinary
      rw [hvoid (.inr hr.gives)]
      exact .fail
    | some r =>
      rw [hl.stack, hr.stack]
      exact genBinary_computes hl.gives.2 hl.some.2 hr.gives.2 hr.some.2

theorem genUnary_computes {op : UnaryOp} (hr : Pushed S ty r S1) :
    B.Computes scopes (genUnary op ty span) S1 (operand r >>= fun v => unary op v) (Valued S) := by
  cases r with
  | none =>
    obtain rfl : ty = .void := hr.gives
    cases op <;> exact Computes.fail
  | some v =>
    obtain ⟨hv, hty⟩ := hr.some
    have negated : ty ∈ [Ty.integer, .float, .vector, .rotation] →
        B.Computes scopes (do Gen.emit .neg; pure ty) S1 (Interp.lift v.negate) (Valued S) := by
      intro hmem
      obtain ⟨x, hx, hadmits⟩ := hv.admits.negate hmem
      rw [hv.stack]
      exact .post (.unary rfl hx ⟨rfl, hadmits⟩) fun _ x S2 hx => .pure ⟨hx, hty⟩
    have flipped : B.Computes scopes
        (do Gen.coerce ty .integer false span; Gen.emit .bitNot; pure Ty.integer) S1
        (unary .bitNot v) (Valued S) := by
      refine .bind (coerce_computes hv hty (allowed_of_basic rfl)) fun _ n S2 hn => ?_
      rw [hn.stack]
      refine .skip (.operate rfl rfl) fun _ S3 h3 => .pure ⟨⟨h3, .inr rfl⟩, (allowed_of_basic rfl)⟩
    unfold genUnary
    split
    · exact negated (by decide)
    · exact negated (by decide)
    · exact negated (by decide)
    · exact negated (by decide)
    · exact flipped
    · exact flipped
    · refine .ite (fun _ => ?_) fun _ => .fail
      rw [hv.stack]
      exact .skip (.operate rfl rfl) fun _ S2 h2 => .pure ⟨⟨h2, .inr rfl⟩, (allowed_of_basic rfl)⟩
    · exact .fail

/-! ## Components and items -/

theorem componentOf_passes : B.Passes scopes (componentOf ty field span) S fun c S' =>
      S' = S ∧ ty.HasComponent c ∧ Component.ofName? field = some c := by
  unfold componentOf
  split
  · exact .fail
  · rename_i hs hc
    exact .pure ⟨rfl, .inl ⟨rfl, fun h => hs (h ▸ rfl)⟩, hc⟩
  · rename_i hc
    exact .pure ⟨rfl, .inr rfl, hc⟩
  · exact .fail

theorem component_eq (h : Component.ofName? field = some c) :
    (component field : Interp ω Component) = pure c := by
  unfold component
  rw [h]

theorem getField_computes {ty : Ty} (hc : ty.HasComponent c) (hv : ty.Admits v) :
    B.Computes scopes (Gen.emit (.getField c)) (v :: S) (Interp.lift (v.component c))
      fun _ => OnTop S .float := by
  obtain ⟨d, hd⟩ := hv.component hc
  exact .unary (f := (·.component c)) rfl hd ⟨rfl, .inr rfl⟩

theorem genField_computes (hr : Pushed S ty r S1) : B.Computes scopes (genField ty field span) S1
      (operand r >>= fun v => component field >>= fun c => Interp.lift (v.component c))
      (Valued S) := by
  refine .ite (fun h => ?_) fun _ => ?_
  · obtain ⟨rfl, -⟩ := h
    rcases hr.allowed with h | h
    · cases h
    · exact absurd rfl (h.2 rfl).1
  · refine .skip componentOf_passes fun c S2 hc => ?_
    obtain ⟨rfl, hc, hname⟩ := hc
    have hty : ty.Allowed true := allowed_of_hasComponent hc
    cases r with
    | none => exact absurd hr.gives hty.1
    | some v =>
      rw [hr.stack]
      rw [component_eq hname]
      exact .post (getField_computes hc hr.gives.2) fun _ x S3 hx => .pure ⟨hx, (allowed_of_basic rfl)⟩

theorem genListItem_computes (hr : Pushed S ty r S1) :
    B.Computes scopes (genListItem ty span) S1 (operand r >>= fun v => item v)
      fun _ v S' => S' = v :: S := by
  cases r with
  | none =>
    obtain rfl : ty = .void := hr.gives
    exact .fail
  | some v =>
    obtain ⟨hv, hty⟩ := hr.some
    have heq := hv.ty_eq hty
    show B.Computes scopes _ _ (item v) _
    unfold item
    rw [heq]
    unfold genListItem
    split
    · exact .fail
    · exact .fail
    · exact .fail
    · rw [if_pos rfl]
      exact (cast_computes hv hty (allowed_of_basic rfl) (by decide) (.inl rfl)).mono
        fun _ x S2 hx => hx.stack
    · rename_i hbool
      rw [if_neg hbool]
      exact .pure hv.stack

/-! ## Variables -/

theorem cell_run (h : σ.cell? name = some x) : (cell name).run σ = .ok (x, σ) := by
  show cell name σ = _
  unfold cell
  rw [h]

theorem read_run (h : σ.cell? name = some x) : (read name).run σ = .ok (x.value, σ) := by
  show read name σ = _
  unfold read
  rw [h]

theorem assign_run (h : σ.assign? name v = some σ') : (assign name v).run σ = .ok ((), σ') := by
  show assign name v σ = _
  unfold assign
  rw [h]

theorem Computes.meaning
    (hf : ∀ m, (∀ var ty, m = some (.var var ty) → B.Resolves scopes name var ty ∧ ty.Allowed true)
    → (∀ c, m = some (.constant c) → Gen.localOf? name scopes = none ∧
        B.names.globals.lookup name = none ∧ Constant.ofName? name = some c) →
      B.Computes scopes (f m) S i R) : B.Computes scopes (Gen.meaning? name >>= f) S i R := by
  intro s a code s' h hs hapart hfits
  obtain ⟨code2, h2, rfl⟩ := Gen.rest_done rfl h
  subst hs
  refine hf _ (fun var ty hm => ?_) (fun c hc => constant_of_meaning hc) h2 rfl hapart hfits
  exact ⟨resolves_of_meaning hm, (resolves_of_meaning hm).allowed hapart⟩

theorem varOf_passes : B.Passes scopes (Gen.varOf name span) S fun v S' =>
    S' = S ∧ B.Resolves scopes name v.1 v.2 ∧ v.2.Allowed true := by
  refine .meaning fun m hvar _ => ?_
  split
  · exact .pure ⟨rfl, hvar _ _ rfl⟩
  · exact .fail
  · exact .fail

structure CellOf (ty : Ty) (x : Cell) : Prop where
  ty_eq : x.ty = ty
  admits : ty.Admits x.value

section

variable (hr : B.Resolves scopes name var ty)

include hr

theorem load_computes (hty : ty.Allowed true) :
    B.Computes scopes (Gen.load var) S (cell name) fun _ x S' => S' = x.value :: S ∧ CellOf ty x := by
  refine .of_emits (Gen.load_emits var) ⟨⟨ty, .default ty⟩, _, rfl, rfl, .default hty.1⟩ ?_
  intro n pc locals σ M w _ _ hops hM
  obtain ⟨x, hx, hxty, hadmits, -⟩ := hM.cell hr pc S
  rw [cell_run hx]
  exact (hM.load hr hops.head hx).mono fun _ _ hs => ⟨_, ⟨rfl, hxty, hadmits⟩, locals, hs⟩

theorem load_reads (hty : ty.Allowed true) :
    B.Computes scopes (Gen.load var) S (read name) fun _ => OnTop S ty := by
  refine .of_emits (Gen.load_emits var) (OnTop.possible hty) ?_
  intro n pc locals σ M w _ _ hops hM
  obtain ⟨x, hx, -, hadmits, -⟩ := hM.cell hr pc S
  rw [read_run hx]
  exact (hM.load hr hops.head hx).mono fun _ _ hs => ⟨_, ⟨rfl, hadmits⟩, locals, hs⟩

theorem Computes.cell (hty : ty.Allowed true)
    (hx : ∀ y, CellOf ty y → B.Computes scopes x S (j y) R) :
    B.Computes scopes x S (Interp.cell name >>= j) R := by
  intro s a code s' hdone hs hapart hfits
  obtain ⟨hmade, hR, -⟩ := hx ⟨ty, .default ty⟩ ⟨rfl, .default hty.1⟩ hdone hs hapart hfits
  refine ⟨hmade, hR, fun σ M w hM => ?_⟩
  obtain ⟨locals, hM⟩ := hM
  obtain ⟨y, hy, hyty, hadmits, -⟩ := hM.cell hr 0 S
  rw [bind_run_ok (cell_run hy)]
  exact (hx y ⟨hyty, hadmits⟩ hdone hs hapart hfits).2.2 ⟨locals, hM⟩

theorem reload_computes (hty : ty.Allowed true) (c : Constant) :
    B.Computes scopes (Gen.load var >>= fun _ => Gen.emitConstant c span >>= fun _ => Gen.load var) S
      (Interp.cell name)
      fun _ x S' => S' = x.value :: .ofConstant c :: x.value :: S ∧ CellOf ty x := by
  intro s a code s' hdone hs hapart hfits
  obtain ⟨_, code1, s1, _, h1, h2, rfl⟩ := Gen.bind_done hdone
  obtain ⟨_, code2, s2, code3, h3, h4, rfl⟩ := Gen.bind_done h2
  obtain ⟨hmade1, -, hrun1⟩ := load_computes hr hty h1 hs hapart
    (hfits.first (Gen.Grows.of_done h2))
  have hapart1 := hapart.mono hmade1.count
  have hfits1 := hfits.second hmade1.pc
  have hpush := fun S => Passes.emitConstant (S := S) c span h3 hmade1.scopes hapart1
    (hfits1.first (Gen.Grows.of_done h4))
  obtain ⟨hmade2, -⟩ := hpush S
  have hload := fun S => load_computes (S := S) hr hty h4 hmade2.scopes (hapart1.mono hmade2.count)
    (hfits1.second hmade2.pc)
  obtain ⟨hmade3, -⟩ := hload S
  refine ⟨hmade1.trans (hmade2.trans hmade3), ⟨⟨ty, .default ty⟩, _, rfl, rfl, .default hty.1⟩, ?_⟩
  rintro σ M w ⟨locals, hM⟩
  -- the variable has the same value each time, because nothing is assigned
  obtain ⟨x, hx, hxty, hadmits, -⟩ := hM.cell hr 0 S
  have hfirst := hrun1 ⟨locals, hM⟩
  rw [cell_run hx] at hfirst ⊢
  refine Leads.bind hfirst ?_
  rintro M1 w1 ⟨_, ⟨rfl, -⟩, hM1⟩
  refine Leads.bind ((hpush _).2.2 hM1) ?_
  rintro M2 w2 ⟨_, rfl, hM2⟩
  have hlast := (hload _).2.2 hM2
  rw [cell_run hx] at hlast
  refine Leads.mono hlast ?_
  rintro M3 w3 ⟨_, ⟨rfl, hcell⟩, hM3⟩
  exact ⟨_, ⟨rfl, hcell⟩, hM3⟩

end

theorem genName_computes : B.Computes scopes (genName name span) S (read name) (Valued S) := by
  refine .meaning fun m hvar hconst => ?_
  split
  · obtain ⟨hr, hty⟩ := hvar _ _ rfl
    exact .post (load_reads hr hty) fun _ v S1 hv => .pure ⟨hv, hty⟩
  · rename_i c
    obtain ⟨hlocal, hglobal, hname⟩ := hconst _ rfl
    rw [← bind_pure (read name)]
    refine .known (d := .ofConstant c) (fun pc σ M w hM => ?_) ?_
    · obtain ⟨locals, hM⟩ := hM
      have hcell : σ.cell? name = none := by
        rw [hM.localCell?_none hlocal]
        refine hM.globals.lookup_none ?_
        rw [globalSlots_lookup, hglobal]
        rfl
      show read name σ = _
      unfold read
      rw [hcell]
      rw [hname]
    · refine .skip (.emitConstant c span) fun _ S1 h1 => .pure ⟨⟨h1, .ofConstant c⟩, ?_⟩
      cases c <;> exact allowed_of_basic rfl
  · exact .fail

theorem store_computes (hr : B.Resolves scopes name var ty) (hv : ty.Admits v) :
    B.Computes scopes (Gen.store var ty) (v :: S) (assign name v) fun _ _ S' => S' = S := by
  refine .of_emits (Gen.store_emits var ty) ⟨(), S, rfl⟩ ?_
  intro n pc locals σ M w hapart hn hops hM
  obtain ⟨σ', hσ'⟩ := hM.assign?_isSome hr hapart hv
  rw [assign_run hσ']
  refine (hM.storeOps hr hops hapart hn hv hσ').mono ?_
  rintro M' w' ⟨locals', -, hM'⟩
  exact ⟨S, rfl, locals', hM'⟩

theorem genStore_computes (hr : B.Resolves scopes name var ty) (hty : ty.Allowed true)
    (hv : OnTop S ty v S1) :
    B.Computes scopes (genStore var ty) S1 (assign name v >>= fun _ => pure v) (Valued S) := by
  rw [hv.stack]
  refine .skip (.operate rfl rfl) fun _ S2 h2 => ?_
  rw [h2]
  refine .bind (store_computes hr hv.admits) fun _ _ S3 h3 => .pure ⟨⟨h3, hv.admits⟩, hty⟩

theorem stepOf?_eq {eval : BinEval}
    (h : stepOf? ty up = some (one, eval)) : one? ty = some (.ofConstant one) ∧
      (Value.ofConstant one).ty = ty ∧ eval.resultTy = ty ∧
      ∃ e, (if up then BinOp.add else .sub).lookup? ty ty = some e ∧ e.left = ty ∧ e.right = ty ∧
        e.eval = eval := by
  unfold stepOf? at h
  split at h <;> cases h <;> exact ⟨rfl, rfl, rfl, _, rfl, rfl, rfl, rfl⟩

theorem combine_eq {r : Value} (he : op.lookup? l.ty r.ty = some e)
    (hl : e.left = l.ty) (hr : e.right = r.ty) :
    (combine op l r : Interp ω Value) = Interp.lift (e.eval.result l r) := by
  unfold combine convert
  rw [he]
  dsimp only
  rw [hl, hr, if_pos rfl, if_pos rfl]
  rfl

theorem genBump_computes {target : Expr} :
    B.Computes scopes (genBump target up before span) S (bump target up before) (Valued S) := by
  unfold genBump bump
  split
  · rename_i nameSpan
    refine .skip_of_grows varOf_passes (fun v S' hv => ?_) fun v => by
      dsimp only
      split <;> infer_instance
    obtain ⟨var, ty⟩ := v
    obtain ⟨rfl, hr, hty⟩ := hv
    dsimp only at hr hty ⊢
    split
    · exact .fail
    rename_i one eval hstep
    obtain ⟨hone, honety, hresult, e, he, hleft, hright, rfl⟩ := stepOf?_eq hstep
    have hcombine : ∀ x, CellOf ty x → (combine (if up then .add else .sub) x.value
        (.ofConstant one) : Interp ω Value) =
          Interp.lift (e.eval.result x.value (.ofConstant one)) := by
      intro x hx
      have hxty := hx.admits.ty_eq (hty.2 rfl).2
      exact combine_eq (by rw [hxty, honety, he]) (by rw [hxty, hleft]) (by rw [honety, hright])
    cases before with
    | true =>
      -- the old value stays below the operands of the step
      let rest : Gen Ty := do
        Gen.emit (.binary e.eval)
        Gen.store var ty
        pure ty
      change B.Computes scopes (Gen.load var >>= fun _ => Gen.emitConstant one span >>= fun _ =>
        Gen.load var >>= fun _ => rest) S' _ _
      have hgroup : (Gen.load var >>= fun _ => Gen.emitConstant one span >>= fun _ =>
          Gen.load var >>= fun _ => rest) = (Gen.load var >>= fun _ =>
            Gen.emitConstant one span >>= fun _ => Gen.load var) >>= fun _ => rest := by
        simp only [Gen.bind_assoc]
      rw [hgroup]
      refine .bind (reload_computes hr hty one) fun _ x S1 h1 => ?_
      rw [h1.1, h1.2.ty_eq, hone]
      dsimp only
      rw [hcombine x h1.2]
      refine .bind (binary_computes e.eval (hresult ▸ hty) _ _) fun _ v S2 h2 => ?_
      rw [h2.stack]
      refine .bind (store_computes hr (hresult ▸ h2.admits)) fun _ _ S3 h3 => ?_
      exact .pure ⟨⟨h3, h1.2.admits⟩, hty⟩
    | false =>
      refine .skip (.emitConstant one span) fun _ S1 h1 => ?_
      refine .bind (load_computes hr hty) fun _ x S2 h2 => ?_
      rw [h2.1, h1, h2.2.ty_eq, hone]
      dsimp only
      rw [hcombine x h2.2]
      refine .bind (binary_computes e.eval (hresult ▸ hty) _ _) fun _ v S3 h3 => ?_
      rw [h3.stack]
      refine .skip (.operate rfl rfl) fun _ S4 h4 => ?_
      rw [h4]
      have hv : ty.Admits v := hresult ▸ h3.admits
      exact .bind (store_computes hr hv) fun _ _ S₅ h5 => .pure ⟨⟨h5, hv⟩, hty⟩
  · exact .fail

/-! ## Assignments -/

theorem newSlot_passes : B.Passes scopes (Gen.newSlot span) S fun k S' =>
    S' = S ∧ k.toNat ∉ slotsOf scopes ∧ k.toNat < B.slots := by
  intro s k code s' h hs hapart hfits
  rw [Gen.newSlot_eq] at h
  split at h
  · rename_i hlt
    cases h
    have hk := UInt16.toNat_ofNat_of_lt' (Nat.lt_trans hlt (by decide))
    have hslot : (UInt16.ofNat s.localCount).toNat ∉ slotsOf scopes ∧
        (UInt16.ofNat s.localCount).toNat < B.slots := by
      rw [hk]
      exact ⟨fun hmem => Nat.lt_irrefl _ (hapart.below _ hmem), hfits.slots⟩
    exact ⟨⟨hs, rfl, Nat.le_succ _⟩, ⟨(), S, rfl, hslot⟩,
      fun σ M w hM => .here ⟨S, ⟨rfl, hslot⟩, hM⟩⟩
  · cases h

theorem componentOps_computes {d : Value} {x : Gen Unit}
    (hx : Gen.Emits B.context scopes x (componentOps var ty c k))
    (hr : B.Resolves scopes name var ty) (hc : ty.HasComponent c) (hfree : k.toNat ∉ slotsOf scopes)
    (hk : k.toNat < B.slots) : B.Computes scopes x (d :: S) (Interp.cell name >>= fun old =>
      Interp.lift (old.value.setComponent c d.asFloat) >>= fun v => assign name v >>= fun _ => pure d)
      fun _ v S' => v = d ∧ S' = d :: S := by
  refine .of_emits hx ⟨d, _, rfl, rfl⟩ ?_
  intro n pc locals σ M w hapart hn hops hM
  obtain ⟨old, hold, -, hadmits, -⟩ := hM.cell hr 0 S
  obtain ⟨v, hv, hvadmits⟩ := hadmits.setComponent hc d.asFloat
  obtain ⟨σ', hσ'⟩ := hM.assign?_isSome hr hapart hvadmits
  have hrun : (Interp.cell name >>= fun old => Interp.lift (old.value.setComponent c d.asFloat) >>=
      fun v => assign name v >>= fun _ => pure d).run σ = .ok (d, σ') := by
    rw [bind_run_ok (cell_run hold), hv]
    show (assign name v >>= fun _ => (pure d : Interp ω Value)).run σ = _
    rw [bind_run_ok (assign_run hσ'), pure_run]
  rw [hrun]
  unfold componentOps at hops ⊢
  have hstores := hops.left.right
  have hlast := hops.right
  have hfirst := hops.left.left
  refine (hM.storeLocal hfirst.head hk hfree).bind fun M1 w1 h1 => ?_
  refine (h1.load hr hfirst.tail.head hold).bind fun M2 w2 h2 => ?_
  have hkept : (locals.set k.toNat d)[k.toNat]? = some d :=
    getElem?_set_self (hM.locals_length ▸ hk)
  refine (h2.loadLocal hfirst.tail.tail.head hkept).bind fun M3 w3 h3 => ?_
  have hset : Operands.binary (fun d v => v.setComponent c d.asFloat) (d :: old.value :: S) =
      .ok (v :: S) := by
    dsimp only [Operands.binary]; rw [hv]; rfl
  refine (h3.operate hfirst.tail.tail.tail.head rfl hset).bind fun M4 w4 h4 => ?_
  refine (h4.storeOps hr hstores hapart hn hvadmits hσ').bind ?_
  rintro M5 w5 ⟨locals', hkeeps, h5⟩
  rw [length_append, ← Nat.add_assoc] at hlast
  refine (h5.loadLocal hlast.head ((hkeeps _ hfree).trans hkept)).mono fun M6 w6 h6 => ?_
  refine ⟨_, ⟨rfl, rfl⟩, locals', ?_⟩
  rw [length_append, length_append, ← Nat.add_assoc, ← Nat.add_assoc]
  exact h6

theorem genComponentStore_computes {d : Value} (hr : B.Resolves scopes name var ty)
    (hc : ty.HasComponent c) (hd : OnTop S .float d S1) :
    B.Computes scopes (genComponentStore var ty c span) S1 (Interp.cell name >>= fun old =>
      Interp.lift (old.value.setComponent c d.asFloat) >>= fun v => assign name v >>= fun _ => pure d)
      (Valued S) := by
  rw [hd.stack]
  refine .skip newSlot_passes fun k S' hk => ?_
  obtain ⟨rfl, hfree, hlt⟩ := hk
  let ops : Gen Unit := do
    Gen.emit (.storeLocal k)
    Gen.load var
    Gen.emit (.loadLocal k)
    Gen.emit (.setField c)
    Gen.store var ty
    Gen.emit (.loadLocal k)
  have hops : Gen.Emits B.context scopes ops (componentOps var ty c k) := by
    have hlist : componentOps var ty c k = [.storeLocal k] ++ ([var.loadOp] ++ ([.loadLocal k] ++
        ([.setField c] ++ (storeOps var ty ++ [.loadLocal k])))) := by simp [componentOps]
    rw [hlist]
    exact .bind (.emit _) (.bind (Gen.load_emits var) (.bind (.emit _) (.bind (.emit _)
      (.bind (Gen.store_emits var ty) (.emit _)))))
  have hall : B.Computes scopes (ops >>= fun _ => pure Ty.float) (d :: S) _ (Valued S) :=
    .post (componentOps_computes hops hr hc hfree hlt) fun _ v S' h =>
      .pure ⟨⟨h.1 ▸ h.2, h.1 ▸ hd.admits⟩, (allowed_of_basic rfl)⟩
  simpa only [ops, Gen.bind_assoc] using hall

theorem genAssign_computes {value : Gen Ty}
    [Gen.Grows value]
    (hvalue : ∀ S, B.Computes scopes value S i (Pushed S))
    (hindex : ∀ array key keySpan, target ≠ .index array key keySpan) :
    B.Computes scopes (genAssign op target value valueSpan span) S (assignTo op target i)
      (Valued S) := by
  unfold genAssign
  split
  · -- a variable
    refine .skip_of_grows varOf_passes (fun v S' hv => ?_) fun v => by cases op <;> infer_instance
    obtain ⟨rfl, hr, hty⟩ := hv
    cases op with
    | none =>
      refine .bind (hvalue S') fun ty r S1 h1 => .cell hr hty fun old hold => ?_
      unfold renewed
      rw [hold.ty_eq]
      exact .bind (coerce_operandAs h1 hty) fun _ x S2 h2 => genStore_computes hr hty h2
    | some op =>
      refine .bind (hvalue S') fun ty r S1 h1 => .bind (load_computes hr hty) fun _ old S2 h2 => ?_
      have hold : Pushed S1 v.2 (some old.value) S2 := ⟨h2.1, ⟨hty.1, h2.2.admits⟩, .inr hty⟩
      refine .bind (genBinary_operands h1 hold) fun ty' x S3 h3 => ?_
      exact genStore_computes hr hty (h3.2.2 rfl ▸ h3.1)
  · -- a component of a variable
    refine .skip_of_grows varOf_passes (fun v S' hv => ?_) fun v =>
      .bind fun _ => by cases op <;> infer_instance
    obtain ⟨rfl, hr, hty⟩ := hv
    refine .skip_of_grows componentOf_passes (fun c S1 h => ?_) fun _ => by cases op <;> infer_instance
    obtain ⟨rfl, hc, hname⟩ := h
    dsimp only [assignTo]
    simp only [component_eq hname, pure_bind]
    cases op with
    | none =>
      refine .bind (hvalue S1) fun ty r S2 h2 => ?_
      refine .bind (coerce_operandAs h2 (allowed_of_basic rfl)) fun _ x S3 h3 => ?_
      exact genComponentStore_computes hr hc h3
    | some op =>
      refine .bind (hvalue S1) fun ty r S2 h2 => ?_
      dsimp only [renewedComponent]
      rw [bind_assoc]
      refine .bind (load_computes hr hty) fun _ old S3 h3 => ?_
      rw [bind_assoc, h3.1]
      refine .bind (getField_computes hc h3.2.admits) fun _ x S4 h4 => ?_
      refine .bind (genBinary_operands h2 (h4.pushed (allowed_of_basic rfl))) fun ty' d S₅ h5 => ?_
      exact genComponentStore_computes hr hc (h5.2.2 rfl ▸ h5.1)
  · exact .fail
  · exact absurd rfl (hindex _ _ _)
  · exact .fail
  · exact .fail

/-! ## Calls -/

/-- An action that adds instructions which keep account of the memory. -/
def Idles (B : Bench ω) (scopes : List Compile.Scope) (x : Gen Unit) : Prop :=
  ∃ ops, Gen.Emits B.context scopes x ops ∧
    ∀ ⦃n⦄, Apart scopes n → n ≤ B.slots → ∀ op ∈ ops, B.Idle op

namespace Idles

theorem pure : B.Idles scopes (pure ()) := ⟨[], .pure, fun _ _ _ _ h => nomatch h⟩

theorem emit {op : Op} (h : ∀ ⦃n⦄, Apart scopes n → n ≤ B.slots → B.Idle op) :
    B.Idles scopes (Gen.emit op) :=
  ⟨[op], .emit op, fun _ ha hn _ hop => mem_singleton.1 hop ▸ h ha hn⟩

theorem bind (hx : B.Idles scopes x) (hy : B.Idles scopes y) :
    B.Idles scopes (x >>= fun _ => y) := by
  obtain ⟨a, hxa, ha⟩ := hx
  obtain ⟨b, hyb, hb⟩ := hy
  refine ⟨a ++ b, .bind hxa hyb, fun n hs hn op hop => ?_⟩
  exact (mem_append.1 hop).elim (ha hs hn op) (hb hs hn op)

theorem ite [Decidable p] (hx : p → B.Idles scopes x) (hy : ¬p → B.Idles scopes y) :
    B.Idles scopes (if p then x else y) := by
  by_cases h : p
  · rw [if_pos h]; exact hx h
  · rw [if_neg h]; exact hy h

theorem forM {as : List γ} (h : ∀ a ∈ as, B.Idles scopes (f a)) : B.Idles scopes (as.forM f) := by
  induction as with
  | nil => exact pure
  | cons a as ih =>
    exact bind (h a mem_cons_self) (ih (forall_mem_cons.1 h).2)

theorem passes (h : B.Idles scopes x) : B.Passes scopes x S fun _ S' => S' = S := by
  obtain ⟨ops, hx, hidle⟩ := h
  exact .idle hx hidle

end Idles

theorem releaseSlots_idles {slots : List UInt16}
    (h : ∀ slot ∈ slots, ∃ scope ∈ scopes, slot ∈ scope.dynamicSlots) :
    B.Idles scopes (Gen.releaseSlots slots) := by
  refine .forM fun slot hslot => .emit fun n hs hn => ?_
  obtain ⟨scope, hscope, hmem⟩ := h slot hslot
  obtain ⟨v, hv, rfl⟩ := mem_map.1 hmem
  exact Nat.lt_of_lt_of_le (hs.owned scope hscope v (mem_of_mem_filter hv)) hn

theorem leaveScope_idles (h : scope' ∈ scopes)
    (howned : scope'.owned = scope.owned) : B.Idles scopes (Gen.leaveScope scope) := by
  refine .bind (releaseSlots_idles fun slot hslot => ⟨scope', h, ?_⟩)
    (.ite (fun _ => .emit fun _ _ _ => trivial) fun _ => .pure)
  unfold Scope.dynamicSlots at hslot ⊢
  rwa [howned]

theorem leaveFrame_idles (B : Bench ω) (scopes : List Compile.Scope) :
    B.Idles scopes Gen.leaveFrame := by
  have hinner : B.Idles scopes ((scopes.take (scopes.length - 2)).forM Gen.leaveScope) :=
    .forM fun scope hscope => leaveScope_idles (mem_of_mem_take hscope) rfl
  have houter : B.Idles scopes
      (Gen.releaseSlots ((scopes.drop (scopes.length - 2)).flatMap Scope.dynamicSlots)) := by
    refine releaseSlots_idles fun slot hslot => ?_
    obtain ⟨scope, hscope, hmem⟩ := mem_flatMap.1 hslot
    exact ⟨scope, mem_of_mem_drop hscope, hmem⟩
  have hframe : B.Idles scopes (Gen.emit (.memStatic (-B.context.frameStatic))) :=
    .emit fun _ _ _ => trivial
  obtain ⟨ops, hops, hidle⟩ := hinner.bind (houter.bind hframe)
  refine ⟨ops, .state fun s hs => ?_, hidle⟩
  rw [hs]
  exact hops

theorem returnDefault_emits (B : Bench ω) (scopes : List Compile.Scope) :
    ∃ ops, Gen.Emits B.context scopes Gen.returnDefault ops := by
  obtain ⟨ops, hops, -⟩ := leaveFrame_idles B scopes
  have hleave := hops.bind (.emit .ret)
  by_cases hret : B.context.ret ≠ .void
  · refine ⟨[.pushDefault B.context.ret] ++ (ops ++ [.ret]), .context ?_⟩
    rw [if_pos hret]
    exact .bind (.emit _) hleave
  · refine ⟨ops ++ [.ret], .context ?_⟩
    rw [if_neg hret]
    exact hleave

theorem genCall_computes (hB : B.calling) {sig : Signature}
    (hsig : B.context.names.functions.lookup name = some sig)
    (hf : B.setting.script.functions.find? (·.name == name) = some f)
    (hargs : Ty.AdmitAll sig.params args) :
    B.Computes scopes (genCall sig span) (args.reverse ++ S) (B.setting.call f args) (Pushed S) := by
  obtain ⟨-, -, -, -, -, -, -, -, -, hallowed⟩ := (B.linked hB).reflects.function name sig hsig
  refine .skip (.setPlace span) fun _ S1 hS1 => ?_
  rw [hS1]
  intro s ty code s' h hs hapart hfits
  obtain ⟨_, _, s2, _, h1, h2, rfl⟩ := Gen.bind_done h
  obtain ⟨_, _, s3, _, h3, h4, rfl⟩ := Gen.bind_done h2
  cases h1
  cases h4
  obtain ⟨rest, target, hrest, htarget, rfl⟩ := skipping_done h3
  obtain ⟨ops, hops⟩ := returnDefault_emits B scopes
  obtain ⟨emitted, hemitted, ho⟩ := hops { s with pc := s.pc + 1 + 1 } hs
  rw [hrest] at hemitted
  cases hemitted
  have hlen : rest.length = ops.length := by rw [← ho B.marks, length_opsOf]
  have hcode := hfits.code
  refine ⟨⟨hs, ?_, le_rfl⟩, ?_, ?_⟩
  · simp only [cons_append, nil_append, append_nil, length_cons, hlen]
    omega
  · rcases hallowed with hvoid | hty
    · exact ⟨none, _, rfl, hvoid, .inl hvoid⟩
    · exact ⟨some (.default sig.ret), _, rfl, ⟨hty.1, .default hty.1⟩, .inr hty⟩
  · rintro σ M w ⟨locals, hM⟩
    refine (hM.call hB hcode.head hsig hf hargs).bind_post ?_
    rintro v σ' M' w' ⟨hgives, hM'⟩
    refine (hM'.jumpIfNoStateChange hcode.tail.head).mono fun M'' w'' hM'' => ?_
    rw [htarget] at hM''
    exact ⟨_, ⟨rfl, hgives, hallowed⟩, locals, hM''⟩

theorem genApiCall_computes (hB : B.calling) {index : Nat} (hf : ApiFunction.table[index]? = some f)
    (hargs : args.length = f.params.length) :
    B.Computes scopes (genApiCall index f span) (args.reverse ++ S)
      (library B.setting.env f args) (Pushed S) := by
  unfold genApiCall
  split
  · exact .fail
  rename_i i hi
  have hget : ApiFunction.get? i = some f := by
    unfold ApiFunction.get?
    rw [toNat_of_index? hi, hf]
  have hret : f.ret = .void ∨ f.ret.Allowed true := by
    by_cases hv : f.ret = .void
    · exact .inl hv
    · exact .inr ⟨hv, fun _ => ApiFunction.ret_ne hf⟩
  have hpossible : ∃ r S', Pushed S f.ret r S' := by
    rcases hret with hvoid | hty
    · exact ⟨none, _, rfl, hvoid, .inl hvoid⟩
    · exact ⟨some (.default f.ret), _, rfl, ⟨hty.1, .default hty.1⟩, .inr hty⟩
  refine .skip (.setPlace span) fun _ S1 hS1 => ?_
  rw [hS1]
  have hcall : B.Computes scopes (Gen.emit (.callApi i)) (args.reverse ++ S)
      (library B.setting.env f args) fun _ r S' => Pushed S f.ret r S' := by
    refine .of_emits (.emit _) hpossible fun n pc locals σ M w _ _ hops hM => ?_
    refine (hM.callApi hB hops.head hget hargs).mono ?_
    rintro v σ' M' w' ⟨hgives, hM'⟩
    exact ⟨_, ⟨rfl, hgives, hret⟩, locals, hM'⟩
  have hcheck : ∀ S, B.Passes scopes (Gen.emit .checkRun) S fun _ S' => S' = S := fun S =>
    Idles.passes (.emit fun _ _ _ => hB)
  refine .post hcall fun _ r S2 h2 => .skip (hcheck S2) fun _ S3 h3 => ?_
  rw [h3]
  exact .pure h2

/-! ## Expressions -/

theorem genItems_computes (h : ∀ e ∈ es, ∀ S, B.Computes scopes (genExpr e) S (eval I e) (Pushed S)) :
    B.Computes scopes (genItems es) S (evalItems I es) fun _ vs S' =>
      vs.length = es.length ∧ S' = vs.reverse ++ S := by
  induction es generalizing S with
  | nil =>
    exact .pure ⟨rfl, rfl⟩
  | cons e es ih =>
    have hgrows : Gen.Grows (genItems es) := genItems_keeps fun e _ => genExpr_keeps
    refine .bind (h e mem_cons_self S) fun ty r S1 h1 => ?_
    rw [← bind_assoc]
    refine .bind (genListItem_computes h1) fun _ v S2 h2 => ?_
    refine .ret (ih (forall_mem_cons.1 h).2) fun _ vs S3 h3 => ?_
    rw [h3.2, h2, reverse_cons, append_assoc, length_cons, h3.1]
    exact ⟨rfl, rfl⟩

theorem genArgs_computes (h : ∀ e ∈ es, ∀ S, B.Computes scopes (genExpr e) S (eval I e) (Pushed S))
    (hparams : ∀ ty ∈ params, ty.Allowed true) (hlen : params.length = es.length) :
    B.Computes scopes (genArgs name number params es) S (evalArgs I params es) fun _ vs S' =>
      Ty.AdmitAll params vs ∧ S' = vs.reverse ++ S := by
  induction es generalizing S number params with
  | nil =>
    obtain rfl := length_eq_zero_iff.1 hlen
    exact .pure ⟨.nil, rfl⟩
  | cons e es ih =>
    cases params with
    | nil => cases hlen
    | cons param params =>
      have hgrows : ∀ n, Gen.Grows (genArgs name n params es) := fun n =>
        genArgs_keeps (fun e _ => genExpr_keeps) name n params
      refine .bind (h e mem_cons_self S) fun ty r S1 h1 => .ite (fun _ => ?_) fun _ => .fail
      refine .bind (coerce_operandAs h1 (hparams param mem_cons_self)) fun _ v S2 h2 => ?_
      refine .ret (ih (forall_mem_cons.1 h).2
        (forall_mem_cons.1 hparams).2 (Nat.succ.inj hlen))
        fun _ vs S3 h3 => ⟨.cons h2.admits h3.1, ?_⟩
      rw [h3.2, h2.stack, reverse_cons, append_assoc]
      rfl

theorem gather_reverse (args : List Value) :
    Operands.gather args.length f (args.reverse ++ S) = .ok (f args :: S) := by
  unfold Operands.gather
  rw [split?_reverse]

/-- The value of an expression is left on the operand stack. Only calls need more than the variables
and the constants that the expression refers to. -/
theorem genExpr_computes (h : e.Regular true is)
    (hB : ∀ p ∈ e.parts, p.isCall = true → B.calling) (S : List Value) :
    B.Computes scopes (genExpr e) S (eval B.setting e) (Pushed S) := by
  induction e using Expr.induct generalizing S with
  | integer n span | float d span | string s span =>
    exact .skip (.emitConstant _ span) fun _ S1 h1 =>
      .pure (OnTop.pushed ⟨h1, .inr rfl⟩ (allowed_of_basic rfl))
  | name id span =>
    exact .ret genName_computes fun ty v S1 h1 => h1.1.pushed h1.2
  | undefined span => cases h
  | list items span ih =>
    have hparts := fun e he p hp => hB p (mem_cons_of_mem _ (Expr.mem_allParts (e := e) he hp))
    refine .bind_of_grows (genItems_computes fun e he S => ih e he (h.of_mem he) (hparts e he) S)
      (fun _ vs S1 h1 => ?_) fun _ => by split <;> infer_instance
    split
    · exact .fail
    rename_i n hn
    rw [h1.2]
    have hlist : Operands.gather n.toNat Value.list (vs.reverse ++ S) = .ok (.list vs :: S) := by
      rw [toNat_of_index? hn, ← h1.1, gather_reverse]
    exact .skip (.operate rfl hlist) fun _ S2 h2 =>
      .pure (OnTop.pushed ⟨h2, .inr rfl⟩ (allowed_of_basic rfl))
  | vector x y z span hx hy hz =>
    obtain ⟨rx, ry, rz⟩ := h
    simp only [Expr.parts, forall_mem_cons, forall_mem_append] at hB
    obtain ⟨-, ⟨b1, b2⟩, b3⟩ := hB
    refine .bind (hx rx b1 S) fun _ _ _ h1 => .bind (coerce_operandAs h1 (allowed_of_basic rfl))
      fun _ a _ ha => ?_
    refine .bind (hy ry b2 _) fun _ _ _ h2 => .bind (coerce_operandAs h2 (allowed_of_basic rfl))
      fun _ b _ hb => ?_
    refine .bind (hz rz b3 _) fun _ _ _ h3 => .bind (coerce_operandAs h3 (allowed_of_basic rfl))
      fun _ c _ hc => ?_
    rw [hc.stack, hb.stack, ha.stack]
    exact .skip (.operate rfl (gather_reverse [a, b, c])) fun _ S2 h2 =>
      .pure (OnTop.pushed ⟨h2, .inr rfl⟩ (allowed_of_basic rfl))
  | rotation x y z s span hx hy hz hs =>
    obtain ⟨rx, ry, rz, rs⟩ := h
    simp only [Expr.parts, forall_mem_cons, forall_mem_append] at hB
    obtain ⟨-, ⟨⟨b1, b2⟩, b3⟩, b4⟩ := hB
    refine .bind (hx rx b1 S) fun _ _ _ h1 => .bind (coerce_operandAs h1 (allowed_of_basic rfl))
      fun _ a _ ha => ?_
    refine .bind (hy ry b2 _) fun _ _ _ h2 => .bind (coerce_operandAs h2 (allowed_of_basic rfl))
      fun _ b _ hb => ?_
    refine .bind (hz rz b3 _) fun _ _ _ h3 => .bind (coerce_operandAs h3 (allowed_of_basic rfl))
      fun _ c _ hc => ?_
    refine .bind (hs rs b4 _) fun _ _ _ h4 => .bind (coerce_operandAs h4 (allowed_of_basic rfl))
      fun _ d _ hd => ?_
    rw [hd.stack, hc.stack, hb.stack, ha.stack]
    exact .skip (.operate rfl (gather_reverse [a, b, c, d])) fun _ S2 h2 =>
      .pure (OnTop.pushed ⟨h2, .inr rfl⟩ (allowed_of_basic rfl))
  | cast ty operand span ih =>
    refine .bind (ih h.2 (forall_mem_cons.1 hB).2 S) fun _ _ _ h1 =>
      .bind (coerce_operandAs h1 h.1) fun _ v S2 h2 => ?_
    exact .pure (h2.pushed h.1)
  | call name args span ih =>
    have hargs : ∀ e ∈ args, ∀ S, B.Computes scopes (genExpr e) S (eval B.setting e) (Pushed S) :=
      fun e he S => ih e he (h.of_mem he)
        (fun p hp => hB p (mem_cons_of_mem _ (Expr.mem_allParts he hp))) S
    have hcalling : B.calling := hB _ mem_cons_self rfl
    unfold genExpr eval
    refine .context (.ite (fun hlimit => absurd hlimit
      (by rw [(B.linked hcalling).unlimited]; decide)) fun _ => ?_)
    split
    · rename_i sig hsig
      obtain ⟨f, -, hf, hparams, -, -, -, -, hallowed, -⟩ :=
        (B.linked hcalling).reflects.function name sig hsig
      rw [hf]
      refine .ite (fun _ => .fail) fun hlen => ?_
      dsimp only
      rw [← hparams]
      refine .bind (genArgs_computes hargs hallowed (not_not.1 hlen)) fun _ vs S1 h1 => ?_
      rw [h1.2]
      exact genCall_computes hcalling hsig hf h1.1
    · rename_i hnone
      rw [(B.linked hcalling).reflects.noFunction name hnone]
      cases hf : ApiFunction.find? name with
      | none => exact .fail
      | some found =>
        obtain ⟨index, f⟩ := found
        have htable := ApiFunction.getElem?_of_find? hf
        have hallowed : ∀ ty ∈ f.signature, ty.Allowed true := by
          intro ty hty
          obtain ⟨hvoid, harray, hobject⟩ := ApiFunction.signature_ne htable ty hty
          exact allowed_of_ne hvoid harray hobject
        refine .ite (fun _ => .fail) fun hlen => ?_
        refine .bind (genArgs_computes hargs hallowed (not_not.1 hlen)) fun _ vs S1 h1 => ?_
        rw [h1.2]
        refine genApiCall_computes hcalling htable ?_
        rw [← h1.1.length_eq]
        exact length_map _
  | binary op left right span hl hr =>
    simp only [Expr.parts, forall_mem_cons, forall_mem_append] at hB
    refine .bind (hr h.2 hB.2.2 S) fun r rv S1 h1 => .bind (hl h.1 hB.2.1 S1) fun l lv S2 h2 => ?_
    refine .skip (.setPlace span) fun _ S3 h3 => ?_
    rw [h3]
    simp only [← bind_assoc, ← bind_assoc]
    exact .ret (genBinary_operands h1 h2) fun ty v S4 h4 => h4.1.pushed h4.2.1
  | unary op operand span ih =>
    refine .bind (ih h (forall_mem_cons.1 hB).2 S) fun ty r S1 h1 => ?_
    rw [← bind_assoc]
    exact .ret (genUnary_computes h1) fun ty v S2 h2 => h2.1.pushed h2.2
  | assign op target value span ih hkey =>
    simp only [Expr.parts, forall_mem_cons, forall_mem_append] at hB
    refine .ret (genAssign_computes (ih h.2 hB.2.2) ?_) fun ty v S1 h1 => h1.1.pushed h1.2
    rintro array key keySpan rfl
    cases h.1.1
  | bump target up before span =>
    exact .ret genBump_computes fun ty v S1 h1 => h1.1.pushed h1.2
  | field object name span ih =>
    refine .bind (ih h (forall_mem_cons.1 hB).2 S) fun ty r S1 h1 => ?_
    simp only [← bind_assoc, ← bind_assoc]
    exact .ret (genField_computes h1) fun ty v S2 h2 => h2.1.pushed h2.2
  | index array key span ha hk | method object method args span ho ha | isType operand ty span ih =>
    cases h.1

end Bench

end Interp

end EventScript
