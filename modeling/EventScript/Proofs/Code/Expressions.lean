import EventScript.Proofs.Code.Growth
import EventScript.Proofs.Code.Structured

/-!
# The code of expressions is straight

`genExpr_evaluates`: whenever the code of an expression is generated, it is straight code that
pushes one value of the type that is found, or none if the type is `void`.

1. `Gen.Emits`: an action that adds given instructions and changes nothing else, such as the code
   that leaves scopes.
2. `Evaluates`: an action whose code is straight, with what it does to the operand types. The rules
   follow the way actions are put together.
3. One lemma for each way to build an expression, put together by induction.
-/

namespace EventScript

open List hiding span
open Option

/-! ## Types and tables -/

def Ty.isBasic : Ty → Bool
  | .void | .array | .object => false
  | _ => true

variable {ty : Ty}

theorem allowed_of_ne (h : ty ≠ .void) (h' : ty ≠ .array) (h'' : ty ≠ .object) :
    ty.Allowed core := ⟨h, fun _ => ⟨h', h''⟩⟩

theorem allowed_of_basic (h : ty.isBasic = true) : ty.Allowed core := by
  refine allowed_of_ne ?_ ?_ ?_ <;> rintro rfl <;> cases h

theorem core_of_array (h : ty ≠ .void → ty.Allowed core) (hty : ty = .array ∨ ty = .object) :
    core = false := by
  rcases hty with rfl | rfl
  · exact Bool.eq_false_iff.2 fun hcore => ((h (by decide)).2 hcore).1 rfl
  · exact Bool.eq_false_iff.2 fun hcore => ((h (by decide)).2 hcore).2 rfl

theorem allowed_of_core (h : core = false) (hty : ty ≠ .void) :
    ty.Allowed core := ⟨hty, fun hcore => absurd (hcore.symm.trans h) (by decide)⟩

theorem allowed_of_hasComponent (h : ty.HasComponent comp) : ty.Allowed core := by
  rcases h with ⟨rfl, -⟩ | rfl <;> exact allowed_of_basic rfl

theorem converts_of_canCast {source : Ty} (h : source.canCast target explicit = true) :
    source.Converts target := by
  unfold Ty.canCast at h
  unfold Ty.Converts Ty.canCast
  split at h <;> simp_all

/-- What every row of the operator table says. -/
theorem BinOp.lookup?_entry {op : BinOp} (h : op.lookup? l r = some e) :
    e.result = e.eval.resultTy ∧ (r ≠ e.right → r.Converts e.right) ∧
      (l ≠ e.left → l.Converts e.left) ∧
      ∀ ty ∈ [l, r, e.left, e.right, e.result], ty ≠ .void ∧ ty ≠ .array ∧ ty ≠ .object := by
  have all : ∀ op ∈ BinOp.all, ∀ l ∈ Ty.all, ∀ r ∈ Ty.all, ∀ e ∈ op.lookup? l r,
      e.result = e.eval.resultTy ∧ (r ≠ e.right → r.Converts e.right) ∧
        (l ≠ e.left → l.Converts e.left) ∧
        ∀ ty ∈ [l, r, e.left, e.right, e.result], ty ≠ .void ∧ ty ≠ .array ∧ ty ≠ .object := by
    decide +kernel
  exact all op (by cases op <;> decide) l (by cases l <;> decide) r (by cases r <;> decide) e h

variable {index : Nat}

theorem ApiFunction.getElem?_of_find? {name : String} (h : ApiFunction.find? name = some (index, f)) :
    ApiFunction.table[index]? = some f := by
  obtain ⟨i, -, hi⟩ := bind_eq_some_iff.1 h
  obtain ⟨g, hg, heq⟩ := map_eq_some_iff.1 hi
  cases heq
  exact hg

theorem ApiFunction.signature_ne (h : ApiFunction.table[index]? = some f) :
    ∀ ty ∈ f.signature, ty ≠ .void ∧ ty ≠ .array ∧ ty ≠ .object := by
  have all : ∀ g ∈ ApiFunction.table, ∀ ty ∈ g.signature,
      ty ≠ .void ∧ ty ≠ .array ∧ ty ≠ .object := by decide
  exact all f (mem_of_getElem? h)

theorem ApiFunction.ret_ne (h : ApiFunction.table[index]? = some f) :
    f.ret ≠ .array ∧ f.ret ≠ .object := by
  have all : ∀ g ∈ ApiFunction.table, g.ret ≠ .array ∧ g.ret ≠ .object := by decide
  exact all f (mem_of_getElem? h)

namespace Compile

set_option synthInstance.maxSize 1000

/-! ## Instructions -/

/-- The instructions of code, with the jumps to labels resolved. -/
def opsOf (marks : List (String × Nat)) (code : Code) : List Op :=
  code.map fun i => (resolve marks i).1

@[simp] theorem opsOf_nil (marks : List (String × Nat)) : opsOf marks [] = [] := rfl

@[simp] theorem opsOf_op (marks : List (String × Nat)) (op : Op) (place : Place) (code : Code) :
    opsOf marks (.op op place :: code) = op :: opsOf marks code := rfl

@[simp] theorem opsOf_append (marks : List (String × Nat)) (a b : Code) :
    opsOf marks (a ++ b) = opsOf marks a ++ opsOf marks b := map_append

@[simp] theorem length_opsOf (marks : List (String × Nat)) (code : Code) :
    (opsOf marks code).length = code.length := length_map _

namespace Gen

theorem bind_done {f : α → Gen β} (h : (x >>= f) c s = .done b code s') :
    ∃ a code1 s1 code2, x c s = .done a code1 s1 ∧ f a c s1 = .done b code2 s' ∧
      code = code1 ++ code2 := by
  change Gen.bind x f c s = .done b code s' at h
  unfold Gen.bind at h
  cases hx : x c s with
  | failed e s1 => rw [hx] at h; cases h
  | done a code1 s1 =>
    rw [hx] at h
    dsimp only at h
    cases hf : f a c s1 with
    | failed e s2 => rw [hf] at h; cases h
    | done b' code2 s2 =>
      rw [hf] at h
      cases h
      exact ⟨a, code1, s1, code2, rfl, hf, rfl⟩

/-- The part behind an action of which it is known what it does. -/
theorem rest_done {f : α → Gen β} (hx : x c s = .done a code1 s1)
    (h : (x >>= f) c s = .done b code s') :
    ∃ rest, f a c s1 = .done b rest s' ∧ code = code1 ++ rest := by
  obtain ⟨_, _, _, rest, hx', hf, rfl⟩ := bind_done h
  cases hx.symm.trans hx'
  exact ⟨rest, hf, rfl⟩

theorem bind_of_done {f : α → Gen β} (hx : x c s = .done a code1 s1)
    (hf : f a c s1 = .done b code2 s') : (x >>= f) c s = .done b (code1 ++ code2) s' := by
  show Gen.bind x f c s = _
  unfold Gen.bind
  rw [hx]
  dsimp only
  rw [hf]

theorem bind_assoc (x : Gen α) (f : α → Gen β) (g : β → Gen γ) :
    (x >>= f) >>= g = x >>= fun a => f a >>= g := by
  funext c s
  show Gen.bind (Gen.bind x f) g c s = Gen.bind x (fun a => Gen.bind (f a) g) c s
  unfold Gen.bind
  cases x c s with
  | failed e s1 => rfl
  | done a code1 s1 =>
    dsimp only
    cases f a c s1 with
    | failed e s2 => rfl
    | done b code2 s2 =>
      dsimp only
      cases g b c s2 with
      | failed e s3 => rfl
      | done d code3 s3 => dsimp only; rw [append_assoc]

/-! ## Actions that add instructions -/

/-- The action adds the instructions and changes nothing else, while the given scopes are open. -/
def Emits (c : Context) (scopes : List Scope) (x : Gen Unit) (ops : List Op) : Prop :=
  ∀ s : State, s.scopes = scopes →
    ∃ code, x c s = .done () code { s with pc := s.pc + ops.length } ∧ ∀ marks, opsOf marks code = ops

theorem Emits.pure : Emits c scopes (pure ()) [] := fun _ _ => ⟨[], rfl, fun _ => rfl⟩

theorem Emits.emit (op : Op) : Emits c scopes (emit op) [op] := fun s _ =>
  ⟨[.op op s.place], rfl, fun _ => rfl⟩

theorem Emits.bind (hx : Emits c scopes x a) (hy : Emits c scopes y b) :
    Emits c scopes (x >>= fun _ => y) (a ++ b) := by
  intro s hs
  obtain ⟨code1, h1, ho1⟩ := hx s hs
  obtain ⟨code2, h2, ho2⟩ := hy { s with pc := s.pc + a.length } hs
  refine ⟨code1 ++ code2, ?_, fun marks => by rw [opsOf_append, ho1, ho2]⟩
  rw [bind_of_done h1 h2, length_append, Nat.add_assoc]

theorem Emits.context {f : Context → Gen Unit} (h : Emits c scopes (f c) a) :
    Emits c scopes (Gen.context >>= f) a := by
  intro s hs
  obtain ⟨code, hf, ho⟩ := h s hs
  have hc : Gen.context c s = .done c [] s := rfl
  exact ⟨code, bind_of_done hc hf, ho⟩

theorem Emits.state {f : State → Gen Unit}
    (h : ∀ s : State, s.scopes = scopes → Emits c scopes (f s) a) :
    Emits c scopes (Gen.state >>= f) a := by
  intro s hs
  obtain ⟨code, hf, ho⟩ := h s hs s hs
  have hc : Gen.state c s = .done s [] s := rfl
  exact ⟨code, bind_of_done hc hf, ho⟩

theorem Emits.ite [Decidable p] (hx : p → Emits c scopes x a) (hy : ¬p → Emits c scopes y b) :
    Emits c scopes (if p then x else y) (if p then a else b) := by
  by_cases h : p
  · rw [if_pos h, if_pos h]; exact hx h
  · rw [if_neg h, if_neg h]; exact hy h

theorem Emits.forM {f : γ → Gen Unit} {as : List γ}
    (h : ∀ a ∈ as, Emits c scopes (f a) (g a)) : Emits c scopes (as.forM f) (as.flatMap g) := by
  induction as with
  | nil => exact .pure
  | cons a as ih =>
    exact .bind (h a mem_cons_self) (ih (forall_mem_cons.1 h).2)

theorem load_emits (var : VarRef) : Emits c scopes (load var) [var.loadOp] := by
  cases var <;> exact .emit _

theorem storeOnly_emits : Emits c scopes (storeOnly var) [var.storeOp] := by
  cases var <;> exact .emit _

theorem store_emits (var : VarRef) (ty : Ty) : Emits c scopes (store var ty) (storeOps var ty) := by
  unfold store storeOps
  cases ty.hasDynamicSize with
  | true => exact .bind (.emit _) (.bind storeOnly_emits (.emit _))
  | false => exact (Emits.bind storeOnly_emits .pure : Emits c scopes _ ([_] ++ []))

theorem releaseSlots_emits : Emits c scopes (releaseSlots slots) (releaseOps slots) := by
  unfold releaseSlots releaseOps
  rw [map_eq_flatMap]
  exact .forM fun slot _ => .emit _

theorem leaveScope_emits (h : scope.staticSize = scope.region.staticSize) :
    Emits c scopes (leaveScope scope) scope.region.leaveOps := by
  unfold leaveScope Region.leaveOps
  rw [h]
  exact .bind releaseSlots_emits (.ite (fun _ => .emit _) fun _ => .pure)

theorem leaveScopes_emits {left : List Scope}
    (h : ∀ scope ∈ left, scope.staticSize = scope.region.staticSize) :
    Emits c scopes (left.forM leaveScope) ((left.map Scope.region).flatMap Region.leaveOps) := by
  rw [flatMap_map]
  exact .forM fun scope hscope => leaveScope_emits (h scope hscope)

end Gen

open Gen

def Names.NoValue (names : Names) : Expr → Prop
  | .call name _ _ =>
    match names.functions.lookup name with
    | some sig => sig.ret = .void
    | none => ∃ i f, ApiFunction.find? name = some (i, f) ∧ f.ret = .void
  | _ => False

/-- The code of the expression leaves no value. First values of global variables have no calls. -/
def Context.NoValue (c : Context) (e : Expr) : Prop := c.globalLimit = none ∧ c.names.NoValue e

/-- What the context says about the script and the function. `is` are the operands whose types are
tested. -/
structure Describes (Γ : Linkage) (is : Expr → Prop) (c : Context) : Prop where
  ret : c.ret = Γ.ret
  frameStatic : c.frameStatic = Γ.frameStatic
  globals : ∀ name g, globalOf? c name = some g →
    Γ.globals[g.index.toNat]? = some g.ty ∧ g.ty.Allowed Γ.core
  functions : c.globalLimit = none → ∀ name sig, c.names.functions.lookup name = some sig →
    Γ.functions[sig.index.toNat]? = some (sig.params, sig.ret) ∧
      (∀ ty ∈ sig.params, ty.Allowed Γ.core) ∧ (sig.ret = .void ∨ sig.ret.Allowed Γ.core)
  library : c.globalLimit = none → Γ.library = true
  tests : ∀ e, is e → Γ.tests = true ∨ ¬ c.NoValue e
  states : ∀ name i, c.names.states.lookup name = some i → i.toNat < Γ.states
  ret_allowed : Γ.ret = .void ∨ Γ.ret.Allowed Γ.core

/-- The open scopes are those of a chain, and their variables have slots of their own. -/
structure Scoped (Γ : Linkage) (χ : Chain) (fresh : List LocalVar) (scopes : List Scope)
    (n : Nat) : Prop where
  chain : scopes.map Scope.region = χ
  static : ∀ scope ∈ scopes, scope.staticSize = scope.region.staticSize
  visible : ∀ scope ∈ scopes, ∀ name v, (name, v) ∈ scope.visible → v ∈ scope.owned ∧ v ∉ fresh
  below : ∀ v ∈ χ.vars, v.slot.toNat < n
  allowed : ∀ v ∈ χ.vars, v.ty.Allowed Γ.core

section

variable {c : Context}

theorem Scoped.mono (h : Scoped Γ χ fresh scopes n) (hn : n ≤ n') : Scoped Γ χ fresh scopes n' :=
  { h with below := fun v hv => Nat.lt_of_lt_of_le (h.below v hv) hn }

theorem leaveFrame_emits (hc : Describes Γ is c) (hchain : scopes.map Scope.region = χ)
    (hstatic : ∀ scope ∈ scopes, scope.staticSize = scope.region.staticSize) :
    Emits c scopes leaveFrame (leaveFrameOps Γ.frameStatic χ) := by
  refine .state fun s hs => ?_
  have hlen : χ.length = scopes.length := by rw [← hchain, length_map]
  have hinner : Emits c scopes ((scopes.take (scopes.length - 2)).forM leaveScope) _ :=
    leaveScopes_emits fun scope hscope => hstatic scope (mem_of_mem_take hscope)
  rw [map_take, hchain] at hinner
  have houter : (scopes.drop (scopes.length - 2)).flatMap Scope.dynamicSlots =
      (χ.drop (χ.length - 2)).flatMap Region.dynamicSlots := by
    rw [hlen, ← hchain, ← map_drop, flatMap_map]
    rfl
  unfold leaveFrameOps
  rw [hs, ← houter, hlen, append_assoc]
  refine .bind hinner (.bind releaseSlots_emits (.context ?_))
  rw [hc.frameStatic]
  exact .emit _

theorem returnOps_emits (hc : Describes Γ is c) (hchain : scopes.map Scope.region = χ)
    (hstatic : ∀ scope ∈ scopes, scope.staticSize = scope.region.staticSize) :
    Emits c scopes (leaveFrame >>= fun _ => emit .ret) (returnOps Γ χ) :=
  .bind (leaveFrame_emits hc hchain hstatic) (.emit _)

theorem returnDefault_emits (hc : Describes Γ is c) (hchain : scopes.map Scope.region = χ)
    (hstatic : ∀ scope ∈ scopes, scope.staticSize = scope.region.staticSize) :
    Emits c scopes returnDefault (returnDefaultOps Γ χ) := by
  refine .context ?_
  unfold returnDefaultOps
  rw [hc.ret]
  by_cases hr : Γ.ret ≠ .void
  · rw [if_pos hr, if_pos hr]
    exact .bind (.emit _) (returnOps_emits hc hchain hstatic)
  · rw [if_neg hr, if_neg hr]
    exact returnOps_emits hc hchain hstatic

end

/-! ## Actions with straight code -/

/-- An action has generated straight code; nothing but the constants, the slots and the place in
the code has changed. -/
structure Generated (Γ : Linkage) (χ : Chain) (fresh : List LocalVar)
    (marks : List (String × Nat)) (s : State) (code : Code) (before after : List Ty) (s' : State) :
    Prop where
  straight : Straight Γ χ fresh s.pc (opsOf marks code) before after
  slots : s.localCount ≤ s'.localCount
  pc : s'.pc = s.pc + code.length
  scopes : s'.scopes = s.scopes
  marks : s'.marks = s.marks
  errors : s'.errors = s.errors

/-- The code of the action is straight, and its value and the operand types after it are related. -/
def Evaluates {α : Type} (Γ : Linkage) (χ : Chain) (fresh : List LocalVar)
    (marks : List (String × Nat)) (c : Context) (x : Gen α) (before : List Ty)
    (Q : α → List Ty → Prop) : Prop :=
  ∀ ⦃s a code s'⦄, x c s = .done a code s' → Scoped Γ χ fresh s.scopes s.localCount →
    s'.constants <+: Γ.constants → s'.localCount ≤ Γ.slots →
    ∃ after, Q a after ∧ Generated Γ χ fresh marks s code before after s'

section

variable {α : Type} {marks : List (String × Nat)}

theorem Generated.trans (h1 : Generated Γ χ fresh marks s code1 S S1 s1)
    (h2 : Generated Γ χ fresh marks s1 code2 S1 S' s') :
    Generated Γ χ fresh marks s (code1 ++ code2) S S' s' where
  straight := by
    rw [opsOf_append]
    refine .append h1.straight ?_
    rw [length_opsOf, ← h1.pc]
    exact h2.straight
  slots := h1.slots.trans h2.slots
  pc := by rw [h2.pc, h1.pc, length_append, Nat.add_assoc]
  scopes := h2.scopes.trans h1.scopes
  marks := h2.marks.trans h1.marks
  errors := h2.errors.trans h1.errors

namespace Evaluates

theorem mono (h : Evaluates Γ χ fresh marks c x S Q)
    (hq : ∀ a S', Q a S' → Q' a S') : Evaluates Γ χ fresh marks c x S Q' := by
  intro s a code s' hx hs hk hn
  obtain ⟨after, hQ, hg⟩ := h hx hs hk hn
  exact ⟨after, hq a after hQ, hg⟩

theorem pure (h : Q a S) : Evaluates Γ χ fresh marks c (Pure.pure a) S Q := by
  intro s a' code s' hx _ _ _
  cases hx
  exact ⟨S, h, .nil, le_rfl, rfl, rfl, rfl, rfl⟩

theorem fail : Evaluates Γ χ fresh marks c (Gen.fail e span) S Q := nofun

theorem bind_of_grows {f : α → Gen β} {Q : β → List Ty → Prop}
    (hx : Evaluates Γ χ fresh marks c x S P)
    (hf : ∀ a S1, P a S1 → Evaluates Γ χ fresh marks c (f a) S1 Q) (hgrows : ∀ a, Grows (f a)) :
    Evaluates Γ χ fresh marks c (x >>= f) S Q := by
  intro s b code s' hb hs hk hn
  obtain ⟨a, code1, s1, code2, h1, h2, rfl⟩ := bind_done hb
  have hle : s1.Le s' := (hgrows a).of_done h2
  obtain ⟨S1, hP, hg1⟩ := hx h1 hs (hle.constants.trans hk) (hle.localCount.trans hn)
  have hs1 : Scoped Γ χ fresh s1.scopes s1.localCount := by
    rw [hg1.scopes]
    exact hs.mono hg1.slots
  obtain ⟨after, hQ, hg2⟩ := hf a S1 hP h2 hs1 hk hn
  exact ⟨after, hQ, hg1.trans hg2⟩

theorem bind {f : α → Gen β} [hgrows : ∀ a, Grows (f a)] {Q : β → List Ty → Prop}
    (hx : Evaluates Γ χ fresh marks c x S P)
    (hf : ∀ a S1, P a S1 → Evaluates Γ χ fresh marks c (f a) S1 Q) :
    Evaluates Γ χ fresh marks c (x >>= f) S Q := bind_of_grows hx hf hgrows

theorem seq [∀ u, Grows (f u)]
    (hx : Evaluates Γ χ fresh marks c x S fun _ S1 => S1 = S')
    (hf : Evaluates Γ χ fresh marks c (f ()) S' Q) : Evaluates Γ χ fresh marks c (x >>= f) S Q :=
  bind hx fun _ _ h => h ▸ hf

theorem of_emits {x : Gen Unit} (hx : ∀ scopes n, Scoped Γ χ fresh scopes n → Emits c scopes x ops)
    (hops : ∀ pc, Straight Γ χ fresh pc ops S S') :
    Evaluates Γ χ fresh marks c x S fun _ S1 => S1 = S' := by
  intro s a code s' hr hs _ _
  obtain ⟨emitted, hx', ho⟩ := hx _ _ hs s rfl
  rw [hx'] at hr
  cases hr
  have hlen : code.length = ops.length := by rw [← ho marks, length_opsOf]
  refine ⟨S', rfl, ?_, le_rfl, by rw [hlen], rfl, rfl, rfl⟩
  rw [ho]
  exact hops _

theorem emit (h : Plain Γ χ fresh op S S') :
    Evaluates Γ χ fresh marks c (Gen.emit op) S fun _ S1 => S1 = S' :=
  of_emits (fun _ _ _ => .emit op) fun _ => .plain h

theorem ite [Decidable p] (hx : p → Evaluates Γ χ fresh marks c x S Q)
    (hy : ¬p → Evaluates Γ χ fresh marks c y S Q) :
    Evaluates Γ χ fresh marks c (if p then x else y) S Q := by
  by_cases h : p
  · rw [if_pos h]; exact hx h
  · rw [if_neg h]; exact hy h

theorem when [Decidable p] {x : Gen Unit} {f : Unit → Gen α} [∀ u, Grows (f u)]
    (hx : p → Evaluates Γ χ fresh marks c x S fun _ S1 => S1 = S') (hs : ¬p → S = S')
    (hf : Evaluates Γ χ fresh marks c (f ()) S' Q) :
    Evaluates Γ χ fresh marks c (if p then x >>= f else f ()) S Q := by
  refine .ite (fun h => .seq (hx h) hf) fun h => ?_
  rw [hs h]
  exact hf

theorem context {f : Context → Gen β} {Q : β → List Ty → Prop}
    (h : Evaluates Γ χ fresh marks c (f c) S Q) :
    Evaluates Γ χ fresh marks c (Gen.context >>= f) S Q := by
  intro s b code s' hb hs hk hn
  obtain ⟨code2, h2, rfl⟩ := rest_done rfl hb
  exact h h2 hs hk hn

theorem setPlace (span : Span) :
    Evaluates Γ χ fresh marks c (Gen.setPlace span) S fun _ S1 => S1 = S := by
  intro s a code s' h _ _ _
  cases h
  exact ⟨S, rfl, .nil, le_rfl, rfl, rfl, rfl, rfl⟩

end Evaluates

end

/-! ## Constants and variables -/

theorem toNat_of_index? (h : Word.index? n = some i) : i.toNat = n := by
  unfold Word.index? at h
  split at h
  · cases h
    exact UInt16.toNat_ofNat_of_lt' ‹_›
  · cases h

theorem mem_of_lookup [BEq κ] [LawfulBEq κ] {l : List (κ × β)} (h : l.lookup k = some b) : (k, b) ∈
    l := by
  obtain ⟨l1, l2, rfl, -⟩ := lookup_eq_some_iff.1 h
  exact mem_append_right _ mem_cons_self

theorem getElem?_of_prefix {i : Nat} (h : l <+: l') (hi : l[i]? = some a) : l'[i]? = some a := by
  obtain ⟨hlt, rfl⟩ := List.getElem?_eq_some_iff.1 hi
  exact prefix_iff_getElem?.1 h i hlt

theorem constantIndex_done (h : constantIndex v span c s = .done i code s') :
    code = [] ∧ s'.constants[i.toNat]? = some v ∧ s' = { s with constants := s'.constants } := by
  obtain ⟨code', h, rfl⟩ := rest_done rfl h
  dsimp only at h
  cases hi : Word.index? ((s.constants.findIdx? (· == v)).getD s.constants.length) with
  | none => rw [hi] at h; cases h
  | some j =>
    rw [hi] at h
    have hj := toNat_of_index? hi
    cases hf : s.constants.findIdx? (· == v) with
    | none =>
      rw [hf] at h hj
      cases h
      refine ⟨rfl, ?_, rfl⟩
      rw [hj]
      exact getElem?_concat_length
    | some k =>
      rw [hf] at h hj
      cases h
      refine ⟨rfl, ?_, rfl⟩
      obtain ⟨hk, hv, -⟩ := findIdx?_eq_some_iff_getElem.1 hf
      rw [hj]
      exact List.getElem?_eq_some_iff.2 ⟨hk, eq_of_beq hv⟩

variable {is : Expr → Prop}

theorem emitConstant_evaluates (v : Constant) (span : Span) :
    Evaluates Γ χ fresh marks c (emitConstant v span) S fun _ S' => S' = v.ty :: S := by
  intro s a code s' h _ hk _
  obtain ⟨i, code1, s1, code2, h1, h2, rfl⟩ := bind_done h
  obtain ⟨rfl, hi, hs1⟩ := constantIndex_done h1
  cases h2
  have hv := getElem?_of_prefix hk hi
  rw [hs1]
  exact ⟨_, rfl, .plain (.const hv), le_rfl, rfl, rfl, rfl, rfl⟩

theorem meaningOf?_var (hc : Describes Γ is c) (hs : Scoped Γ χ fresh s.scopes n)
    (h : meaningOf? c s name = some (.var var ty)) :
    Γ.HasVar χ fresh var ty ∧ ty.Allowed Γ.core := by
  unfold meaningOf? at h
  split at h
  · rename_i v hv
    cases h
    obtain ⟨scope, hscope, hlookup⟩ := exists_of_findSome?_eq_some hv
    obtain ⟨howned, hfresh⟩ := hs.visible scope hscope name v (mem_of_lookup hlookup)
    have hvars : v ∈ χ.vars := by
      rw [← hs.chain]
      exact mem_flatMap.2 ⟨scope.region, mem_map_of_mem hscope, howned⟩
    exact ⟨⟨hvars, hfresh⟩, hs.allowed v hvars⟩
  · split at h
    · rename_i g hg
      cases h
      exact hc.globals name g hg
    · obtain ⟨v, -, hv⟩ := map_eq_some_iff.1 h
      cases hv

theorem Evaluates.meaning {f : Option Meaning → Gen β} (hc : Describes Γ is c)
    (hf : ∀ m, (∀ var ty, m = some (.var var ty) → Γ.HasVar χ fresh var ty ∧ ty.Allowed Γ.core) →
      Evaluates Γ χ fresh marks c (f m) S Q) :
    Evaluates Γ χ fresh marks c (meaning? name >>= f) S Q := by
  intro s b code s' h hs hk hn
  obtain ⟨code2, h2, rfl⟩ := rest_done rfl h
  exact hf _ (fun var ty hm => meaningOf?_var hc hs hm) h2 hs hk hn

theorem varOf_evaluates (hc : Describes Γ is c) (name : String) (span : Span) :
    Evaluates Γ χ fresh marks c (varOf name span) S fun v S' =>
      S' = S ∧ Γ.HasVar χ fresh v.1 v.2 ∧ v.2.Allowed Γ.core := by
  refine .meaning hc fun m hm => ?_
  split
  · exact .pure ⟨rfl, hm _ _ rfl⟩
  · exact .fail
  · exact .fail

theorem newSlot_evaluates (span : Span) :
    Evaluates Γ χ fresh marks c (newSlot span) S fun k S' => S' = S ∧ Γ.Spare χ k := by
  intro s k code s' h hs _ hn
  rw [newSlot_eq] at h
  split at h
  · rename_i hlt
    cases h
    have hk := UInt16.toNat_ofNat_of_lt' (Nat.lt_trans hlt (by decide))
    refine ⟨S, ⟨rfl, by rw [hk]; exact hn, fun v hv heq => ?_⟩, .nil, Nat.le_succ _, rfl, rfl, rfl,
      rfl⟩
    have := hs.below v hv
    rw [heq, hk] at this
    exact Nat.lt_irrefl _ this
  · cases h

/-! ## Parts of expressions -/

/-- A value of the type is pushed, or none if there is none. That can be only if `missing` is so. -/
def Pushes (Γ : Linkage) (missing : Prop) (S : List Ty) (ty : Ty) (S' : List Ty) : Prop :=
  S' = returned ty S ∧ (ty = .void ∧ missing ∨ ty.Allowed Γ.core)

theorem returned_of_allowed (h : ty.Allowed core) : returned ty S = ty :: S := if_neg h.1

theorem Pushes.of_allowed (h : ty.Allowed Γ.core) : Pushes Γ p S ty (ty :: S) :=
  ⟨(returned_of_allowed h).symm, .inr h⟩

theorem Pushes.allowed (hp : Pushes Γ p S ty S') (h : ty ≠ .void) :
    ty.Allowed Γ.core := hp.2.resolve_left fun hv => h hv.1

theorem Pushes.of_basic (h : ty.isBasic = true) : Pushes Γ p S ty (ty :: S) :=
  .of_allowed (allowed_of_basic h)

theorem coerce_evaluates (hp : Pushes Γ p S source S') (ht : target.Allowed Γ.core) :
    Evaluates Γ χ fresh marks c (coerce source target explicit span) S' fun _ S'' =>
      S'' = target :: S := by
  have hs := hp.allowed
  obtain ⟨rfl, -⟩ := hp
  refine .ite (fun h => ?_) fun h => .ite (fun _ => .fail) fun hv => ?_
  · rw [h, returned_of_allowed ht]
    exact .pure rfl
  · rw [returned_of_allowed (hs hv)]
    refine .ite (fun hcast => .emit (.cast (hs hv) ht (converts_of_canCast hcast)))
      fun _ => .ite (fun _ => .fail) fun _ => .fail

theorem genBinary_evaluates :
    Evaluates Γ χ fresh marks c (genBinary left op right compound span)
      (returned left (returned right S)) fun ty S' =>
        S' = ty :: S ∧ ty.Allowed Γ.core ∧ (compound = true → ty = left) := by
  unfold genBinary
  split
  · exact .fail
  rename_i e he
  obtain ⟨he, hcompound⟩ := filter_eq_some_iff.1 he
  obtain ⟨hresult, hright, hleft, hne⟩ := BinOp.lookup?_entry he
  have allowed : ∀ ty ∈ [left, right, e.left, e.right, e.result], ty.Allowed Γ.core :=
    fun ty hty => ⟨(hne ty hty).1, fun _ => (hne ty hty).2⟩
  rw [returned_of_allowed (allowed left (by simp)), returned_of_allowed (allowed right (by simp))]
  refine .when (fun h => .emit (.castSecond (allowed right (by simp)) (allowed _ (by simp))
    (hright h))) (fun h => by rw [not_not.1 h]) ?_
  refine .when (fun h => .emit (.cast (allowed left (by simp)) (allowed _ (by simp)) (hleft h)))
    (fun h => by rw [not_not.1 h]) ?_
  refine .seq (.emit .binary) (.pure ⟨by rw [hresult], allowed _ (by simp), fun h => ?_⟩)
  simp only [h, Bool.not_true, Bool.false_or, Bool.and_eq_true, beq_iff_eq] at hcompound
  exact hcompound.2

theorem genUnary_evaluates {op : UnaryOp} (hp : Pushes Γ p S ty S') :
    Evaluates Γ χ fresh marks c (genUnary op ty span) S' (Pushes Γ q S) := by
  have negated : ∀ {t : Ty}, t ∈ [Ty.integer, .float, .vector, .rotation] → Pushes Γ p S t S' →
      Evaluates Γ χ fresh marks c (do emit .neg; pure t) S' (Pushes Γ q S) := by
    intro t ht hp
    have hallowed : t.Allowed Γ.core := by
      fin_cases ht <;> exact allowed_of_basic rfl
    rw [hp.1, returned_of_allowed hallowed]
    exact .seq (.emit (.neg ht)) (.pure (.of_allowed hallowed))
  have flipped : ∀ {t : Ty}, Pushes Γ p S t S' →
      Evaluates Γ χ fresh marks c (do coerce t .integer false span; emit .bitNot; pure .integer) S'
        (Pushes Γ q S) := by
    intro t hp
    refine .seq (coerce_evaluates hp (allowed_of_basic rfl)) ?_
    exact .seq (.emit .bitNot) (.pure (.of_basic rfl))
  unfold genUnary
  split
  · exact negated (by decide) hp
  · exact negated (by decide) hp
  · exact negated (by decide) hp
  · exact negated (by decide) hp
  · exact flipped hp
  · exact flipped hp
  · refine .ite (fun htruth => ?_) fun _ => .fail
    have hne : ty ≠ .void := by rintro rfl; exact Bool.noConfusion htruth
    rw [hp.1, returned, if_neg hne]
    exact .seq (.emit .not) (.pure (.of_basic rfl))
  · exact .fail

theorem componentOf_evaluates :
    Evaluates Γ χ fresh marks c (componentOf ty field span) S fun comp S' =>
      S' = S ∧ ty.HasComponent comp := by
  unfold componentOf
  split
  · exact .fail
  · rename_i hs _
    exact .pure ⟨rfl, .inl ⟨rfl, fun h => hs (h ▸ rfl)⟩⟩
  · exact .pure ⟨rfl, .inr rfl⟩
  · exact .fail

section

variable (hp : Pushes Γ p S ty S')

include hp

theorem genField_evaluates {field : String} :
    Evaluates Γ χ fresh marks c (genField ty field span) S' (Pushes Γ q S) := by
  refine .ite (fun h => ?_) fun _ => ?_
  · have hcore := core_of_array hp.allowed (.inl h.1)
    rw [hp.1, returned, if_neg (by rw [h.1]; decide)]
    exact .seq (.emit (.arrayCount hcore)) (.pure (.of_basic rfl))
  · refine .bind componentOf_evaluates fun comp S1 h => ?_
    rw [h.1, hp.1, returned_of_allowed (allowed_of_hasComponent h.2 : ty.Allowed Γ.core)]
    exact .seq (.emit (.getField h.2)) (.pure (.of_basic rfl))

theorem genArrayKey_evaluates :
    Evaluates Γ χ fresh marks c (genArrayKey ty span) S' fun _ S'' => ∃ t, S'' = t :: S := by
  have kept : ∀ {t : Ty}, t ≠ .void → Pushes Γ p S t S' →
      Evaluates Γ χ fresh marks c (pure ()) S' fun _ S'' => ∃ t, S'' = t :: S := by
    intro t ht hp
    exact .pure ⟨t, by rw [hp.1, returned, if_neg ht]⟩
  unfold genArrayKey
  split
  iterate 7 exact kept (by decide) hp
  · rw [hp.1, returned, if_neg (by decide)]
    exact .mono (.emit (.cast (allowed_of_basic rfl)
      (allowed_of_basic rfl) (by decide))) fun _ _ h => ⟨_, h⟩
  · exact .fail

theorem genListItem_evaluates :
    Evaluates Γ χ fresh marks c (genListItem ty span) S' fun _ S'' => ∃ t, S'' = t :: S := by
  unfold genListItem
  split
  · exact .fail
  · exact .fail
  · exact .fail
  · rw [hp.1, returned, if_neg (by decide)]
    exact .mono (.emit (.cast (allowed_of_basic rfl)
      (allowed_of_basic rfl) (by decide))) fun _ _ h => ⟨_, h⟩
  · rename_i hvoid _ _
    exact .pure ⟨ty, by rw [hp.1, returned, if_neg hvoid]⟩

theorem genElement_evaluates : Evaluates Γ χ fresh marks c (genElement ty span) S' fun t S'' =>
      S'' = t :: S ∧ t.Allowed Γ.core := by
  unfold genElement
  split
  · exact .fail
  · exact .fail
  · rw [hp.1, returned, if_neg (by decide)]
    have integer : Ty.integer.Allowed Γ.core := allowed_of_basic rfl
    exact .seq (.emit (.cast (allowed_of_basic rfl) integer (by decide))) (.pure ⟨rfl, integer⟩)
  · rename_i hvoid _ _
    have hallowed := hp.allowed hvoid
    exact .pure ⟨by rw [hp.1, returned_of_allowed hallowed], hallowed⟩

end

theorem load_evaluates (h : Γ.HasVar χ fresh var ty) :
    Evaluates Γ χ fresh marks c (load var) S fun _ S' => S' = ty :: S :=
  .of_emits (fun _ _ _ => load_emits var) fun _ => .plain (.load h)

theorem store_evaluates (h : Γ.HasVar χ fresh var ty) :
    Evaluates Γ χ fresh marks c (store var ty) (ty :: S) fun _ S' => S' = S :=
  .of_emits (fun _ _ _ => store_emits var ty) fun _ => .store h

theorem genName_evaluates (hc : Describes Γ is c) :
    Evaluates Γ χ fresh marks c (genName name span) S (Pushes Γ q S) := by
  refine .meaning hc fun m hm => ?_
  split
  · obtain ⟨hvar, hallowed⟩ := hm _ _ rfl
    exact .seq (load_evaluates hvar) (.pure (.of_allowed hallowed))
  · rename_i v
    refine .seq (emitConstant_evaluates v span) (.pure ?_)
    cases v <;> exact .of_basic rfl
  · exact .fail

theorem here_done (h : here c s = .done target code s') :
    code = [] ∧ s' = s ∧ target.toNat = s.pc := by
  obtain ⟨_, h2, rfl⟩ := rest_done rfl h
  dsimp only at h2
  split at h2
  · rename_i hlt
    cases h2
    exact ⟨rfl, rfl, UInt32.toNat_ofNat_of_lt' hlt⟩
  · cases h2

theorem capture_done (h : capture x c s = .done (a, kept) code s') :
    code = [] ∧ x c s = .done a kept s' := by
  unfold capture at h
  split at h
  · rename_i hx
    cases h
    exact ⟨rfl, hx⟩
  · cases h

theorem skipping_done (h : skipping jump body c s = .done () code s') :
    ∃ rest target, body c { s with pc := s.pc + 1 } = .done () rest s' ∧ target.toNat = s'.pc ∧
      code = .op (jump target) s.place :: rest := by
  obtain ⟨place, _, s1, _, h1, h2, rfl⟩ := bind_done h
  obtain ⟨⟨_, rest⟩, _, s2, _, h3, h4, rfl⟩ := bind_done h2
  obtain ⟨target, _, s3, _, h5, h6, rfl⟩ := bind_done h4
  cases h1
  cases h6
  obtain ⟨rfl, hbody⟩ := capture_done h3
  obtain ⟨rfl, rfl, htarget⟩ := here_done h5
  exact ⟨rest, target, hbody, htarget, rfl⟩

theorem genCall_evaluates (hc : Describes Γ is c) (hf : Γ.functions[sig.index.toNat]? = some
    (sig.params, sig.ret)) (hret : sig.ret = .void ∧ q ∨ sig.ret.Allowed Γ.core) :
    Evaluates Γ χ fresh marks c (genCall sig span) (sig.params.reverse ++ S) (Pushes Γ q S) := by
  refine .seq (.setPlace span) ?_
  intro s ty code s' h hs _ _
  obtain ⟨_, _, s1, _, h1, h2, rfl⟩ := bind_done h
  obtain ⟨_, _, s2, _, h3, h4, rfl⟩ := bind_done h2
  cases h1
  cases h4
  obtain ⟨rest, target, hrest, htarget, rfl⟩ := skipping_done h3
  obtain ⟨emitted, hemitted, hops⟩ := returnDefault_emits hc hs.chain hs.static
    { s with pc := s.pc + 1 + 1 } rfl
  rw [hrest] at hemitted
  cases hemitted
  have hlen : rest.length = (returnDefaultOps Γ χ).length := by rw [← hops marks, length_opsOf]
  refine ⟨_, ⟨rfl, hret⟩, ?_, le_rfl, ?_, rfl, rfl, rfl⟩
  · simp only [cons_append, nil_append, append_nil, opsOf_op, hops]
    exact .call hf htarget
  · simp only [cons_append, nil_append, append_nil, length_cons, hlen]
    omega

theorem genApiCall_evaluates (hlibrary : Γ.library = true)
    (hf : ApiFunction.table[index]? = some f) (hmissing : f.ret = .void → q) :
    Evaluates Γ χ fresh marks c (genApiCall index f span) (f.signature.reverse ++ S)
      (Pushes Γ q S) := by
  unfold genApiCall
  split
  · exact .fail
  rename_i i hi
  have hget : ApiFunction.get? i = some f := by
    unfold ApiFunction.get?
    rw [toNat_of_index? hi, hf]
  have hret : f.ret = .void ∧ q ∨ f.ret.Allowed Γ.core := by
    by_cases hv : f.ret = .void
    · exact .inl ⟨hv, hmissing hv⟩
    · exact .inr ⟨hv, fun _ => ApiFunction.ret_ne hf⟩
  refine .seq (.setPlace span) (.seq (.emit (.callApi hlibrary hget))
    (.seq (.emit (.checkRun hlibrary)) ?_))
  exact .pure ⟨rfl, hret⟩

theorem genStore_evaluates (h : Γ.HasVar χ fresh var ty) (hty : ty.Allowed Γ.core) :
    Evaluates Γ χ fresh marks c (genStore var ty) (ty :: S) (Pushes Γ q S) :=
  .seq (.emit .dup) (.seq (store_evaluates h) (.pure (.of_allowed hty)))

theorem genComponentStore_evaluates (h : Γ.HasVar χ fresh var ty) (hcomp : ty.HasComponent comp) :
    Evaluates Γ χ fresh marks c (genComponentStore var ty comp span) (.float :: S) (Pushes Γ q S) := by
  refine .bind (newSlot_evaluates span) fun k S' hk => ?_
  obtain ⟨rfl, hspare⟩ := hk
  let ops : Gen Unit := do
    emit (.storeLocal k)
    load var
    emit (.loadLocal k)
    emit (.setField comp)
    store var ty
    emit (.loadLocal k)
  have hops : Evaluates Γ χ fresh marks c ops (.float :: S) fun _ S' => S' = .float :: S := by
    refine .of_emits (fun _ _ _ => ?_) fun _ => .component h hcomp hspare
    have hlist : componentOps var ty comp k = [Op.storeLocal k] ++ ([var.loadOp] ++
        ([Op.loadLocal k] ++ ([Op.setField comp] ++ (storeOps var ty ++ [Op.loadLocal k])))) := by
      simp [componentOps]
    rw [hlist]
    exact .bind (.emit _) (.bind (load_emits var) (.bind (.emit _) (.bind (.emit _)
      (.bind (store_emits var ty) (.emit _)))))
  have hall : Evaluates Γ χ fresh marks c (ops >>= fun _ => pure Ty.float) (.float :: S)
      (Pushes Γ q S) := .seq hops (.pure (.of_basic rfl))
  simpa only [ops, Gen.bind_assoc] using hall

theorem genBump_evaluates (hc : Describes Γ is c) :
    Evaluates Γ χ fresh marks c (genBump target up before span) S (Pushes Γ q S) := by
  unfold genBump
  split
  · refine .bind_of_grows (varOf_evaluates hc _ _) (fun v S' hv => ?_) fun v => by
      dsimp only
      split <;> infer_instance
    obtain ⟨rfl, hvar, hallowed⟩ := hv
    dsimp only
    split
    · exact .fail
    rename_i one eval hstep
    have hone : one.ty = v.2 ∧ eval.resultTy = v.2 := by
      generalize v.2 = ty at hstep
      unfold stepOf? at hstep
      split at hstep <;> cases hstep <;> exact ⟨rfl, rfl⟩
    cases before with
    | true =>
      refine .seq (load_evaluates hvar) (.seq (emitConstant_evaluates one span)
        (.seq (load_evaluates hvar) (.seq (.emit .binary) ?_)))
      rw [hone.2]
      exact .seq (store_evaluates hvar) (.pure (.of_allowed hallowed))
    | false =>
      refine .seq (emitConstant_evaluates one span) (.seq (load_evaluates hvar)
        (.seq (.emit .binary) (.seq (.emit .dup) ?_)))
      rw [hone.2]
      exact .seq (store_evaluates hvar) (.pure (.of_allowed hallowed))
  · exact .fail

theorem methodOf_evaluates (hp : Pushes Γ p S ty S') (hcore : Γ.core = false) :
    Evaluates Γ χ fresh marks c (methodOf ty method span) S' fun op S'' =>
      S'' = .array :: S ∧ ∀ t, Plain Γ χ fresh op (t :: .array :: S) (.object :: S) := by
  refine .ite (fun h => ?_) fun _ => .ite (fun h => ?_) fun _ => .fail
  · exact .pure ⟨by rw [hp.1, h.1]; rfl, fun _ => .arrayKey hcore⟩
  · exact .pure ⟨by rw [hp.1, h.1]; rfl, fun _ => .arrayValue hcore⟩

/-! ## Expressions -/

theorem genItems_evaluates
    (h : ∀ e ∈ es, ∀ S, Evaluates Γ χ fresh marks c (genExpr e) S (Pushes Γ (c.NoValue e) S)) :
    Evaluates Γ χ fresh marks c (genItems es) S fun _ S' =>
      ∃ items : List Ty, items.length = es.length ∧ S' = items ++ S := by
  induction es generalizing S with
  | nil => unfold genItems; exact .pure ⟨[], rfl, rfl⟩
  | cons e es ih =>
    have hgrows : Grows (genItems es) := genItems_keeps fun e _ => genExpr_keeps
    refine .bind (h e mem_cons_self S) fun ty S1 h1 => ?_
    refine .bind (genListItem_evaluates h1) fun _ S2 h2 => ?_
    obtain ⟨t, rfl⟩ := h2
    refine .mono (ih (forall_mem_cons.1 h).2) fun _ S3 h3 => ?_
    obtain ⟨items, hlen, rfl⟩ := h3
    exact ⟨items ++ [t], by simp [hlen], by simp⟩

theorem genArgs_evaluates (h : ∀ e ∈ es, ∀ S, Evaluates Γ χ fresh marks c (genExpr e) S
    (Pushes Γ (c.NoValue e) S))
    (hparams : ∀ ty ∈ params, ty.Allowed Γ.core) (hlen : params.length = es.length) :
    Evaluates Γ χ fresh marks c (genArgs name number params es) S fun _ S' =>
      S' = params.reverse ++ S := by
  induction es generalizing S number params with
  | nil =>
    obtain rfl := length_eq_zero_iff.1 hlen
    exact .pure rfl
  | cons e es ih =>
    cases params with
    | nil => cases hlen
    | cons param params =>
      have hgrows : ∀ n, Grows (genArgs name n params es) := fun n =>
        genArgs_keeps (fun e _ => genExpr_keeps) name n params
      refine .bind (h e mem_cons_self S) fun ty S1 h1 => ?_
      refine .ite (fun _ => ?_) fun _ => .fail
      refine .seq (coerce_evaluates h1 (hparams param mem_cons_self)) ?_
      refine .mono (ih (forall_mem_cons.1 h).2
        (forall_mem_cons.1 hparams).2 (Nat.succ.inj hlen)) fun _ S2 h2 => ?_
      rw [h2, reverse_cons, append_assoc]
      rfl

theorem genAssign_evaluates (hc : Describes Γ is c) [Grows value]
    (hvalue : ∀ S, Evaluates Γ χ fresh marks c value S (Pushes Γ p S))
    (hkey : ∀ array key keySpan, target = .index array key keySpan →
      Γ.core = false ∧ ∀ S, Evaluates Γ χ fresh marks c (genExpr key) S (Pushes Γ (c.NoValue key) S)) :
    Evaluates Γ χ fresh marks c (genAssign op target value valueSpan span) S (Pushes Γ q S) := by
  unfold genAssign
  split
  · -- a variable
    refine .bind_of_grows (varOf_evaluates hc _ _) (fun v S' hv => ?_)
      fun v => by cases op <;> infer_instance
    obtain ⟨rfl, hvar, hallowed⟩ := hv
    cases op with
    | none =>
      refine .bind (hvalue S') fun ty S1 h1 => .seq (coerce_evaluates h1 hallowed) ?_
      exact genStore_evaluates hvar hallowed
    | some op =>
      refine .bind (hvalue S') fun r S1 h1 => .seq (load_evaluates hvar) ?_
      rw [h1.1, ← returned_of_allowed hallowed]
      refine .bind genBinary_evaluates fun ty S2 h2 => ?_
      rw [h2.1, h2.2.2 rfl]
      exact genStore_evaluates hvar hallowed
  · -- a component of a variable
    refine .bind_of_grows (varOf_evaluates hc _ _) (fun v S' hv => ?_) fun v =>
      .bind fun _ => by cases op <;> infer_instance
    obtain ⟨rfl, hvar, -⟩ := hv
    refine .bind_of_grows componentOf_evaluates (fun comp S1 h => ?_)
      fun _ => by cases op <;> infer_instance
    obtain ⟨rfl, hcomp⟩ := h
    cases op with
    | none =>
      refine .bind (hvalue S1) fun ty S2 h2 => .seq (coerce_evaluates h2 (allowed_of_basic rfl)) ?_
      exact genComponentStore_evaluates hvar hcomp
    | some op =>
      refine .bind (hvalue S1) fun r S2 h2 => .seq (load_evaluates hvar) ?_
      refine .seq (.emit (.getField hcomp)) ?_
      rw [h2.1]
      refine .bind genBinary_evaluates fun ty S3 h3 => ?_
      rw [h3.1, h3.2.2 rfl]
      exact genComponentStore_evaluates hvar hcomp
  · exact .fail
  · -- an element of an array variable
    rename_i keySpan
    obtain ⟨hcore, hkey⟩ := hkey _ _ _ rfl
    refine .bind_of_grows (varOf_evaluates hc _ _) (fun v S' hv => ?_) fun v => by
      dsimp only
      split
      · infer_instance
      · cases op <;> infer_instance
    obtain ⟨rfl, hvar, -⟩ := hv
    refine .ite (fun _ => .fail) fun harray => ?_
    rw [not_not.1 harray] at hvar
    cases op with
    | some op => exact .bind (hvalue S') fun _ _ _ => .fail
    | none =>
      refine .bind (hkey S') fun kty S1 h1 => .bind (genArrayKey_evaluates h1) fun _ S2 h2 => ?_
      obtain ⟨k, rfl⟩ := h2
      refine .bind (hvalue _) fun vty S3 h3 => .bind (genElement_evaluates h3) fun t S4 h4 => ?_
      rw [h4.1]
      refine .seq (.of_emits (fun _ _ _ => .emit _) fun _ => .arraySet hcore hvar) ?_
      exact .pure (.of_allowed h4.2)
  · exact .fail
  · exact .fail

theorem genExpr_evaluates (hc : Describes Γ is c) (h : e.Regular Γ.core is)
    (S : List Ty) : Evaluates Γ χ fresh marks c (genExpr e) S (Pushes Γ (c.NoValue e) S) := by
  induction e using Expr.induct generalizing S with
  | integer n span | float d span | string s span =>
    exact .seq (emitConstant_evaluates _ span) (.pure (.of_basic rfl))
  | name id span =>
    exact genName_evaluates hc
  | undefined span =>
    have hcore : Γ.core = false := h
    exact .seq (.emit (.undefined hcore)) (.pure (.of_allowed (allowed_of_core hcore (by decide))))
  | list items span ih =>
    refine .bind_of_grows (genItems_evaluates fun e he S => ih e he (h.of_mem he) S)
      (fun _ S' hS' => ?_) fun _ => by split <;> infer_instance
    obtain ⟨tys, hlen, rfl⟩ := hS'
    split
    · exact .fail
    · rename_i hn
      exact .seq (.emit (.makeList (by rw [hlen, toNat_of_index? hn]))) (.pure (.of_basic rfl))
  | vector x y z span hx hy hz =>
    obtain ⟨rx, ry, rz⟩ := h
    refine .bind (hx rx S) fun _ _ h1 => .seq (coerce_evaluates h1 (allowed_of_basic rfl)) ?_
    refine .bind (hy ry _) fun _ _ h2 => .seq (coerce_evaluates h2 (allowed_of_basic rfl)) ?_
    refine .bind (hz rz _) fun _ _ h3 => .seq (coerce_evaluates h3 (allowed_of_basic rfl)) ?_
    exact .seq (.emit .makeVector) (.pure (.of_basic rfl))
  | rotation x y z s span hx hy hz hs =>
    obtain ⟨rx, ry, rz, rs⟩ := h
    refine .bind (hx rx S) fun _ _ h1 => .seq (coerce_evaluates h1 (allowed_of_basic rfl)) ?_
    refine .bind (hy ry _) fun _ _ h2 => .seq (coerce_evaluates h2 (allowed_of_basic rfl)) ?_
    refine .bind (hz rz _) fun _ _ h3 => .seq (coerce_evaluates h3 (allowed_of_basic rfl)) ?_
    refine .bind (hs rs _) fun _ _ h4 => .seq (coerce_evaluates h4 (allowed_of_basic rfl)) ?_
    exact .seq (.emit .makeRotation) (.pure (.of_basic rfl))
  | cast ty operand span ih =>
    refine .bind (ih h.2 S) fun _ _ h1 => .seq (coerce_evaluates h1 h.1) ?_
    exact .pure (.of_allowed h.1)
  | call name args span ih =>
    have hargs : ∀ e ∈ args, ∀ S, Evaluates Γ χ fresh marks c (genExpr e) S
      (Pushes Γ (c.NoValue e) S) :=
      fun e he S => ih e he (h.of_mem he) S
    refine .context (.ite (fun _ => .fail) fun hlimit => ?_)
    have hlimit : c.globalLimit = none := by simpa using hlimit
    split
    · rename_i sig hsig
      obtain ⟨hf, hparams, hret⟩ := hc.functions hlimit name sig hsig
      refine .ite (fun _ => .fail) fun hlen => ?_
      refine .seq (genArgs_evaluates hargs hparams (not_not.1 hlen)) (genCall_evaluates hc hf ?_)
      refine hret.imp_left fun hv => ⟨hv, hlimit, ?_⟩
      simp only [Names.NoValue, hsig, hv]
    · rename_i hnone
      split
      · rename_i index f hf
        have htable := ApiFunction.getElem?_of_find? hf
        refine .ite (fun _ => .fail) fun hlen => ?_
        refine .seq (genArgs_evaluates hargs (fun ty hty => ?_) (not_not.1 hlen))
          (genApiCall_evaluates (hc.library hlimit) htable fun hv => ⟨hlimit, ?_⟩)
        · obtain ⟨hvoid, harray, hobject⟩ := ApiFunction.signature_ne htable ty hty
          exact allowed_of_ne hvoid harray hobject
        · simp only [Names.NoValue, hnone]
          exact ⟨index, f, hf, hv⟩
      · exact .fail
  | binary op left right span hl hr =>
    refine .bind (hr h.2 S) fun r S1 h1 => .bind (hl h.1 S1) fun l S2 h2 => .seq (.setPlace span) ?_
    rw [h2.1, h1.1]
    exact .mono genBinary_evaluates fun ty S3 h3 => h3.1 ▸ .of_allowed h3.2.1
  | unary op operand span ih =>
    exact .bind (ih h S) fun ty S1 h1 => genUnary_evaluates h1
  | assign op target value span ih hkey =>
    refine genAssign_evaluates hc (ih h.2) fun array key keySpan heq => ?_
    subst heq
    exact ⟨h.1.1, fun S => hkey _ _ _ rfl h.1.2.2 S⟩
  | bump target up before span =>
    exact genBump_evaluates hc
  | field object name span ih =>
    exact .bind (ih h S) fun ty S1 h1 => genField_evaluates h1
  | index array key span ha hk =>
    obtain ⟨hcore, hra, hrk⟩ := h
    refine .bind (ha hra S) fun ty S1 h1 => .ite (fun _ => .fail) fun harray => ?_
    rw [h1.1, not_not.1 harray]
    refine .bind (hk hrk _) fun kty S2 h2 => .bind (genArrayKey_evaluates h2) fun _ S3 h3 => ?_
    obtain ⟨k, rfl⟩ := h3
    refine .seq (.emit (.arrayGet hcore)) (.pure ?_)
    exact .of_allowed (allowed_of_core hcore (by decide))
  | method object method args span ho ha =>
    obtain ⟨hcore, hro, hra⟩ := h
    unfold genExpr
    refine .bind_of_grows (ho hro S) (fun ty S1 h1 => ?_) fun _ => .bind fun _ => by
      split <;> infer_instance
    refine .bind_of_grows (methodOf_evaluates h1 hcore) (fun op S2 h2 => ?_) fun _ => by
      split <;> infer_instance
    obtain ⟨rfl, hop⟩ := h2
    split
    · rename_i arg
      refine .bind (ha arg mem_cons_self hra.1 _) fun aty S3 h3 => ?_
      refine .seq (coerce_evaluates h3 (allowed_of_basic rfl)) (.seq (.emit (hop .integer)) (.pure ?_))
      exact .of_allowed (allowed_of_core hcore (by decide))
    · exact .fail
  | isType operand ty span ih =>
    refine .bind (ih h.2.2 S) fun t S1 h1 => ?_
    rw [h1.1]
    refine .seq (.emit (.isType h.1 ?_)) (.pure (.of_basic rfl))
    refine (hc.tests operand h.2.1).imp_right fun hvalue hv => hvalue ?_
    exact (h1.2.resolve_right fun hallowed => hallowed.1 hv).2

end Compile

end EventScript
