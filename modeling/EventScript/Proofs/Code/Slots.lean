import EventScript.Proofs.Code.Functions

/-!
# Slots of expressions

An assignment to a component goes by way of a slot of its own, and no other expression takes one
(`genExpr_takes`). In a function the slots are part of its frame. The initializer has no frame to
put them in, so what counts there is whether a first value assigns to a component at all
(`Compilation.init_slots`).
-/

namespace EventScript

open List hiding span

namespace Expr

def setsComponent : Expr → Bool
  | .assign _ (.field ..) _ _ => true
  | _ => false

def componentSets (e : Expr) : Nat := e.parts.countP setsComponent

end Expr

def Script.componentSets (script : Script) : Nat :=
  (script.globals.map fun d => d.init.elim 0 Expr.componentSets).sum

namespace Compile

set_option synthInstance.maxSize 1000

namespace Gen

variable {α β : Type}

/-- The action takes so many new slots, and its code stores to one of them if there are any. -/
class Takes (n : Nat) (x : Gen α) : Prop where
  done : ∀ {a : α} {code : Code}, x c s = .done a code s' → s'.localCount = s.localCount + n ∧
      (0 < n → ∃ slot place, Instr.op (.storeLocal slot) place ∈ code)

/-! ## Combinators -/

theorem Takes.of_eq (h : Takes n x) (hn : n = k) : Takes k x := hn ▸ h

instance (priority := low) [hx : Quiet x] : Takes 0 x := by
  refine ⟨fun {c s s' _ _} h => ⟨?_, fun h => absurd h (Nat.lt_irrefl 0)⟩⟩
  obtain ⟨_, _, _, -, -, heq⟩ := hx.le c s
  rw [h] at heq
  obtain rfl : s' = _ := heq
  rfl

theorem Takes.bind (hx : Takes n x) (hf : ∀ a, Takes k (f a)) : Takes (n + k) (x >>= f) := by
  refine ⟨fun h => ?_⟩
  obtain ⟨a, code1, s1, code2, h1, h2, rfl⟩ := bind_done h
  obtain ⟨hn, hstore⟩ := hx.done h1
  obtain ⟨hk, hstore'⟩ := (hf a).done h2
  refine ⟨by omega, fun hpos => ?_⟩
  by_cases hzero : 0 < n
  · obtain ⟨slot, place, hmem⟩ := hstore hzero
    exact ⟨slot, place, mem_append_left _ hmem⟩
  · obtain ⟨slot, place, hmem⟩ := hstore' (by omega)
    exact ⟨slot, place, mem_append_right _ hmem⟩

instance Takes.andThen [hx : Takes n x] [hf : ∀ a, Takes 0 (f a)] : Takes n (x >>= f) := hx.bind hf

instance (priority := high) Takes.after [hx : Takes 0 x]
    [hf : ∀ a, Takes n (f a)] : Takes n (x >>= f) := (hx.bind hf).of_eq (Nat.zero_add n)

instance (e : SemanticError) (span : Span) : Takes n (fail e span : Gen α) := ⟨fun h => by cases h⟩

instance [Decidable p] [Takes n x] [Takes n y] : Takes n (if p then x else y) := by
  split <;> infer_instance

end Gen

open Gen

/-- The temporary of an assignment to a component. -/
instance (var : VarRef) (ty : Ty) (c : Component) (span : Span) :
    Takes 1 (genComponentStore var ty c span) := by
  refine ⟨fun {c0 s _ _ _} h => ?_⟩
  obtain ⟨slot, _, s1, rest, h1, h2, rfl⟩ := bind_done h
  have hcount : s1.localCount = s.localCount + 1 := by
    rw [newSlot_eq] at h1
    split at h1 <;> cases h1
    rfl
  obtain ⟨rest2, h4, rfl⟩ := rest_done rfl h2
  have hrest : Takes 0 (do
      load var
      emit (.loadLocal slot)
      emit (.setField c)
      store var ty
      emit (.loadLocal slot)
      pure Ty.float) := inferInstance
  refine ⟨(hrest.done h4).1.trans hcount, fun _ => ⟨slot, s1.place, ?_⟩⟩
  exact mem_append_right _ (mem_cons_self ..)

/-! ## Expressions -/

open Expr (componentSets parts allParts setsComponent)

theorem genAssign_takes (span : Span) (hvalue : Takes value.componentSets (genExpr value))
    (hkey : ∀ array key keySpan, target = .index array key keySpan →
      Takes key.componentSets (genExpr key)) :
    Takes (Expr.assign op target value span).componentSets
      (genAssign op target (genExpr value) value.span span) := by
  unfold genAssign
  split
  · refine Takes.of_eq (n := value.componentSets) ?_ (by simp [componentSets, parts, setsComponent])
    refine @Takes.after _ _ _ _ _ _ fun v => ?_
    cases op <;> infer_instance
  · refine Takes.of_eq (n := value.componentSets + 1) ?_
      (by simp [componentSets, parts, setsComponent, countP_cons])
    refine @Takes.after _ _ _ _ _ _ fun v => ?_
    refine @Takes.after _ _ _ _ _ _ fun c => ?_
    cases op with
    | none | some op => exact hvalue.bind fun _ => inferInstance
  · infer_instance
  · rename_i key _
    refine Takes.of_eq (n := key.componentSets + value.componentSets) ?_
      (by simp [componentSets, parts, setsComponent])
    refine @Takes.after _ _ _ _ _ _ fun v => ?_
    dsimp only
    split
    · infer_instance
    cases op with
    | none =>
      refine (hkey _ _ _ rfl).bind fun _ => ?_
      infer_instance
    | some op =>
      -- the action fails, whatever it has taken
      exact (hvalue.bind fun _ => inferInstance).of_eq (Nat.add_comm _ _)
  · infer_instance
  · infer_instance

theorem genItems_takes (h : ∀ e ∈ es, Takes e.componentSets (genExpr e)) :
    Takes ((allParts es).countP setsComponent) (genItems es) := by
  induction es with
  | nil => unfold genItems; exact inferInstanceAs (Takes 0 (pure ()))
  | cons e es ih =>
    have hrest := ih (forall_mem_cons.1 h).2
    unfold genItems allParts
    rw [countP_append]
    exact (h e mem_cons_self).bind fun _ => inferInstance

theorem genArgs_takes (h : ∀ e ∈ es, Takes e.componentSets (genExpr e))
    (number : Nat) (hlen : params.length = es.length) :
    Takes ((allParts es).countP setsComponent) (genArgs name number params es) := by
  induction es generalizing number params with
  | nil =>
    cases params with
    | nil => unfold genArgs; exact inferInstanceAs (Takes 0 (pure ()))
    | cons => cases hlen
  | cons e es ih =>
    cases params with
    | nil => cases hlen
    | cons param params =>
      have hrest := ih (forall_mem_cons.1 h).2 (number + 1) (Nat.succ.inj hlen)
      unfold genArgs allParts
      rw [countP_append]
      exact (h e mem_cons_self).bind fun _ => inferInstance

/-- The code of an expression takes a slot for each assignment to a component in it. -/
theorem genExpr_takes (e : Expr) : Takes e.componentSets (genExpr e) := by
  induction e using Expr.induct with
  | integer _ _ | float _ _ | string _ _ | undefined _ =>
    unfold genExpr; exact inferInstanceAs (Takes 0 _)
  | name f span => unfold genExpr; exact inferInstanceAs (Takes 0 (genName f span))
  | list items span ih =>
    refine @Takes.andThen _ _ _ _ _ (genItems_takes ih) fun _ => ?_
    split <;> infer_instance
  | vector x y z span hx hy hz =>
    refine Takes.of_eq (n := x.componentSets + (y.componentSets + z.componentSets)) ?_
      (by simp [componentSets, parts, setsComponent])
    exact hx.bind fun _ => @Takes.after _ _ _ _ _ _ fun _ => hy.bind fun _ => inferInstance
  | rotation x y z s span hx hy hz hs =>
    refine Takes.of_eq
      (n := x.componentSets + (y.componentSets + (z.componentSets + s.componentSets))) ?_
      (by simp [componentSets, parts, setsComponent])
    exact hx.bind fun _ => @Takes.after _ _ _ _ _ _ fun _ => hy.bind fun _ =>
      @Takes.after _ _ _ _ _ _ fun _ => hz.bind fun _ => inferInstance
  | cast ty operand span ih | unary op operand span ih | isType operand ty span ih =>
    unfold genExpr
    exact inferInstanceAs (Takes operand.componentSets _)
  | call name args span ih =>
    refine @Takes.after _ _ _ _ _ _ fun c => ?_
    split
    · infer_instance
    split
    · rename_i sig hsig
      by_cases hlen : sig.params.length = args.length
      · rw [if_neg (not_not.2 hlen)]
        exact @Takes.andThen _ _ _ _ _ (genArgs_takes ih 1 hlen) fun _ => inferInstance
      · rw [if_pos hlen]; infer_instance
    · split
      · rename_i index f hf
        by_cases hlen : f.signature.length = args.length
        · rw [if_neg (not_not.2 hlen)]
          exact @Takes.andThen _ _ _ _ _ (genArgs_takes ih 1 hlen) fun _ => inferInstance
        · rw [if_pos hlen]; infer_instance
      · infer_instance
  | binary op left right span hl hr =>
    refine Takes.of_eq (n := right.componentSets + left.componentSets) ?_
      (by simp [componentSets, parts, setsComponent, Nat.add_comm])
    exact hr.bind fun _ => inferInstance
  | assign op target value span ih hkey => unfold genExpr; exact genAssign_takes span ih hkey
  | bump target up before span =>
    unfold genExpr
    cases target with
    | name f fSpan => exact inferInstanceAs (Takes 0 (genBump (.name f fSpan) up before span))
    | _ => unfold genBump; infer_instance
  | field object field span ih =>
    unfold genExpr
    exact inferInstanceAs (Takes object.componentSets _)
  | index array key span ha hk =>
    refine Takes.of_eq (n := array.componentSets + key.componentSets) ?_
      (by simp [componentSets, parts, setsComponent])
    refine ha.bind fun _ => ?_
    infer_instance
  | method object method args span ho ha =>
    unfold genExpr
    refine Takes.of_eq (n := object.componentSets + (allParts args).countP setsComponent) ?_
      (by simp [componentSets, parts, setsComponent])
    refine ho.bind fun ty => @Takes.after _ _ _ _ _ _ fun op => ?_
    split
    · rename_i arg
      have harg := ha arg mem_cons_self
      have hone : (allParts [arg]).countP setsComponent = arg.componentSets := by
        simp [allParts, componentSets]
      rw [hone]
      infer_instance
    · infer_instance

/-! ## First values -/

theorem genGlobal_takes (h : genGlobal d index c s = .done () code s') (he : s'.errors = []) :
    s'.localCount = s.localCount + d.init.elim 0 componentSets ∧
      (0 < d.init.elim 0 componentSets →
        ∃ slot place, Instr.op (.storeLocal slot) place ∈ code) := by
  obtain ⟨_, _, s1, _, h1, h2, rfl⟩ := bind_done h
  cases h1
  obtain ⟨_, _, s2, _, h3, h4, rfl⟩ := bind_done h2
  cases h3
  obtain ⟨_, value, s3, _, h5, h6, rfl⟩ := bind_done h4
  have hrest : Takes 0 (do
      emit (.storeGlobal index)
      if d.ty.hasDynamicSize then emit (.memIncr (.globalVar index))) := inferInstance
  have hvalue : Takes (d.init.elim 0 componentSets) (genFirst d) := by
    unfold genFirst
    cases d.init with
    | none => exact inferInstanceAs (Takes 0 (emit _))
    | some e =>
      have := genExpr_takes e
      unfold genInitial
      exact inferInstanceAs (Takes e.componentSets _)
  obtain ⟨hcount, hstore⟩ := hvalue.done (report_done h5 ((Grows.of_done h6).errors_eq_nil he))
  refine ⟨(hrest.done h6).1.trans hcount, fun hpos => ?_⟩
  obtain ⟨slot, place, hmem⟩ := hstore hpos
  exact ⟨slot, place, mem_append_right _ (mem_append_right _ (mem_append_left _ hmem))⟩

theorem genGlobals_takes
    (hnames : ∀ k d, ds[k]? = some d → ∃ g, names.globals.lookup d.name = some g ∧
      g.index.toNat = i + k) (h : genGlobals names i ds s = (code, s')) (he : s'.errors = []) :
    s'.localCount = s.localCount + (ds.map fun d => d.init.elim 0 componentSets).sum ∧
      (0 < (ds.map fun d => d.init.elim 0 componentSets).sum →
        ∃ slot place, Instr.op (.storeLocal slot) place ∈ code) := by
  induction ds generalizing i s code with
  | nil =>
    have hdone := run_done h he
    cases hdone
    exact ⟨rfl, nofun⟩
  | cons d ds ih =>
    obtain ⟨_, _, _, _, -, h1, he1, -, hr2, rfl, hnames⟩ := genGlobals_cons hnames h he
    obtain ⟨hcount, hstore⟩ := genGlobal_takes h1 he1
    obtain ⟨hcount', hstore'⟩ := ih hnames hr2
    rw [map_cons, sum_cons]
    refine ⟨by omega, fun hpos => ?_⟩
    by_cases hzero : 0 < d.init.elim 0 componentSets
    · obtain ⟨slot, place, hmem⟩ := hstore hzero
      exact ⟨slot, place, mem_append_left _ hmem⟩
    · obtain ⟨slot, place, hmem⟩ := hstore' (by omega)
      exact ⟨slot, place, mem_append_right _ hmem⟩

/-- The initializer takes a slot for each assignment to a component in the first values. -/
theorem Compilation.init_slots (h : Compilation script source m names b init s) :
    init.localCount = 0 ∧ s.localCount = script.componentSets ∧
      (0 < script.componentSets → ∃ slot, .storeLocal slot ∈ init.ops.toList) := by
  have hgen := h.generated
  unfold genInit at hgen
  generalize hr : genGlobals names 0 script.globals b.state.fresh = r at hgen
  obtain ⟨code, s1⟩ := r
  obtain ⟨rfl, rfl⟩ := Prod.mk.inj hgen
  obtain ⟨hcount, hstore⟩ := genGlobals_takes
    (fun k d hd => by simpa using h.global_index k d hd) hr h.errors
  refine ⟨rfl, hcount.trans (Nat.zero_add _), fun hpos => ?_⟩
  obtain ⟨slot, place, hmem⟩ := hstore hpos
  refine ⟨slot, ?_⟩
  exact mem_map.2 ⟨_, mem_map.2 ⟨_, hmem, rfl⟩, rfl⟩

end Compile

end EventScript
