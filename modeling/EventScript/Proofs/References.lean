import EventScript.Proofs.Interpretation.Modules

/-!
# What indexes stand for

Code refers to constants, variables, functions and states by their indexes. In the module an index
stands for what the source names there (`Module.indexes_denote`). States are the exception: from
number 65535 on they all have the index 65535, and a script may have more of them.

A variable of a function has its slot from its declaration. No other one that is open at the same
time has it, whatever has been generated (`Compile.Occurs.numbered`), and there are no more
variables than slots.
-/

namespace EventScript

open List Option

def Expr.literal? : Expr → Option Constant
  | .integer n _ => some (.integer n)
  | .float d _ => some (.float d)
  | .string t _ => some (.string t)
  | _ => none

namespace Compile

open Gen

/-! ## Slots -/

set_option synthInstance.maxSize 1000

def varsOf (scopes : List Scope) : List (String × LocalVar) :=
  scopes.flatMap fun scope => scope.visible ++ scope.pending

/-- The variables of the open scopes have slots of their own, out of those that are taken. -/
structure State.Numbered (s : State) : Prop where
  nodup : ((varsOf s.scopes).map fun p => p.2.slot.toNat).Nodup
  below : ∀ p ∈ varsOf s.scopes, p.2.slot.toNat < s.localCount

/-- The same scopes are open, and have no variable that they did not have before. -/
structure State.Stays (s s' : State) : Prop where
  count : s.localCount ≤ s'.localCount
  tail : s'.scopes.tail = s.scopes.tail
  vars : varsOf s'.scopes <+~ varsOf s.scopes

theorem State.Numbered.stays {s s' : State} (hs : s.Numbered) (h : s.Stays s') : s'.Numbered where
  nodup := by
    obtain ⟨vars, hperm, hsub⟩ := h.vars
    exact ((hperm.map _).nodup_iff).1 (hs.nodup.sublist (hsub.map _))
  below := fun p hp => Nat.lt_of_lt_of_le (hs.below p (h.vars.subset hp)) h.count

instance : Std.Refl State.Stays := ⟨fun _ => ⟨le_rfl, rfl, .refl _⟩⟩

instance : Trans State.Stays State.Stays State.Stays where
  trans h h' := ⟨h.count.trans h'.count, h'.tail.trans h.tail, h'.vars.trans h.vars⟩

instance : Lasting State.Stays where
  calm := by
    rintro s _ ⟨_, _, _, -, -, rfl⟩
    exact ⟨le_rfl, rfl, .refl _⟩
  record _ _ := ⟨le_rfl, rfl, .refl _⟩
  slot _ _ := ⟨Nat.le_succ _, rfl, .refl _⟩
  lost h := ⟨h.count, h.tail, h.vars⟩

instance : Keeps State.Stays (genLabel label) := by
  refine ⟨fun c s => ?_⟩
  rw [genLabel_eq]
  split
  · exact ⟨le_rfl, rfl, .refl _⟩
  split <;> exact ⟨le_rfl, rfl, .refl _⟩

theorem varsOf_cons : varsOf (scope :: scopes) =
    scope.visible ++ scope.pending ++ varsOf scopes := flatMap_cons

/-- A variable is taken from those whose declaration is still to come. -/
theorem cons_filter_subperm {vars : List (String × LocalVar)} (h : vars.lookup name = some v) :
    (name, v) :: vars.filter (·.1 ≠ name) <+~ vars := by
  refine cons_subperm_of_not_mem_of_mem (fun hmem => ?_) (mem_of_lookup h) filter_sublist.subperm
  exact of_decide_eq_true (mem_filter.1 hmem).2 rfl

theorem reveal_vars (name : String) (v : LocalVar) (c : Context) (s : State) :
    ∃ s', reveal name v c s = .done () [] s' ∧ s'.localCount = s.localCount ∧
      s'.scopes.tail = s.scopes.tail ∧ varsOf s'.scopes <+~ (name, v) :: varsOf s.scopes := by
  refine ⟨_, rfl, ?_⟩
  dsimp only
  split
  · exact ⟨rfl, rfl, .cons_self⟩
  · rename_i heq
    rw [heq]
    exact ⟨rfl, rfl, .refl _⟩

theorem attempt_ends (x : Gen α) (c : Context) (s : State) :
    ∃ r code s', attempt x c s = .done r code s' := by
  unfold attempt
  cases x c s with
  | done a code s' => exact ⟨_, _, _, rfl⟩
  | failed e s' => exact ⟨_, _, _, rfl⟩

theorem state_of_bind {x : Gen α} {f : α → Gen β} (h : x c s = .done a code s1) :
    ((x >>= f) c s).state = (f a c s1).state := by
  show (Gen.bind x f c s).state = _
  unfold Gen.bind
  rw [h]
  dsimp only
  cases f a c s1 <;> rfl

instance (d : VarDecl) : Keeps State.Stays (genDecl d) := by
  refine ⟨fun c s => ?_⟩
  unfold genDecl
  cases hscopes : s.scopes with
  | nil =>
    have htake : takePending? d.name c s = .done none [] s := by
      simp only [takePending?, bind, Gen.bind, Gen.state, hscopes]
      rfl
    rw [state_of_bind htake]
    exact ⟨le_rfl, rfl, .refl _⟩
  | cons scope rest =>
    have htake : takePending? d.name c s = .done (scope.pending.lookup d.name) []
        { s with scopes := { scope with pending := scope.pending.filter (·.1 ≠ d.name) } :: rest } := by
      simp only [takePending?, bind, Gen.bind, Gen.state, hscopes]
      rfl
    rw [state_of_bind htake]
    cases hv : scope.pending.lookup d.name with
    | none =>
      refine ⟨le_rfl, by rw [hscopes]; rfl, ?_⟩
      show varsOf (_ :: rest) <+~ _
      rw [hscopes, varsOf_cons, varsOf_cons]
      exact ((filter_sublist.append_left _).append_right _).subperm
    | some v =>
      dsimp only
      obtain ⟨r, code, s2, h2⟩ := attempt_ends (genDeclValue d v) c { s with scopes :=
        { scope with pending := scope.pending.filter (·.1 ≠ d.name) } :: rest }
      have hstays : State.Stays _ s2 := Keeps.of_done h2
      obtain ⟨s3, h3, hcount, htail, hvars⟩ := reveal_vars d.name v c s2
      rw [state_of_bind h2, state_of_bind h3, show (ofExcept r c s3).state = s3 by cases r <;> rfl]
      refine ⟨hstays.count.trans_eq hcount.symm, ?_, ?_⟩
      · rw [htail, hstays.tail, hscopes]
        rfl
      · refine hvars.trans (((subperm_cons _).2 hstays.vars).trans ?_)
        rw [hscopes, varsOf_cons, varsOf_cons]
        have hpending := (subperm_append_left scope.visible).2 (cons_filter_subperm hv)
        refine .trans ?_ ((subperm_append_right (varsOf rest)).2 hpending)
        simp only [append_assoc, cons_append]
        exact perm_middle.symm.subperm

theorem report_ends (x : Gen Unit) (c : Context) (s : State) :
    ∃ code s', report x c s = .done () code s' := by
  simp only [report, bind, Gen.bind, attempt]
  cases x c s with
  | done a code s' => exact ⟨_, _, rfl⟩
  | failed e s' => exact ⟨_, _, rfl⟩

theorem genStmts_ends (ss : List Stmt) (c : Context) (s : State) :
    ∃ code s', genStmts ss c s = .done () code s' := by
  induction ss generalizing s with
  | nil => exact ⟨_, _, by rw [genStmts]; rfl⟩
  | cons stmt ss ih =>
    obtain ⟨code, s1, h1⟩ := report_ends (genStmt stmt) c s
    obtain ⟨rest, s2, h2⟩ := ih s1
    exact ⟨_, _, by rw [genStmts]; exact bind_of_done h1 h2⟩

theorem leaveScope_ends (scope : Scope) (c : Context) (s : State) :
    ∃ code s', leaveScope scope c s = .done () code s' := by
  have hrelease := @releaseSlots_emits c s.scopes scope.dynamicSlots
  have hstatic : Emits c s.scopes (if scope.staticSize ≠ 0 then emit (.memStatic (-scope.staticSize))
      else pure ()) _ := .ite (fun _ => .emit _) fun _ => .pure
  obtain ⟨code, h, -⟩ := (hrelease.bind hstatic) s rfl
  exact ⟨_, _, h⟩

instance genStmt_stays (s : Stmt) : Keeps State.Stays (genStmt s) := by
  induction s using Stmt.induct with
  | block id stmts span ih =>
    have := genStmts_keeps ih
    have hbody (scope : Scope) : Keeps State.Stays (do
        pushScope scope
        genStmts stmts
        setPlace (lastOf span)
        leaveScope scope
        popScope) := by
      refine ⟨fun c s => ?_⟩
      have hpush : pushScope scope c s = .done () [] { s with scopes := scope :: s.scopes } := rfl
      obtain ⟨code, s1, h1⟩ := genStmts_ends stmts c { s with scopes := scope :: s.scopes }
      obtain ⟨_, s2, h2⟩ : ∃ code s2, setPlace (lastOf span) c s1 = .done () code s2 := ⟨_, _, rfl⟩
      obtain ⟨_, s3, h3⟩ := leaveScope_ends scope c s2
      rw [state_of_bind hpush, state_of_bind h1, state_of_bind h2, state_of_bind h3]
      have hstays : State.Stays _ s3 := Trans.trans (Trans.trans
        (Keeps.of_done h1 : State.Stays _ s1) (Keeps.of_done h2 : State.Stays s1 s2))
        (Keeps.of_done h3 : State.Stays s2 s3)
      refine ⟨hstays.count, ?_, ?_⟩
      · exact congrArg tail hstays.tail
      · exact (congrArg varsOf hstays.tail : varsOf s3.scopes.tail = varsOf s.scopes) ▸ .refl _
    unfold genStmt
    infer_instance
  | forDo init cond step body span ih =>
    unfold genStmt
    cases cond <;> infer_instance
  | _ => unfold genStmt; infer_instance

/-- The states in which the code of a function is generated: with its variables declared, in a block
whose variables are declared as well, and after anything that has been generated there. -/
inductive Occurs (c : Context) : State → Prop
  | frame {s : State} : declareFrame f c s.fresh = .done () code s' → s'.errors = [] → Occurs c s'
  | block : Occurs c s → declareAll (.empty block) ss c s = .done scope code s' → s'.errors = [] →
      Occurs c { s' with scopes := scope :: s'.scopes }
  | stmt (stmt : Stmt) : Occurs c s → Occurs c (genStmt stmt c s).state
  | expr (e : Expr) : Occurs c s → Occurs c (genExpr e c s).state
  | slot (span : Span) : Occurs c s → Occurs c (newSlot span c s).state
  | calm : Occurs c s → s.Calm s' → Occurs c s'

/-- Variables that are new take the slots behind those that are taken. -/
theorem numbered_of_slotted {names : List (String × Ty)} {vars : List (String × LocalVar)}
    (h : Slotted n names vars) (hold : ((varsOf scopes).map fun p => p.2.slot.toNat).Nodup)
    (hbelow : ∀ p ∈ varsOf scopes, p.2.slot.toNat < n) :
    ((vars.reverse ++ varsOf scopes).map fun p => p.2.slot.toNat).Nodup ∧
      ∀ p ∈ vars.reverse ++ varsOf scopes, p.2.slot.toNat < n + vars.length := by
  have hrange {p : String × LocalVar} (hp : p ∈ vars) : n ≤ p.2.slot.toNat ∧
      p.2.slot.toNat < n + vars.length := h.slot_mem (mem_map_of_mem hp)
  refine ⟨?_, fun p hp => ?_⟩
  · rw [map_append, map_reverse, h.slots]
    refine nodup_append.2 ⟨nodup_reverse.2 nodup_range', hold, fun k hk k' hk' => ?_⟩
    obtain ⟨p, hp, rfl⟩ := mem_map.1 hk'
    have hlt := hbelow p hp
    have hge := (mem_range'_1.1 (mem_reverse.1 hk)).1
    omega
  · rcases mem_append.1 hp with hp | hp
    · exact (hrange (mem_reverse.1 hp)).2
    · exact Nat.lt_of_lt_of_le (hbelow p hp) (Nat.le_add_right _ _)

theorem varsOf_extend (scope : Scope) (h : scope.visible = []) (h' : scope.pending = [])
    (visible : Bool)
    (vars : List (String × LocalVar)) (scopes : List Scope) :
    varsOf (scope.extend visible vars :: scopes) = vars.reverse ++ varsOf scopes := by
  rw [varsOf_cons]
  cases visible <;> simp [Scope.extend, h, h']

/-- Whatever has been generated, the variables that are open have slots of their own. -/
theorem Occurs.numbered (h : Occurs c s) : s.Numbered := by
  induction h with
  | frame hdone he =>
    obtain ⟨ps, bs, hopened⟩ := declareFrame_done hdone he
    have hparams := @numbered_of_slotted 0 [] _ _ hopened.params nodup_nil nofun
    rw [← varsOf_extend (.empty none) rfl rfl true, Nat.zero_add] at hparams
    have hbody := numbered_of_slotted hopened.vars hparams.1 hparams.2
    rw [← varsOf_extend (.empty _) rfl rfl false, ← hopened.scopes] at hbody
    exact ⟨hbody.1, fun p hp => hopened.count ▸ hbody.2 p hp⟩
  | block _ hdone he ih =>
    obtain ⟨vars, hvars, -, rfl, rfl, rfl⟩ := declareAll_done hdone he
    have hnew := numbered_of_slotted hvars ih.nodup ih.below
    rw [← varsOf_extend (.empty _) rfl rfl false] at hnew
    exact ⟨hnew.1, hnew.2⟩
  | stmt stmt _ ih => exact ih.stays ((genStmt_stays stmt).le _ _)
  | expr e _ ih => exact ih.stays (Keeps.le (x := genExpr e) _ _)
  | slot span _ ih => exact ih.stays (Keeps.le (x := newSlot span) _ _)
  | calm _ hcalm ih => exact ih.stays (Lasting.calm hcalm)

theorem Occurs.slot_unique (h : Occurs c s) (hp : p ∈ varsOf s.scopes) (hq : q ∈ varsOf s.scopes)
    (hslot : p.2.slot = q.2.slot) : p = q :=
  inj_on_of_nodup_map h.numbered.nodup hp hq (congrArg UInt16.toNat hslot)

/-! ## References -/

/-- The name stands for a variable: the innermost local one, or a global one of the module. -/
def Binds (m : Module) (s : State) (x : String) : VarRef → Ty → Prop
  | .localVar slot, ty => localOf? x s.scopes = some ⟨slot, ty⟩
  | .globalVar i, ty => localOf? x s.scopes = none ∧ m.globals[i.toNat]? = some ⟨x, ty⟩

theorem ofName?_of_meaning (h : meaningOf? c s x = some (.constant v)) : Constant.ofName? x = some v
    := by
  unfold meaningOf? at h
  split at h
  · cases h
  split at h
  · cases h
  obtain ⟨_, hv, heq⟩ := map_eq_some_iff.1 h
  cases heq
  exact hv

theorem emitConstant_stored {m : Module} (h : s'.constants <+: m.constants.toList) {span : Span}
    (hv : emitConstant v span c s = .done () code s') :
    ∃ i, code = [.op (.pushConst i) s.place] ∧ m.constants[i.toNat]? = some v := by
  obtain ⟨i, _, s1, _, h1, h2, rfl⟩ := bind_done hv
  obtain ⟨rfl, hi, hs1⟩ := constantIndex_done h1
  cases h2
  refine ⟨i, by rw [hs1]; rfl, ?_⟩
  rw [← Array.getElem?_toList]
  exact getElem?_of_prefix h hi

theorem literal_stored {m : Module} (h : s'.constants <+: m.constants.toList)
    (hv : e.literal? = some v) (he : genExpr e c s = .done ty code s') :
    ∃ i, code = [.op (.pushConst i) s.place] ∧ m.constants[i.toNat]? = some v := by
  cases e with
  | integer | float | string =>
    cases hv
    obtain ⟨_, _, _, _, h1, h2, rfl⟩ := bind_done he
    cases h2
    rw [append_nil]
    exact emitConstant_stored h h1
  | _ => cases hv

namespace Assembled

variable (h : Assembled script source m names b)

include h

theorem meaning (hc : c.names = names)
    (hx : meaningOf? c s x = some (.var var ty)) : Binds m s x var ty := by
  unfold meaningOf? at hx
  cases hlocal : localOf? x s.scopes with
  | some v => rw [hlocal] at hx; cases hx; exact hlocal
  | none =>
    rw [hlocal] at hx
    cases hglobal : globalOf? c x with
    | none =>
      rw [hglobal] at hx
      obtain ⟨v, -, hv⟩ := map_eq_some_iff.1 hx
      cases hv
    | some g =>
      rw [hglobal] at hx
      cases hx
      have hg := mem_of_lookup (hc ▸ (filter_eq_some_iff.1 hglobal).1)
      obtain ⟨k, hk⟩ := mem_iff_getElem?.1 hg
      refine ⟨hlocal, ?_⟩
      rw [(namesOf_done h.named).1.2.1 k _ hk, h.globals, getElem?_map, hk]
      rfl

theorem state (hc : c.names = names) (hstates : m.states = names.states.map Prod.fst) {span : Span}
    (hx : genState x span c s = .done () code s') :
    ∃ k i place rest, m.states[k]? = some x ∧ code = .op (.setState i) place :: rest ∧
      i.toNat = min k 65535 := by
  obtain ⟨_, h2, rfl⟩ := rest_done rfl hx
  rw [hc, (namesOf_done h.named).2.2] at h2
  rw [states_lookup] at h2
  cases hk : script.states.findIdx? (·.name == x) with
  | none => rw [hk] at h2; cases h2
  | some k =>
    rw [hk] at h2
    obtain ⟨_, -, rfl⟩ := rest_done rfl h2
    refine ⟨k, _, _, _, ?_, rfl, (stateIndex_toNat).trans (by rw [Nat.zero_add])⟩
    obtain ⟨hlt, hname, -⟩ := findIdx?_eq_some_iff_getElem.1 hk
    rw [hstates, (namesOf_done h.named).2.2, getElem?_map, getElem?_map,
      getElem?_zipIdx, getElem?_eq_getElem hlt]
    exact congrArg some (eq_of_beq hname)

theorem call (hc : c.names = names) {span : Span}
    (hdecl : script.functions.find? (·.name == f) = some decl)
    (hx : genExpr (.call f args span) c s = .done ty code s') :
    ∃ i g before place after, code = before ++ .op (.call i) place :: after ∧
      m.function? i = some g ∧ Origin names b.state decl g := by
  obtain ⟨_, h2, rfl⟩ := rest_done rfl hx
  split at h2
  · cases h2
  cases hsig : c.names.functions.lookup f with
  | none =>
    rw [hc, (namesOf_done h.named).2.1] at hsig
    cases ((signatures_lookup (namesOf_signatures h.named)).2 hsig).symm.trans hdecl
  | some sig =>
    rw [hsig] at h2
    dsimp only at h2
    split at h2
    · cases h2
    obtain ⟨_, before, _, _, -, h3, rfl⟩ := bind_done h2
    obtain ⟨_, _, _, _, h4, h5, rfl⟩ := bind_done h3
    obtain ⟨_, _, _, _, h6, -, rfl⟩ := bind_done h5
    cases h4
    cases h6
    obtain ⟨decl', g, hdecl', -, -, -, hg, ho⟩ := h.signature (hc ▸ hsig)
    cases hdecl.symm.trans hdecl'
    exact ⟨sig.index, g, before, _, _, rfl, hg, ho⟩

/-- A function with more variables than there are slots is not compiled. -/
theorem frame (hf : f ∈ script.decls) :
    f.params.length + (Stmt.decls f.body.stmts).length ≤ 65535 := by
  obtain ⟨k, hk⟩ := getElem?_of_mem hf
  obtain ⟨g, hg⟩ : ∃ g, b.functions[k]? = some g := by
    refine ⟨_, getElem?_eq_getElem ?_⟩
    rw [← h.compiles.length_eq]
    exact (List.getElem?_eq_some_iff.1 hk).1
  obtain ⟨s, kind, name, -, he, -⟩ := forall₂_getElem? h.compiles hk hg
  rw [h.errors, suffix_nil] at he
  obtain ⟨ps, bs, s1, code, hframed⟩ := genFunction_framed (Prod.mk.eta.symm) he
  have hps : ps.length = f.params.length := by
    rw [← length_map, hframed.params.names, length_map]
  have hbs : bs.length = (Stmt.decls f.body.stmts).length := by
    rw [← length_map, hframed.vars.names, length_map]
  have hcount := (Grows.of_done hframed.done).localCount
  rw [← hframed.slots, hframed.count, hps, hbs] at hcount
  exact hcount.trans (Nat.le_of_lt_succ (UInt16.toNat_lt _))

end Assembled

end Compile

open Compile Gen

/-- Wherever code is generated for a script, with the names of the script and for a pool of constants
that becomes part of that of the module, indexes stand for what the source names: literals and named
constants for themselves, variables for those that names are bound to, functions for the code of
their declarations. The index of a state is its number, but at most 65535.

The variables of a function and of a block have new slots, in the order of their declarations, and
of those that are open no two have the same one. There are 65535 slots and no more. -/
theorem Module.indexes_denote {source name : String} {script : Script} {m : Module}
    (hs : Script.ofSource source = .ok script) (hm : Module.ofScript script source name = .ok m)
    {c : Context} (hc : c.names = (namesOf script source).1) {s s' : State} {code : Code}
    (hpool : s'.constants <+: m.constants.toList) :
    (∀ e v ty, e.literal? = some v → genExpr e c s = .done ty code s' →
      ∃ i, code = [.op (.pushConst i) s.place] ∧ m.constants[i.toNat]? = some v) ∧
    (∀ x span ty, genExpr (.name x span) c s = .done ty code s' →
      (∃ var, Binds m s x var ty ∧ code = [.op var.loadOp s.place]) ∨
      ∃ v i, Constant.ofName? x = some v ∧ code = [.op (.pushConst i) s.place] ∧
        m.constants[i.toNat]? = some v) ∧
    (∀ x span var ty, varOf x span c s = .done (var, ty) code s' → Binds m s x var ty) ∧
    (∀ f args span ty decl, script.functions.find? (·.name == f) = some decl →
      genExpr (.call f args span) c s = .done ty code s' →
      ∃ i g st before place after, code = before ++ .op (.call i) place :: after ∧
        m.function? i = some g ∧ Origin c.names st decl g) ∧
    (∀ x span, genStmt (.state x span) c s = .done () code s' →
      ∃ k i place rest, m.states[k]? = some x ∧ code = .op (.setState i) place :: rest ∧
        i.toNat = min k 65535) ∧
    (∀ f (st : State), declareFrame f c st.fresh = .done () code s' → s'.errors = [] →
      ∃ ps bs, Slotted 0 (f.params.map fun p => (p.name, p.ty)) ps ∧
        Slotted ps.length ((Stmt.decls f.body.stmts).map fun d => (d.name, d.ty)) bs ∧
        varsOf s'.scopes = bs.reverse ++ ps.reverse) ∧
    (∀ block ss scope, declareAll (.empty block) ss c s = .done scope code s' → s'.errors = [] →
      ∃ vars, Slotted s.localCount ((Stmt.decls ss).map fun d => (d.name, d.ty)) vars ∧
        varsOf (scope :: s'.scopes) = vars.reverse ++ varsOf s.scopes) ∧
    (Occurs c s → ∀ p ∈ varsOf s.scopes, ∀ q ∈ varsOf s.scopes, p.2.slot = q.2.slot → p = q) ∧
    (∀ f ∈ script.decls, f.params.length + (Stmt.decls f.body.stmts).length ≤ 65535) ∧
    ∀ span, 65535 ≤ s.localCount → newSlot span c s = .failed (semantic .tooManyLocals span) s := by
  obtain ⟨names, b, h⟩ := Module.ofScript_assembled hm (Script.ofSource_regular hs)
  replace hc : c.names = names := hc.trans (congrArg Prod.fst h.named)
  refine ⟨fun e v ty => literal_stored hpool, fun x span ty hx => ?_,
    fun x span var ty hx => ?_, fun f args span ty decl hdecl hx => ?_, fun x span hx => ?_,
    fun f st hdone he => ?_, fun block ss scope hdone he => ?_,
    fun hoccurs p hp q hq => hoccurs.slot_unique hp hq, fun f hf => ?_, fun span hfull => ?_⟩
  · obtain ⟨_, h2, rfl⟩ := rest_done rfl hx
    cases hmeaning : meaningOf? c s x with
    | none => rw [hmeaning] at h2; cases h2
    | some meaning =>
      rw [hmeaning] at h2
      cases meaning with
      | var var ty' =>
        obtain ⟨_, _, _, _, h3, h4, rfl⟩ := bind_done h2
        cases h4
        refine .inl ⟨var, h.meaning hc hmeaning, ?_⟩
        cases var <;> cases h3 <;> rfl
      | constant v =>
        obtain ⟨_, _, _, _, h3, h4, rfl⟩ := bind_done h2
        cases h4
        obtain ⟨i, rfl, hi⟩ := emitConstant_stored hpool h3
        exact .inr ⟨v, i, ofName?_of_meaning hmeaning, rfl, hi⟩
  · obtain ⟨_, h2, rfl⟩ := rest_done rfl hx
    cases hmeaning : meaningOf? c s x with
    | none => rw [hmeaning] at h2; cases h2
    | some meaning =>
      rw [hmeaning] at h2
      cases meaning with
      | var var ty' => cases h2; exact h.meaning hc hmeaning
      | constant v => cases h2
  · obtain ⟨i, g, before, place, after, hcode, hg, ho⟩ := h.call hc hdecl hx
    exact ⟨i, g, b.state, before, place, after, hcode, hg, hc ▸ ho⟩
  · obtain ⟨_, h2, rfl⟩ := rest_done rfl hx
    obtain ⟨names', _, _, _, hnames, -, -, -, -, -, -, -, -, hstates⟩ := Module.ofScript_ok hm
    obtain rfl : names' = names := congrArg Prod.fst (hnames.symm.trans h.named)
    exact h.state hc hstates h2
  · obtain ⟨ps, bs, hopened⟩ := declareFrame_done hdone he
    refine ⟨ps, bs, hopened.params, hopened.vars, ?_⟩
    rw [hopened.scopes, varsOf_extend _ rfl rfl, varsOf_extend _ rfl rfl]
    exact congrArg (_ ++ ·) (append_nil _)
  · obtain ⟨vars, hvars, -, rfl, rfl, rfl⟩ := declareAll_done hdone he
    exact ⟨vars, hvars, varsOf_extend _ rfl rfl _ _ _⟩
  · exact h.frame hf
  · rw [newSlot_eq]
    exact if_neg (Nat.not_lt.2 hfull)

def relay : String :=
  "integer laps = 7;
   integer twice(integer a) \x7b integer b = a + a; return b; \x7d
   default \x7b touch_start(integer n) \x7b integer x = twice(n); laps = x; state rest; \x7d \x7d
   state rest \x7b touch_start(integer n) \x7b \x7d \x7d"

/-- The action ends, and the constants that there are then are among those of the module. -/
def Compile.Outcome.fits (m : Module) : Outcome α → Bool
  | .done _ _ s => decide (s.constants <+: m.constants.toList)
  | .failed .. => false

theorem Compile.Outcome.done_of_fits {m : Module} {o : Outcome α} (h : o.fits m = true) :
    ∃ a code s, o = .done a code s ∧ s.constants <+: m.constants.toList := by
  cases o with
  | done a code s => exact ⟨a, code, s, rfl, of_decide_eq_true h⟩
  | failed e s => cases h

def Compile.Outcome.silent? : Outcome Unit → Option State
  | .done _ [] s => some s
  | _ => none

theorem Compile.Outcome.done_of_silent? {o : Outcome Unit} (h : o.silent? = some s) :
    o = .done () [] s := by
  cases o with
  | done _ code t => cases code <;> cases h; rfl
  | failed e t => cases h

def relayStart : State := ⟨[.integer 7], 9, [], ⟨1, 1⟩, 4, [], []⟩

set_option maxRecDepth 10000 in
set_option synthInstance.maxSize 2000 in
/-- The second function of the script has a parameter and a variable. After the declaration of the
variable it can be named, the other function can be called, and the state can be changed. -/
theorem relay_indexes : ∃ script m f stmt c s t, Script.ofSource relay = .ok script ∧
    Module.ofScript script relay "relay" = .ok m ∧ f ∈ script.decls ∧ stmt ∈ f.body.stmts ∧
    declareFrame f c relayStart.fresh = .done () [] s ∧ t = (genStmt stmt c s).state ∧
    varsOf t.scopes = [("x", ⟨1, .integer⟩), ("n", ⟨0, .integer⟩)] ∧
    (∀ p ∈ varsOf t.scopes, ∀ q ∈ varsOf t.scopes, p.2.slot = q.2.slot → p = q) ∧
    (∃ ty code s', genExpr (.name "x" ⟨0, 0⟩) c t = .done ty code s' ∧
      ((∃ var, Binds m t "x" var ty ∧ code = [.op var.loadOp t.place]) ∨
        ∃ v i, Constant.ofName? "x" = some v ∧ code = [.op (.pushConst i) t.place] ∧
          m.constants[i.toNat]? = some v)) ∧
    (∃ decl i g st before place after ty s', script.functions.find? (·.name == "twice") = some decl ∧
      genExpr (.call "twice" [.name "x" ⟨0, 0⟩] ⟨0, 0⟩) c t =
        .done ty (before ++ .op (.call i) place :: after) s' ∧
      m.function? i = some g ∧ Origin c.names st decl g) ∧
    ∃ k i place rest s', genStmt (.state "rest" ⟨0, 0⟩) c t =
        .done () (.op (.setState i) place :: rest) s' ∧
      m.states[k]? = some "rest" ∧ i.toNat = min k 65535 := by
  obtain ⟨script, m, _, hs, hm, -, f, hf, stmt, hstmt, decl, hdecl, c, hc, s, hframe, _, ⟨⟩, he,
    hvars, hx, hcall, hstate⟩ : Script.Sample relay "relay" 100 fun script m _ =>
      ∃ f ∈ script.decls[1]?, ∃ stmt ∈ f.body.stmts.head?,
      ∃ decl ∈ script.functions.find? (·.name == "twice"),
      ∃ c ∈ some (⟨(namesOf script relay).1, .void, 0, [], none⟩ : Context),
      ∃ s ∈ (declareFrame f c relayStart.fresh).silent?, ∃ t ∈ some (genStmt stmt c s).state,
        s.errors = [] ∧ varsOf t.scopes = [("x", ⟨1, .integer⟩), ("n", ⟨0, .integer⟩)] ∧
        (genExpr (.name "x" ⟨0, 0⟩) c t).fits m ∧
        (genExpr (.call "twice" [.name "x" ⟨0, 0⟩] ⟨0, 0⟩) c t).fits m ∧
        (genStmt (.state "rest" ⟨0, 0⟩) c t).fits m :=
    .of_test _ fun _ _ _ _ _ _ h => h
  rw [Module.ofSource, hs] at hm
  replace hc : c.names = (namesOf script relay).1 := by cases hc; rfl
  replace hframe := Outcome.done_of_silent? hframe
  obtain ⟨ty, code, s1, hx, hpool1⟩ := Outcome.done_of_fits hx
  obtain ⟨ty2, code2, s2, hcall, hpool2⟩ := Outcome.done_of_fits hcall
  obtain ⟨_, code3, s3, hstate, hpool3⟩ := Outcome.done_of_fits hstate
  have hoccurs : Occurs c (genStmt stmt c s).state := .stmt stmt (.frame hframe he)
  obtain ⟨-, hname, -, -, -, -, -, hunique, -⟩ := Module.indexes_denote hs hm hc hpool1
  obtain ⟨-, -, -, hcalls, -⟩ := Module.indexes_denote hs hm hc hpool2
  obtain ⟨-, -, -, -, hstates, -⟩ := Module.indexes_denote hs hm hc hpool3
  obtain ⟨i, g, st, before, place, after, rfl, hg, ho⟩ := hcalls _ _ _ _ _ hdecl hcall
  obtain ⟨k, j, place', rest, hk, rfl, hj⟩ := hstates _ _ hstate
  exact ⟨script, m, f, stmt, c, s, _, hs, hm, mem_of_getElem? hf, mem_of_mem_head? hstmt, hframe,
    rfl, hvars, hunique hoccurs, ⟨ty, code, s1, hx, hname _ _ _ hx⟩,
    ⟨decl, i, g, st, before, place, after, ty2, s2, hdecl, hcall, hg, ho⟩,
    k, j, place', rest, s3, hstate, hk, hj⟩

end EventScript
