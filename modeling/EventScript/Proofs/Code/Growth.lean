import EventScript.Compile
import EventScript.Proofs.Syntax

/-!
# Generation only adds

Actions that generate code never take back an error, a constant, a label or a slot, whether they
end or fail (`Gen.Grows`). So what is known at the end about these is known all along. Those that
declare nothing and take no slot leave all else as it is (`Gen.Quiet`).
-/

namespace EventScript.Compile

open List hiding span

-- instances follow the binds of an action, of which there can be many
set_option synthInstance.maxSize 1000

structure State.Le (s s' : State) : Prop where
  errors : s.errors <:+ s'.errors
  constants : s.constants <+: s'.constants
  marks : s.marks <:+ s'.marks
  localCount : s.localCount ≤ s'.localCount
  /-- The slots still have numbers. -/
  bounded : s.localCount ≤ Gen.maxLocals → s'.localCount ≤ Gen.maxLocals
  /-- A label still has one place. -/
  distinct : (s.marks.map Prod.fst).Nodup → (s'.marks.map Prod.fst).Nodup
  pc : s.pc ≤ s'.pc
  /-- New labels come after the code that is there. -/
  placed : ∀ p ∈ s'.marks, p ∈ s.marks ∨ s.pc ≤ p.2

namespace State.Le

@[refl] theorem refl (s : State) : s.Le s :=
  ⟨suffix_rfl, prefix_rfl, suffix_rfl, le_rfl, id, id, le_rfl,
    fun _ => .inl⟩

@[trans] theorem trans {s s' s'' : State} (h : s.Le s') (h' : s'.Le s'') : s.Le s'' :=
  ⟨h.errors.trans h'.errors, h.constants.trans h'.constants, h.marks.trans h'.marks,
    h.localCount.trans h'.localCount, h'.bounded ∘ h.bounded, h'.distinct ∘ h.distinct,
    h.pc.trans h'.pc,
    fun p hp => (h'.placed p hp).elim (h.placed p) fun hpc => .inr (h.pc.trans hpc)⟩

theorem of_eq {s s' : State} (he : s.errors = s'.errors) (hc : s.constants = s'.constants)
    (hm : s.marks = s'.marks) (hl : s.localCount = s'.localCount) (hpc : s.pc ≤ s'.pc) : s.Le s' :=
  ⟨he ▸ suffix_rfl, hc ▸ prefix_rfl, hm ▸ suffix_rfl, hl ▸ le_rfl, hl ▸ id,
    hm ▸ id, hpc, fun _ hp => .inl (hm ▸ hp)⟩

/-- Nothing has been recorded if nothing is recorded at the end. -/
theorem errors_eq_nil {s s' : State} (h : s.Le s') (he : s'.errors = []) : s.errors = [] :=
  suffix_nil.1 (he ▸ h.errors)

end State.Le

instance : Std.Refl State.Le := ⟨.refl⟩

instance : Trans State.Le State.Le State.Le := ⟨.trans⟩

/-- The two states differ in the constants, the place in the source and the length of the code. -/
def State.Calm (s s' : State) : Prop :=
  ∃ constants place pc, s.constants <+: constants ∧ s.pc ≤ pc ∧ s' = { s with constants, place, pc }

instance : Std.Refl State.Calm := ⟨fun _ => ⟨_, _, _, prefix_rfl, le_rfl, rfl⟩⟩

instance : Trans State.Calm State.Calm State.Calm where
  trans := by
    rintro _ _ _ ⟨_, _, _, hc, hpc, rfl⟩ ⟨_, _, _, hc', hpc', rfl⟩
    exact ⟨_, _, _, hc.trans hc', hpc.trans hpc', rfl⟩

def Outcome.state {α : Type} : Outcome α → State
  | .done _ _ s => s
  | .failed _ s => s

namespace Gen

variable {α β : Type}

/-- The state after the action is related to the state before it. -/
class Keeps (R : State → State → Prop) (x : Gen α) : Prop where
  le (c : Context) (s : State) : R s (x c s).state

abbrev Grows (x : Gen α) : Prop := Keeps State.Le x

theorem Keeps.of_done [hx : Keeps R x] (h : x c s = .done a code s') : R s s' := by
  have hle := hx.le c s
  rwa [h] at hle

theorem Grows.of_done [Grows x] (h : x c s = .done a code s') : s.Le s' := Keeps.of_done h

/-- The action changes nothing but the constants, the place in the source and the length of the
code. -/
abbrev Quiet (x : Gen α) : Prop := Keeps State.Calm x

/-- The relation holds whatever the parts of an action do: for what is calm, for an error that is
recorded, for a new slot and for code that is lost. -/
class Lasting (R : State → State → Prop) : Prop where
  calm : s.Calm s' → R s s'
  record (s : State) (d : Diagnostic) : R s { s with errors := d :: s.errors }
  slot (s : State) : s.localCount < maxLocals → R s { s with localCount := s.localCount + 1 }
  lost : R s s' → R s { s' with pc := s.pc }

instance : Lasting State.Le where
  calm := by
    rintro s _ ⟨_, _, _, hconstants, hpc, rfl⟩
    exact ⟨suffix_rfl, hconstants, suffix_rfl, le_rfl, id, id, hpc, fun _ => .inl⟩
  record _ _ := ⟨suffix_cons _ _, prefix_rfl, suffix_rfl, le_rfl, id, id, le_rfl, fun _ => .inl⟩
  slot _ hlt := ⟨suffix_rfl, prefix_rfl, suffix_rfl, Nat.le_succ _, fun _ => hlt, id, le_rfl,
    fun _ => .inl⟩
  lost h := { h with pc := le_rfl }

instance (priority := low) Quiet.keeps [Lasting R] [hx : Quiet x] : Keeps R x :=
  ⟨fun c s => Lasting.calm (hx.le c s)⟩

/-! ## Combinators -/

theorem keeps_of_eq [Std.Refl R] {x : Gen α} (h : ∀ c s, (x c s).state = s) : Keeps R x :=
  ⟨fun c s => (h c s).symm ▸ Std.Refl.refl s⟩

instance [Std.Refl R] : Keeps R (pure a : Gen α) := keeps_of_eq fun _ _ => rfl

instance : Quiet (fail e span : Gen α) := keeps_of_eq fun _ _ => rfl

instance : Quiet context := keeps_of_eq fun _ _ => rfl

instance : Quiet state := keeps_of_eq fun _ _ => rfl

instance : Quiet (emit op) :=
  ⟨fun _ _ => ⟨_, _, _, prefix_rfl, Nat.le_succ _, rfl⟩⟩

instance : Quiet (emitJumpTo label) :=
  ⟨fun _ _ => ⟨_, _, _, prefix_rfl, Nat.le_succ _, rfl⟩⟩

instance : Quiet reserve := ⟨fun _ _ => ⟨_, _, _, prefix_rfl, Nat.le_succ _, rfl⟩⟩

instance : Quiet (fill code) := keeps_of_eq fun _ _ => rfl

instance [Lasting R] : Keeps R (record d) := ⟨fun _ s => Lasting.record s d⟩

theorem Keeps.bind [Trans R R R] [hx : Keeps R x] (hf : ∀ a, Keeps R (f a)) :
    Keeps R (x >>= f) := by
  refine ⟨fun c s => ?_⟩
  show R s (Gen.bind x f c s).state
  have hle := hx.le c s
  unfold Gen.bind
  cases hxs : x c s with
  | failed e s1 => rwa [hxs] at hle
  | done a code s1 =>
    rw [hxs] at hle
    have hle' := (hf a).le c s1
    dsimp only
    cases hfs : f a c s1 with
    | failed e s2 | done b rest s2 =>
      rw [hfs] at hle'
      exact Trans.trans hle hle'

instance [Trans R R R] [Keeps R x] [∀ a, Keeps R (f a)] : Keeps R (x >>= f) := .bind inferInstance

instance [Lasting R] [hx : Keeps R x] : Keeps R (attempt x) := by
  refine ⟨fun c s => ?_⟩
  have hle := hx.le c s
  unfold attempt
  cases hxs : x c s with
  | failed e s1 => rw [hxs] at hle; exact Lasting.lost hle
  | done a code s1 => rwa [hxs] at hle

instance [hx : Keeps R x] : Keeps R (capture x) := by
  refine ⟨fun c s => ?_⟩
  have hle := hx.le c s
  unfold capture
  cases hxs : x c s with
  | failed e s1 | done a code s1 => rwa [hxs] at hle

instance [Std.Refl R] (r : Except Diagnostic α) : Keeps R (ofExcept r) := by
  cases r with
  | error e => exact keeps_of_eq fun _ _ => rfl
  | ok a => exact inferInstanceAs (Keeps R (pure a : Gen α))

instance [Decidable p] [Keeps R x] [Keeps R y] : Keeps R (if p then x else y) := by
  split <;> infer_instance

theorem keeps_forM [Std.Refl R] [Trans R R R] (f : γ → Gen Unit) [∀ a, Keeps R (f a)] :
    ∀ as : List γ, Keeps R (as.forM f)
  | [] => inferInstanceAs (Keeps R (pure () : Gen Unit))
  | a :: as => (Keeps.bind fun _ => keeps_forM f as : Keeps R (f a >>= fun _ => as.forM f))

instance [Std.Refl R] [Trans R R R] {f : γ → Gen Unit} [∀ a, Keeps R (f a)] {as : List γ} :
    Keeps R (as.forM f) :=
  keeps_forM f as

instance : Quiet here := by unfold here; infer_instance

instance [Quiet body] : Quiet (skipping jump body) := by
  unfold skipping; infer_instance

section

variable {R : State → State → Prop} [Std.Refl R] [Trans R R R] [Lasting R]

instance [Keeps R x] : Keeps R (report x) := by
  refine .bind fun r => ?_
  cases r <;> infer_instance

instance skipping_keeps [Keeps R body] : Keeps R (skipping jump body) := by
  unfold skipping; infer_instance

instance [Keeps R first] [Keeps R second] : Keeps R (choosing jump first second) := by
  unfold choosing; infer_instance

/-! ## Parts of expressions -/

theorem grows_modify (h : ∀ s : State, s.Le (f s)) : Grows (modify f) :=
  ⟨fun _ s => h s⟩

instance : Quiet (setPlace span) := by
  unfold setPlace
  have : ∀ place, Quiet (modify fun s => { s with place }) := fun _ =>
    ⟨fun _ _ => ⟨_, _, _, prefix_rfl, le_rfl, rfl⟩⟩
  infer_instance

instance : Quiet (constantIndex v span) := by
  have : Quiet (modify fun s => { s with constants := s.constants ++ [v] }) :=
    ⟨fun _ _ => ⟨_, _, _, prefix_append _ _, le_rfl, rfl⟩⟩
  refine .bind fun s => ?_
  dsimp only
  split <;> infer_instance

instance : Quiet (emitConstant v span) := by
  unfold emitConstant; infer_instance

theorem newSlot_eq (span : Span) (c : Context) (s : State) : newSlot span c s =
      if s.localCount < maxLocals then
        .done (UInt16.ofNat s.localCount) [] { s with localCount := s.localCount + 1 }
      else .failed { cause := .semantic .tooManyLocals, span } s := by
  unfold newSlot
  show Gen.bind state _ c s = _
  unfold Gen.bind
  dsimp only [state]
  by_cases h : s.localCount < maxLocals
  · rw [if_pos h, if_pos h]; rfl
  · rw [if_neg h, if_neg h]; rfl

instance : Keeps R (newSlot span) := by
  refine ⟨fun c s => ?_⟩
  rw [newSlot_eq]
  split
  · exact Lasting.slot s ‹_›
  · exact Std.Refl.refl s

instance : Quiet (coerce source target explicit span) := by
  unfold coerce; infer_instance

instance : Quiet (load var) := by cases var <;> exact inferInstanceAs (Quiet (emit _))

instance : Quiet (storeOnly var) := by
  cases var <;> exact inferInstanceAs (Quiet (emit _))

instance : Quiet (store var ty) := by unfold store; infer_instance

instance : Quiet (meaning? name) := by unfold meaning?; infer_instance

instance : Quiet (varOf name span) := by
  refine .bind fun m => ?_
  split <;> infer_instance

instance (slots : List UInt16) : Quiet (releaseSlots slots) := by
  unfold releaseSlots; infer_instance

instance : Quiet (leaveScope scope) := by unfold leaveScope; infer_instance

instance : Quiet leaveFrame := by unfold leaveFrame; infer_instance

instance : Quiet returnDefault := by unfold returnDefault; infer_instance

end

end Gen

open Gen

variable {R : State → State → Prop} [Std.Refl R] [Trans R R R] [Lasting R]

instance : Quiet (componentOf ty field span) := by
  unfold componentOf; split <;> infer_instance

instance : Quiet (genBinary left op right compound span) := by
  unfold genBinary; split <;> infer_instance

instance : Quiet (genUnary op ty span) := by
  unfold genUnary; split <;> infer_instance

instance : Quiet (genField ty field span) := by
  unfold genField; infer_instance

instance : Quiet (genArrayKey ty span) := by
  unfold genArrayKey; split <;> infer_instance

instance : Quiet (genListItem ty span) := by
  unfold genListItem; split <;> infer_instance

instance : Quiet (genElement ty span) := by
  unfold genElement; split <;> infer_instance

instance : Quiet (methodOf ty method span) := by
  unfold methodOf; infer_instance

instance : Quiet (genName name span) := by
  refine .bind fun m => ?_
  split <;> infer_instance

instance : Quiet (genCall sig span) := by
  unfold genCall; infer_instance

instance : Quiet (genApiCall index f span) := by
  unfold genApiCall; split <;> infer_instance

instance : Quiet (genStore var ty) := by unfold genStore; infer_instance

instance : Keeps R (genComponentStore var ty c span) := by
  unfold genComponentStore; infer_instance

instance : Quiet (genBump target up before span) := by
  unfold genBump
  split
  · refine .bind fun v => ?_
    dsimp only
    split <;> infer_instance
  · infer_instance

/-! ## Expressions -/

theorem genAssign_keeps [Keeps R value] (valueSpan span : Span)
    (hkey : ∀ array key keySpan, target = .index array key keySpan → Keeps R (genExpr key)) :
    Keeps R (genAssign op target value valueSpan span) := by
  unfold genAssign
  split
  · refine .bind fun v => ?_
    cases op <;> infer_instance
  · refine .bind fun v => ?_
    refine .bind fun c => ?_
    cases op <;> infer_instance
  · infer_instance
  · have := hkey _ _ _ rfl
    refine .bind fun v => ?_
    dsimp only
    split
    · infer_instance
    · cases op <;> infer_instance
  · infer_instance
  · infer_instance

theorem genItems_keeps (h : ∀ e ∈ es, Keeps R (genExpr e)) : Keeps R (genItems es) := by
  induction es with
  | nil => unfold genItems; infer_instance
  | cons e es ih =>
    have := h e mem_cons_self
    have := ih (forall_mem_cons.1 h).2
    unfold genItems; infer_instance

theorem genArgs_keeps (h : ∀ e ∈ es, Keeps R (genExpr e)) (name : String)
    (number : Nat) (params : List Ty) : Keeps R (genArgs name number params es) := by
  induction es generalizing number params with
  | nil => cases params <;> (unfold genArgs; infer_instance)
  | cons e es ih =>
    cases params with
    | nil => unfold genArgs; infer_instance
    | cons param params =>
      have := h e mem_cons_self
      have := ih (forall_mem_cons.1 h).2 (number + 1) params
      unfold genArgs; infer_instance

instance genExpr_keeps : Keeps R (genExpr e) := by
  induction e using Expr.induct with
  | integer _ _ | float _ _ | string _ _ | name _ _ | undefined _ | vector x y z span hx hy hz
  | rotation x y z s span hx hy hz hs | cast ty operand span ih | binary op left right span hl hr
  | unary op operand span ih | bump target up before span | field object field span ih
  | index array key span ha hk | isType operand ty span ih => unfold genExpr; infer_instance
  | list items span ih =>
    have := genItems_keeps ih
    refine .bind fun _ => ?_
    split <;> infer_instance
  | call name args span ih =>
    have := genArgs_keeps ih
    refine .bind fun c => ?_
    split
    · infer_instance
    split
    · infer_instance
    · split <;> infer_instance
  | assign op target value span ih hkey =>
    exact genAssign_keeps _ _ hkey
  | method object method args span ho ha =>
    unfold genExpr
    refine .bind fun ty => ?_
    refine .bind fun op => ?_
    split
    · have := ha _ mem_cons_self
      infer_instance
    · infer_instance

/-! ## Statements -/

instance : Keeps R (addVar scope known visible name ty span) := by
  unfold addVar
  split
  · infer_instance
  · refine .bind fun r => ?_
    cases r <;> infer_instance

instance declareAll_keeps (scope : Scope) (ss : List Stmt) : Keeps R (declareAll scope ss) := by
  induction ss generalizing scope with
  | nil => unfold declareAll; infer_instance
  | cons s ss ih =>
    unfold declareAll
    split
    · infer_instance
    · rename_i h; cases h; infer_instance
    · rename_i h; cases h; exact ih scope

instance (vars : List LocalVar) : Keeps R (initVars vars) := by unfold initVars; infer_instance

instance : Grows (pushScope scope) :=
  grows_modify fun _ => .of_eq rfl rfl rfl rfl le_rfl

instance : Grows popScope := grows_modify fun _ => .of_eq rfl rfl rfl rfl le_rfl

instance : Keeps R (genDiscard e) := by unfold genDiscard; infer_instance

instance (es : List Expr) : Keeps R (genSteps es) := by unfold genSteps; infer_instance

instance : Keeps R (genCond e) := by unfold genCond; infer_instance

instance : Keeps R (genInitial e ty) := by unfold genInitial; infer_instance

instance : Keeps R (genDeclValue d v) := by
  unfold genDeclValue
  split <;> split <;> infer_instance

instance : Grows (reveal name v) := by
  refine grows_modify fun s => ?_
  split
  · exact .refl s
  · exact .of_eq rfl rfl rfl rfl le_rfl

instance : Grows (takePending? name) := by
  refine .bind fun s => ?_
  split
  · infer_instance
  have : ∀ scopes, Grows (modify fun s => { s with scopes }) := fun _ =>
    grows_modify fun _ => .of_eq rfl rfl rfl rfl le_rfl
  infer_instance

instance (d : VarDecl) : Grows (genDecl d) := by
  refine .bind fun v => ?_
  split <;> infer_instance

instance (label : String) (span : Span) : Keeps R (genJump label span) := by
  refine .bind fun c => ?_
  split <;> infer_instance

theorem genLabel_eq : genLabel label c s =
      if (s.marks.lookup label).isSome then .done () [] s
      else if c.labels.any fun l => l.name == label && l.checkpoint then
        .done () [.op .checkRun s.place] { s with marks := (label, s.pc) :: s.marks, pc := s.pc + 1 }
      else .done () [] { s with marks := (label, s.pc) :: s.marks } := by
  unfold genLabel
  show Gen.bind state _ c s = _
  unfold Gen.bind
  dsimp only [state]
  by_cases hs : (s.marks.lookup label).isSome
  · rw [if_pos hs, if_pos hs]
    rfl
  · rw [if_neg hs, if_neg hs]
    by_cases hc : c.labels.any fun l => l.name == label && l.checkpoint
    · rw [if_pos hc]
      simp only [bind, Gen.bind, Gen.modify, context, hc, if_true, emit, nil_append]
    · rw [if_neg hc]
      simp only [bind, Gen.bind, Gen.modify, context, hc, Bool.false_eq_true, if_false, pure, Gen.pure,
        nil_append]

instance : Grows (genLabel label) := by
  refine ⟨fun c s => ?_⟩
  rw [genLabel_eq]
  split
  · exact .refl s
  rename_i hs
  have hnew : (s.marks.map Prod.fst).Nodup → (((label, s.pc) :: s.marks).map Prod.fst).Nodup := by
    refine fun hn => nodup_cons.2 ⟨fun hmem => ?_, hn⟩
    obtain ⟨p, hp, heq⟩ := mem_map.1 hmem
    have hnone : s.marks.lookup label = none := Option.not_isSome_iff_eq_none.1 hs
    exact bne_iff_ne.1 (lookup_eq_none_iff.1 hnone p hp) heq.symm
  have hplaced : ∀ p ∈ (label, s.pc) :: s.marks, p ∈ s.marks ∨ s.pc ≤ p.2 := by
    intro p hp
    rcases mem_cons.1 hp with rfl | hp
    · exact .inr le_rfl
    · exact .inl hp
  split
  · exact ⟨suffix_rfl, prefix_rfl, suffix_cons _ _, le_rfl, id, hnew, Nat.le_succ _, hplaced⟩
  · exact ⟨suffix_rfl, prefix_rfl, suffix_cons _ _, le_rfl, id, hnew, le_rfl, hplaced⟩

instance : Keeps R (genReturn value span) := by
  refine .bind fun c => ?_
  cases value <;> infer_instance

instance : Keeps R (genState name span) := by
  refine .bind fun c => ?_
  split <;> infer_instance

instance : Keeps R (loopVar name) := by
  unfold loopVar; split <;> infer_instance

instance : Keeps R (checkLoopVar name var) := by
  unfold checkLoopVar; split <;> infer_instance

instance : Keeps R (genLoopVar array index fetch var) := by
  unfold genLoopVar; split <;> infer_instance

instance [Keeps R body] : Keeps R (genForeach key value array body span) := by
  refine .bind fun ty => ?_
  split
  · infer_instance
  have turn : ∀ (copy index : UInt16) (top : UInt32) (k v : Option (VarRef × Ty)), Keeps R (do
      genLoopVar copy index .arrayKey k
      genLoopVar copy index .arrayValue v
      report body
      emitConstant (.integer 1) span
      emit (.loadLocal index)
      emit (.binary .intAdd)
      emit (.storeLocal index)
      emit (.jump top)) := fun _ _ _ _ _ => by
    iterate 4 refine .bind fun _ => ?_
    infer_instance
  iterate 15 refine .bind fun _ => ?_
  have := turn
  infer_instance

theorem genStmts_keeps (h : ∀ s ∈ ss, Keeps R (genStmt s)) : Keeps R (genStmts ss) := by
  induction ss with
  | nil => unfold genStmts; infer_instance
  | cons s ss ih =>
    have := h s mem_cons_self
    have := ih (forall_mem_cons.1 h).2
    unfold genStmts; infer_instance

instance genStmt_grows (s : Stmt) : Grows (genStmt s) := by
  induction s using Stmt.induct with
  | block id stmts span ih =>
    have := genStmts_keeps ih
    unfold genStmt; infer_instance
  | forDo init cond step body span ih =>
    unfold genStmt
    cases cond <;> infer_instance
  | _ => unfold genStmt; infer_instance

instance (ss : List Stmt) : Grows (genStmts ss) := genStmts_keeps fun s _ => genStmt_grows s

/-! ## Functions -/

instance declareParams_keeps : Keeps R (declareParams scope ps) := by
  induction ps generalizing scope with
  | nil | cons p ps ih => unfold declareParams; infer_instance

instance (f : FuncDecl) : Grows (declareFrame f) := by
  unfold declareFrame
  have : ∀ scopes, Grows (modify fun s => { s with scopes }) := fun _ =>
    grows_modify fun _ => .of_eq rfl rfl rfl rfl le_rfl
  infer_instance

instance : Grows (genFrame f) := by unfold genFrame; infer_instance

instance : Grows (genFirst d) := by
  unfold genFirst
  cases d.init <;> infer_instance

instance : Grows (genGlobal d index) := by
  unfold genGlobal
  infer_instance

end EventScript.Compile
