import EventScript.Proofs.Code.Expressions

/-!
# The code of statements is structured

`genStmt_builds`: whenever the code of a statement is generated and nothing is recorded, it is
structured code, with the blocks and the labels of the statement.

1. The scopes of blocks and parameters (`declareAll_done`, `declareParams_done`): variables get the
   next slots, and those of a block wait for their declaration.
2. `Builds`: an action whose code is structured. As in the module on expressions the rules follow
   the way actions are put together.
3. The statements of a block (`genStmts_built`), where each declaration finds its variable, and all
   statements, by induction.
-/

namespace EventScript.Compile

open List hiding span

open Gen

set_option synthInstance.maxSize 1000

/-! ## Variables of a block -/

/-- A scope with more variables, of which the last declared is the last in the list. -/
def Scope.extend (scope : Scope) (visible : Bool) (vars : List (String × LocalVar)) : Scope :=
  { scope with
    visible := if visible then vars.reverse ++ scope.visible else scope.visible
    pending := if visible then scope.pending else vars.reverse ++ scope.pending
    owned := scope.owned ++ vars.map Prod.snd
    staticSize := (vars.map Prod.snd).foldl (fun n v => n + v.ty.staticSize) scope.staticSize }

/-- Variables of the given names and types with the slots from a number on. -/
structure Slotted (n : Nat) (names : List (String × Ty)) (vars : List (String × LocalVar)) :
    Prop where
  names : vars.map (fun v => (v.1, v.2.ty)) = names
  slots : vars.map (fun v => v.2.slot.toNat) = range' n vars.length
  nodup : (vars.map Prod.fst).Nodup

theorem addVar_done (h : addVar scope known visible name ty span c s = .done scope' code s')
    (he : s'.errors = []) :
    name ∉ known.map Prod.fst ∧ ∃ v : LocalVar, v.ty = ty ∧ v.slot.toNat = s.localCount ∧
      code = [] ∧ s' = { s with localCount := s.localCount + 1 } ∧
      scope' = scope.extend visible [(name, v)] := by
  unfold addVar at h
  split at h
  · obtain ⟨_, h2, rfl⟩ := rest_done rfl h
    cases h2
    cases he
  · rename_i hknown
    obtain ⟨r, _, s1, _, h1, h2, rfl⟩ := bind_done h
    unfold attempt at h1
    rw [newSlot_eq] at h1
    by_cases hlt : s.localCount < maxLocals
    · rw [if_pos hlt] at h1
      cases h1
      have hslot := UInt16.toNat_ofNat_of_lt' (Nat.lt_trans hlt (by decide))
      refine ⟨fun hmem => hknown ?_, ⟨UInt16.ofNat s.localCount, ty⟩, rfl, hslot, ?_⟩
      · obtain ⟨p, hp, rfl⟩ := mem_map.1 hmem
        exact any_eq_true.2 ⟨p, hp, beq_self_eq_true _⟩
      · cases visible <;> cases h2 <;> exact ⟨rfl, rfl, rfl⟩
    · rw [if_neg hlt] at h1
      cases h1
      obtain ⟨_, h4, rfl⟩ := rest_done rfl h2
      cases h4
      cases he

theorem Scope.extend_nil (scope : Scope) (visible : Bool) : scope.extend visible [] = scope := by
  cases visible <;> simp [Scope.extend]

theorem Scope.extend_cons (scope : Scope) (visible : Bool) (v : String × LocalVar)
    (vars : List (String × LocalVar)) :
    (scope.extend visible [v]).extend visible vars = scope.extend visible (v :: vars) := by
  cases visible <;> simp [Scope.extend]

theorem Slotted.nil (n : Nat) : Slotted n [] [] := ⟨rfl, rfl, nodup_nil⟩

theorem Slotted.cons {names : List (String × Ty)} (h : Slotted (n + 1) names vars)
    (hslot : v.slot.toNat = n)
    (hname : name ∉ vars.map Prod.fst) : Slotted n ((name, v.ty) :: names) ((name, v) :: vars) where
  names := by rw [map_cons, h.names]
  slots := by rw [map_cons, h.slots, hslot, length_cons, range'_succ]
  nodup := nodup_cons.2 ⟨hname, h.nodup⟩

/-- Declarations have become variables with new slots, and their names are new in the scope. -/
def Declares (visible : Bool) (scope : Scope) (s : State) (ds : List (String × Ty)) (scope' : Scope)
    (code : Code) (s' : State) : Prop :=
  ∃ vars, Slotted s.localCount ds vars ∧
    (∀ v ∈ vars, v.1 ∉ (if visible then scope.visible else scope.pending).map Prod.fst) ∧
    code = [] ∧ s' = { s with localCount := s.localCount + vars.length } ∧
    scope' = scope.extend visible vars

theorem Declares.nil : Declares visible scope s [] scope [] s :=
  ⟨[], .nil _, nofun, rfl, rfl, (Scope.extend_nil _ _).symm⟩

theorem Declares.cons
    (h : addVar scope (if visible then scope.visible else scope.pending) visible name ty span c s =
      .done scope₁ code1 s1) (he : s1.errors = [])
    (h' : Declares visible scope₁ s1 ds scope' code s') :
    Declares visible scope s ((name, ty) :: ds) scope' (code1 ++ code) s' := by
  obtain ⟨hname, v, rfl, hslot, rfl, rfl, rfl⟩ := addVar_done h he
  obtain ⟨vars, hvars, hnew, rfl, rfl, rfl⟩ := h'
  have hknown : (if visible then (scope.extend visible [(name, v)]).visible else
      (scope.extend visible [(name, v)]).pending) =
        (name, v) :: if visible then scope.visible else scope.pending := by cases visible <;> rfl
  rw [hknown] at hnew
  refine ⟨(name, v) :: vars, hvars.cons hslot fun hmem => ?_, fun w hw => ?_, rfl, ?_,
    scope.extend_cons visible _ vars⟩
  · obtain ⟨w, hw, heq⟩ := mem_map.1 hmem
    exact hnew w hw (heq ▸ mem_cons_self)
  · rcases mem_cons.1 hw with rfl | hw
    · exact hname
    · exact fun hmem => hnew w hw (mem_cons_of_mem _ hmem)
  · rw [length_cons, Nat.add_right_comm]; rfl

theorem declareAll_done (h : declareAll scope ss c s = .done scope' code s') (he : s'.errors = []) :
    Declares false scope s ((Stmt.decls ss).map fun d => (d.name, d.ty)) scope' code s' := by
  induction ss generalizing scope s code with
  | nil =>
    cases h
    exact .nil
  | cons stmt ss ih =>
    cases stmt with
    | decl d =>
      obtain ⟨scope1, _, s1, _, h1, h2, rfl⟩ := bind_done h
      exact .cons h1 ((Grows.of_done h2).errors_eq_nil he) (ih h2)
    | _ => unfold declareAll at h; exact ih h

theorem declareParams_done
    (h : declareParams scope ps c s = .done scope' code s') (he : s'.errors = []) :
    Declares true scope s (ps.map fun p => (p.name, p.ty)) scope' code s' := by
  induction ps generalizing scope s code with
  | nil =>
    cases h
    exact .nil
  | cons p ps ih =>
    obtain ⟨scope1, _, s1, _, h1, h2, rfl⟩ := bind_done h
    exact .cons h1 ((Grows.of_done h2).errors_eq_nil he) (ih h2)

/-! ## Actions with structured code -/

/-- What is known about the labels of a function in the end. -/
structure Placed (Γ : Linkage) (is : Expr → Prop) (Λ : Labels) (marks : List (String × Nat))
    (c : Context) : Prop where
  describes : Describes Γ is c
  blockOf : ∀ name, Λ.blockOf name = (c.labels.find? (·.name == name)).map Label.block
  mark : ∀ name, Λ.mark name = marks.lookup name
  checked : ∀ name, Λ.checked name = c.labels.any fun l => l.name == name && l.checkpoint

/-- An action ends without an error, and what it adds is there in the end. Its labels are new, and
those that a later jump goes back to have a checkpoint. -/
structure Completes (Γ : Linkage) (Λ : Labels) (marks : List (String × Nat)) (s : State)
    (code : Code) (s' : State) (mentions : List (String × Option Nat)) : Prop where
  constants : s'.constants <+: Γ.constants
  slots : s'.localCount ≤ Γ.slots
  errors : s'.errors = []
  near : ∀ i ∈ code, tooFar marks i = false
  marked : ∀ p ∈ s'.marks, Λ.mark p.1 = some p.2
  nodup : ((Stmt.labelled mentions).map Prod.fst).Nodup
  new : ∀ p ∈ Stmt.labelled mentions, p.1 ∉ s.marks.map Prod.fst
  blocks : ∀ p ∈ Stmt.labelled mentions, Λ.blockOf p.1 = some p.2
  later : ∀ name place, Λ.mark name = some place → name ∈ s'.marks.map Prod.fst ∨ s'.pc ≤ place
  ordered : ∀ ms name ns, mentions = ms ++ (name, none) :: ns →
    (name ∈ s.marks.map Prod.fst ∨ name ∈ (Stmt.labelled ms).map Prod.fst) → Λ.checked name = true

/-- An action has generated structured code with the given labels and blocks. -/
structure Built (Γ : Linkage) (Λ : Labels) (marks : List (String × Nat)) (χ : Chain)
    (fresh : List LocalVar) (s : State) (code : Code) (fresh' : List LocalVar) (s' : State)
    (mentions : List (String × Option Nat)) (blocks : List (Nat × List Ty)) (o : List Extent)
    (l : List Site) : Prop where
  structured : Structured Γ Λ χ fresh s.pc (opsOf marks code) fresh' o l
  slots : s.localCount ≤ s'.localCount
  pc : s'.pc = s.pc + code.length
  marks : s'.marks = (l.map Site.mark).reverse ++ s.marks
  sites : l.map Site.name = (Stmt.labelled mentions).map Prod.fst
  extents : o.map Extent.shape = blocks

def Builds (Γ : Linkage) (Λ : Labels) (marks : List (String × Nat)) (c : Context) (χ : Chain)
    (x : Gen Unit) (mentions : List (String × Option Nat)) (blocks : List (Nat × List Ty)) : Prop :=
  ∀ ⦃s code s'⦄, x c s = .done () code s' → Scoped Γ χ [] s.scopes s.localCount →
    Completes Γ Λ marks s code s' mentions →
    s'.scopes = s.scopes ∧ ∃ o l, Built Γ Λ marks χ [] s code [] s' mentions blocks o l

variable {Γ : Linkage} {marks : List (String × Nat)}
  {s s1 s2 s' : State} {code code1 code2 : Code}

/-- A label is reached after the action or comes later, whatever is done after the action. -/
theorem Completes.later_of_le (h : Completes Γ Λ marks s code s' L) (hle : s1.Le s')
    (name : String) (place : Nat) (hmark : Λ.mark name = some place) :
    name ∈ s1.marks.map Prod.fst ∨ s1.pc ≤ place := by
  rcases h.later name place hmark with hmem | hpc
  · obtain ⟨p, hp, rfl⟩ := mem_map.1 hmem
    have hplace : p.2 = place := Option.some.inj ((h.marked p hp).symm.trans hmark)
    exact (hle.placed p hp).imp mem_map_of_mem fun hle => hplace ▸ hle
  · exact .inr (hle.pc.trans hpc)

theorem Completes.first (h : Completes Γ Λ marks s (code1 ++ code2) s' (L1 ++ L2))
    (hle : s1.Le s') : Completes Γ Λ marks s code1 s1 L1 where
  constants := hle.constants.trans h.constants
  slots := hle.localCount.trans h.slots
  errors := hle.errors_eq_nil h.errors
  near := fun i hi => h.near i (mem_append_left _ hi)
  marked := fun p hp => h.marked p (hle.marks.mem hp)
  nodup := by
    have hn := h.nodup
    rw [Stmt.labelled_append, map_append] at hn
    exact hn.of_append_left
  new := fun p hp => h.new p (by simp [hp])
  blocks := fun p hp => h.blocks p (by simp [hp])
  later := h.later_of_le hle
  ordered := fun ms name ns heq => h.ordered ms name (ns ++ L2) (by simp [heq])

theorem Completes.part (h : Completes Γ Λ marks s code s' L) (hcode : ∀ i ∈ code2, i ∈ code)
    (hmarks : s1.marks = s.marks) (hle : s2.Le s') : Completes Γ Λ marks s1 code2 s2 L :=
  { h with
    constants := hle.constants.trans h.constants
    slots := hle.localCount.trans h.slots
    errors := hle.errors_eq_nil h.errors
    near := fun i hi => h.near i (hcode i hi)
    marked := fun p hp => h.marked p (hle.marks.mem hp)
    new := fun p hp => by rw [hmarks]; exact h.new p hp
    later := h.later_of_le hle
    ordered := fun ms name ns heq => by rw [hmarks]; exact h.ordered ms name ns heq }

theorem Built.mem_marks (hb : Built Γ Λ marks χ fresh s code fresh1 s1 L B o l) :
    name ∈ s1.marks.map Prod.fst ↔
      name ∈ (Stmt.labelled L).map Prod.fst ∨ name ∈ s.marks.map Prod.fst := by
  rw [hb.marks, map_append, mem_append, map_reverse, mem_reverse, ← hb.sites, map_map]
  rfl

theorem Completes.second (h : Completes Γ Λ marks s (code1 ++ code2) s' (L1 ++ L2))
    (hb : Built Γ Λ marks χ fresh s code1 fresh1 s1 L1 B o l) :
    Completes Γ Λ marks s1 code2 s' L2 where
  constants := h.constants
  slots := h.slots
  errors := h.errors
  near := fun i hi => h.near i (mem_append_right _ hi)
  marked := h.marked
  nodup := by
    have hn := h.nodup
    rw [Stmt.labelled_append, map_append] at hn
    exact hn.of_append_right
  new := by
    intro p hp hmem
    have hn := h.nodup
    rw [Stmt.labelled_append, map_append] at hn
    rcases hb.mem_marks.1 hmem with hmem | hmem
    · exact (nodup_append.1 hn).2.2 _ hmem _ (mem_map_of_mem hp) rfl
    · exact h.new p (by simp [hp]) hmem
  blocks := fun p hp => h.blocks p (by simp [hp])
  later := h.later
  ordered := by
    intro ms name ns heq hmem
    refine h.ordered (L1 ++ ms) name ns (by simp [heq]) ?_
    rw [hb.mem_marks] at hmem
    rw [Stmt.labelled_append, map_append, mem_append]
    tauto

theorem Built.append (h1 : Built Γ Λ marks χ fresh s code1 fresh1 s1 L1 B1 o1 l1)
    (h2 : Built Γ Λ marks χ fresh1 s1 code2 fresh2 s' L2 B2 o2 l2) :
    Built Γ Λ marks χ fresh s (code1 ++ code2) fresh2 s' (L1 ++ L2) (B1 ++ B2) (o1 ++ o2)
      (l1 ++ l2) where
  structured := by
    rw [opsOf_append]
    refine .append h1.structured ?_
    rw [length_opsOf, ← h1.pc]
    exact h2.structured
  slots := h1.slots.trans h2.slots
  pc := by rw [h2.pc, h1.pc, length_append, Nat.add_assoc]
  marks := by rw [h2.marks, h1.marks, map_append, reverse_append, append_assoc]
  sites := by rw [Stmt.labelled_append, map_append, map_append, h1.sites, h2.sites]
  extents := by rw [map_append, h1.extents, h2.extents]

theorem Built.of_generated (h : Generated Γ χ [] marks s code [] [] s') :
    Built Γ Λ marks χ [] s code [] s' [] [] [] [] where
  structured := .straight h.straight
  slots := h.slots
  pc := h.pc
  marks := h.marks
  sites := rfl
  extents := rfl

theorem report_done (h : report x c s = .done () code s') (he : s'.errors = []) :
    x c s = .done () code s' := by
  obtain ⟨r, code1, s1, code2, h1, h2, rfl⟩ := bind_done h
  unfold attempt at h1
  split at h1
  · rename_i hx
    cases h1
    cases h2
    rw [hx, append_nil]
  · cases h1
    cases h2
    cases he

theorem choosing_done (h : choosing jump first second c s = .done () code s') :
    ∃ a s1 b middle target, first c { s with pc := s.pc + 1 } = .done () a s1 ∧
      second c { s1 with pc := s1.pc + 1 } = .done () b s' ∧ middle.toNat = s1.pc + 1 ∧
      target.toNat = s'.pc ∧
      code = .op (jump middle) s.place :: (a ++ .op (.jump target) s1.place :: b) := by
  obtain ⟨place, _, _, _, h1, h2, rfl⟩ := bind_done h
  obtain ⟨⟨_, a⟩, _, s1, _, h3, h4, rfl⟩ := bind_done h2
  obtain ⟨back, _, _, _, h5, h6, rfl⟩ := bind_done h4
  obtain ⟨middle, _, _, _, h7, h8, rfl⟩ := bind_done h6
  obtain ⟨⟨_, b⟩, _, s2, _, h9, h10, rfl⟩ := bind_done h8
  obtain ⟨target, _, _, _, h11, h12, rfl⟩ := bind_done h10
  cases h1
  cases h5
  cases h12
  obtain ⟨rfl, hfirst⟩ := capture_done h3
  obtain ⟨rfl, rfl, hmiddle⟩ := here_done h7
  obtain ⟨rfl, hsecond⟩ := capture_done h9
  obtain ⟨rfl, rfl, htarget⟩ := here_done h11
  exact ⟨a, s1, b, middle, target, hfirst, hsecond, hmiddle, htarget, rfl⟩

theorem attempt_ofExcept_done (h : attempt x c s = .done r code s') (hr : r = .ok a) : x c s = .done
    a code s' := by
  unfold attempt at h
  split at h
  · rename_i hx
    cases h
    cases hr
    exact hx
  · cases h
    cases hr

namespace Builds

theorem of_evaluates (hx : Evaluates Γ χ [] marks c x [] fun _ S' => S' = []) :
    Builds Γ Λ marks c χ x [] [] := by
  intro s code s' h hs hk
  obtain ⟨_, rfl, hg⟩ := hx h hs hk.constants hk.slots
  exact ⟨hg.scopes, [], [], .of_generated hg⟩

theorem seq [∀ u, Grows (f u)] (hx : Builds Γ Λ marks c χ x L1 B1)
    (hf : Builds Γ Λ marks c χ (f ()) L2 B2) :
    Builds Γ Λ marks c χ (x >>= f) (L1 ++ L2) (B1 ++ B2) := by
  intro s code s' h hs hk
  obtain ⟨_, code1, s1, code2, h1, h2, rfl⟩ := bind_done h
  obtain ⟨hscopes1, o1, l1, hb1⟩ := hx h1 hs (hk.first (Grows.of_done h2))
  have hs1 := hscopes1 ▸ hs.mono hb1.slots
  obtain ⟨hscopes2, o2, l2, hb2⟩ := hf h2 hs1 (hk.second hb1)
  exact ⟨hscopes2.trans hscopes1, _, _, hb1.append hb2⟩

theorem after [∀ u, Grows (f u)] (hx : Evaluates Γ χ [] marks c x [] fun _ S' => S' = [])
    (hf : Builds Γ Λ marks c χ (f ()) L B) : Builds Γ Λ marks c χ (x >>= f) L B :=
  (seq (of_evaluates hx) hf : Builds Γ Λ marks c χ _ ([] ++ L) ([] ++ B))

theorem before [∀ u, Grows (f u)] (hx : Builds Γ Λ marks c χ x L B)
    (hf : Evaluates Γ χ [] marks c (f ()) [] fun _ S' => S' = []) :
    Builds Γ Λ marks c χ (x >>= f) L B := by
  have h := seq hx (of_evaluates hf)
  rwa [append_nil, append_nil] at h

theorem report (hx : Builds Γ Λ marks c χ x L B) :
    Builds Γ Λ marks c χ (Gen.report x) L B := fun _ _ _ h hs hk =>
  hx (report_done h hk.errors) hs hk

abbrev Tests (Γ : Linkage) (marks : List (String × Nat)) (c : Context) (χ : Chain)
    (cond : Gen Unit) : Prop :=
  Evaluates Γ χ [] marks c cond [] fun _ S' => ∃ t, S' = [t]

variable {cond body : Gen Unit}

theorem ifThen [Grows body] (hcond : Tests Γ marks c χ cond) (hbody : Builds Γ Λ marks c χ body L B) :
    Builds Γ Λ marks c χ (cond >>= fun _ => skipping .jumpIfFalse body) L B := by
  intro s code s' h hs hk
  obtain ⟨_, code1, s1, code2, h1, h2, rfl⟩ := bind_done h
  obtain ⟨rest, target, h3, htarget, rfl⟩ := skipping_done h2
  have hle : s1.Le s' := Grows.of_done h2
  obtain ⟨_, ⟨t, rfl⟩, hg⟩ := hcond h1 hs (hle.constants.trans hk.constants)
    (hle.localCount.trans hk.slots)
  have hs1 := hg.scopes ▸ hs.mono hg.slots
  obtain ⟨hscopes, o, l, hb⟩ := hbody h3 hs1 (hk.part (by simp; tauto) hg.marks (.refl _))
  refine ⟨hscopes.trans hg.scopes, o, l, ?_, ?_, ?_, ?_, hb.sites, hb.extents⟩
  · rw [opsOf_append, opsOf_op]
    have hpc := hg.pc
    have hstructured := hb.structured
    rw [hpc] at hstructured
    refine .ifThen hg.straight (by simpa using hstructured) ?_
    rw [htarget, hb.pc, length_opsOf, length_opsOf]
    exact congrArg (· + 1 + rest.length) hpc
  · exact hg.slots.trans hb.slots
  · rw [hb.pc, length_append, length_cons]
    have := hg.pc
    dsimp only
    omega
  · rw [hb.marks]
    exact congrArg _ hg.marks

theorem ifElse [Grows first] [Grows second]
    (hcond : Tests Γ marks c χ cond) (hfirst : Builds Γ Λ marks c χ first L1 B1)
    (hsecond : Builds Γ Λ marks c χ second L2 B2) :
    Builds Γ Λ marks c χ (cond >>= fun _ => choosing .jumpIfFalse first second) (L1 ++ L2)
      (B1 ++ B2) := by
  intro s code s' h hs hk
  obtain ⟨_, code1, s1, code2, h1, h2, rfl⟩ := bind_done h
  obtain ⟨a, s2, b, middle, target, h3, h4, hmiddle, htarget, rfl⟩ := choosing_done h2
  have hle : s1.Le s' := Grows.of_done h2
  have hle2 : s2.Le s' :=
    (State.Le.of_eq rfl rfl rfl rfl (Nat.le_succ _) : s2.Le { s2 with pc := s2.pc + 1 }).trans
      (Grows.of_done h4)
  obtain ⟨_, ⟨t, rfl⟩, hg⟩ := hcond h1 hs (hle.constants.trans hk.constants)
    (hle.localCount.trans hk.slots)
  have hs1 := hg.scopes ▸ hs.mono hg.slots
  have hk1 : Completes Γ Λ marks { s1 with pc := s1.pc + 1 } (a ++ b) s' (L1 ++ L2) :=
    hk.part (by simp; tauto) hg.marks (.refl _)
  obtain ⟨hscopes1, o1, l1, hb1⟩ := hfirst h3 hs1 (hk1.first hle2)
  have hs2 := hscopes1 ▸ hs1.mono hb1.slots
  obtain ⟨hscopes2, o2, l2, hb2⟩ := hsecond h4 hs2 ((hk1.second hb1).part (fun _ => id) rfl (.refl _))
  have hpc := hg.pc
  have hpc1 := hb1.pc
  have hpc2 := hb2.pc
  dsimp only at hpc1 hpc2
  refine ⟨(hscopes2.trans hscopes1).trans hg.scopes, o1 ++ o2, l1 ++ l2, ?_, ?_, ?_, ?_, ?_, ?_⟩
  · rw [opsOf_append, opsOf_op, opsOf_append, opsOf_op]
    refine .ifElse hg.straight ?_ ?_ ?_ ?_
    · rw [length_opsOf, ← hpc]
      exact hb1.structured
    · rw [length_opsOf, length_opsOf, ← hpc, ← hpc1]
      exact hb2.structured
    · rw [hmiddle, length_opsOf, length_opsOf]
      omega
    · rw [htarget, length_opsOf, length_opsOf, length_opsOf]
      omega
  · exact (hg.slots.trans hb1.slots).trans hb2.slots
  · simp only [length_append, length_cons]
    omega
  · rw [hb2.marks, map_append, reverse_append, append_assoc]
    refine congrArg _ (hb1.marks.trans ?_)
    exact congrArg _ hg.marks
  · rw [Stmt.labelled_append, map_append, map_append, hb1.sites, hb2.sites]
  · rw [map_append, hb1.extents, hb2.extents]

theorem loop [Grows body] (hcond : Tests Γ marks c χ cond) (hbody : Builds Γ Λ marks c χ body L B) :
    Builds Γ Λ marks c χ (here >>= fun top => emit .checkRun >>= fun _ => cond >>= fun _ =>
      skipping .jumpIfFalse (body >>= fun _ => emit (.jump top))) L B := by
  intro s code s' h hs hk
  obtain ⟨top, _, _, _, h1, h2, rfl⟩ := bind_done h
  obtain ⟨rfl, rfl, htop⟩ := here_done h1
  obtain ⟨_, h4, rfl⟩ := rest_done rfl h2
  obtain ⟨_, code1, s1, code2, h5, h6, rfl⟩ := bind_done h4
  obtain ⟨rest, target, h7, htarget, rfl⟩ := skipping_done h6
  obtain ⟨_, a, s2, _, h8, h9, rfl⟩ := bind_done h7
  cases h9
  have hle2 : s2.Le { s2 with pc := s2.pc + 1 } := .of_eq rfl rfl rfl rfl (Nat.le_succ _)
  have hle : s1.Le { s2 with pc := s2.pc + 1 } := Grows.of_done h6
  obtain ⟨_, ⟨t, rfl⟩, hg⟩ := hcond h5 hs (hle.constants.trans hk.constants)
    (hle.localCount.trans hk.slots)
  have hs1 := hg.scopes ▸ hs.mono hg.slots
  obtain ⟨hscopes, o, l, hb⟩ := hbody h8 hs1 (hk.part (by simp; tauto) hg.marks hle2)
  have hpc := hg.pc
  have hpc2 := hb.pc
  dsimp only at hpc hpc2 htarget
  refine ⟨hscopes.trans hg.scopes, o, l, ?_, ?_, ?_, ?_, hb.sites, hb.extents⟩
  · simp only [nil_append, cons_append, opsOf_op, opsOf_append, opsOf_nil]
    refine .loop hg.straight ?_ htop ?_
    · rw [length_opsOf, ← hpc]
      exact hb.structured
    · rw [htarget, length_opsOf, length_opsOf]
      omega
  · exact hg.slots.trans hb.slots
  · simp only [length_append, length_cons, length_nil]
    omega
  · refine hb.marks.trans ?_
    exact congrArg _ hg.marks

theorem forever [Grows body] (hbody : Builds Γ Λ marks c χ body L B) :
    Builds Γ Λ marks c χ (here >>= fun top => emit .checkRun >>= fun _ => body >>= fun _ =>
      emit (.jump top)) L B := by
  intro s code s' h hs hk
  obtain ⟨top, _, _, _, h1, h2, rfl⟩ := bind_done h
  obtain ⟨rfl, rfl, htop⟩ := here_done h1
  obtain ⟨_, h4, rfl⟩ := rest_done rfl h2
  obtain ⟨_, a, s1, _, h5, h6, rfl⟩ := bind_done h4
  cases h6
  have hle : s1.Le { s1 with pc := s1.pc + 1 } := .of_eq rfl rfl rfl rfl (Nat.le_succ _)
  obtain ⟨hscopes, o, l, hb⟩ := hbody h5 hs (hk.part (by simp; tauto) rfl hle)
  have hpc := hb.pc
  dsimp only at hpc
  refine ⟨hscopes, o, l, ?_, hb.slots, ?_, hb.marks, hb.sites, hb.extents⟩
  · simp only [nil_append, cons_append, opsOf_op, opsOf_append, opsOf_nil]
    exact .forever hb.structured htop
  · simp only [length_append, length_cons, length_nil]
    omega

theorem doWhile [Grows cond] [Grows body] (hbody : Builds Γ Λ marks c χ body L B)
    (hcond : Tests Γ marks c χ cond) :
    Builds Γ Λ marks c χ (here >>= fun top => emit .checkRun >>= fun _ => body >>= fun _ =>
      cond >>= fun _ => emit (.jumpIfTrue top)) L B := by
  intro s code s' h hs hk
  obtain ⟨top, _, _, _, h1, h2, rfl⟩ := bind_done h
  obtain ⟨rfl, rfl, htop⟩ := here_done h1
  obtain ⟨_, h4, rfl⟩ := rest_done rfl h2
  obtain ⟨_, a, s1, _, h5, h6, rfl⟩ := bind_done h4
  obtain ⟨_, b, s2, _, h7, h8, rfl⟩ := bind_done h6
  cases h8
  have hle : s1.Le { s2 with pc := s2.pc + 1 } := Grows.of_done h6
  obtain ⟨hscopes, o, l, hb⟩ := hbody h5 hs (hk.part (by simp; tauto) rfl hle)
  have hs1 := hscopes ▸ hs.mono hb.slots
  obtain ⟨_, ⟨t, rfl⟩, hg⟩ := hcond h7 hs1 hk.constants hk.slots
  have hpc := hb.pc
  have hpc2 := hg.pc
  dsimp only at hpc
  refine ⟨hg.scopes.trans hscopes, o, l, ?_, ?_, ?_, ?_, hb.sites, hb.extents⟩
  · simp only [nil_append, cons_append, opsOf_op, opsOf_append, opsOf_nil]
    refine .doWhile (t := t) hb.structured ?_ htop
    rw [length_opsOf, ← hpc]
    exact hg.straight
  · exact hb.slots.trans hg.slots
  · simp only [length_append, length_cons, length_nil]
    omega
  · exact hg.marks.trans hb.marks

end Builds

/-- The code of the action is structured together with straight code before it, which leaves
operands of the given types. -/
def BuildsAfter (Γ : Linkage) (Λ : Labels) (marks : List (String × Nat)) (c : Context) (χ : Chain)
    (S : List Ty) (x : Gen Unit) (mentions : List (String × Option Nat))
    (blocks : List (Nat × List Ty)) : Prop :=
  ∀ ⦃s₀ code₀ s code s'⦄, Generated Γ χ [] marks s₀ code₀ [] S s → x c s = .done () code s' →
    Scoped Γ χ [] s₀.scopes s₀.localCount → Completes Γ Λ marks s₀ (code₀ ++ code) s' mentions →
    s'.scopes = s₀.scopes ∧ ∃ o l, Built Γ Λ marks χ [] s₀ (code₀ ++ code) [] s' mentions blocks o l

theorem Builds.of_after (h : BuildsAfter Γ Λ marks c χ [] x L B) :
    Builds Γ Λ marks c χ x L B := fun s _ _ hx hs hk =>
  h (⟨.nil, le_rfl, rfl, rfl, rfl, rfl⟩ : Generated Γ χ [] marks s [] [] [] s) hx hs hk

namespace BuildsAfter

theorem of_builds (hx : Builds Γ Λ marks c χ x L B) : BuildsAfter Γ Λ marks c χ [] x L B := by
  intro s0 code0 s code s' hg h hs hk
  have hk' := hk
  have hb0 : Built Γ Λ marks χ [] s0 code0 [] s [] [] [] [] := .of_generated hg
  obtain ⟨hscopes, o, l, hb⟩ := hx h (hg.scopes ▸ hs.mono hg.slots) (hk'.second hb0)
  exact ⟨hscopes.trans hg.scopes, _, _, hb0.append hb⟩

theorem bind [hgrows : ∀ a, Grows (f a)] (hx : Evaluates Γ χ [] marks c x S P)
    (hf : ∀ a S1, P a S1 → BuildsAfter Γ Λ marks c χ S1 (f a) L B) :
    BuildsAfter Γ Λ marks c χ S (x >>= f) L B := by
  intro s0 code0 s code s' hg h hs hk
  obtain ⟨a, code1, s1, code2, h1, h2, rfl⟩ := bind_done h
  have hle : s1.Le s' := (hgrows a).of_done h2
  obtain ⟨S1, hP, hg1⟩ := hx h1 (hg.scopes ▸ hs.mono hg.slots) (hle.constants.trans hk.constants)
    (hle.localCount.trans hk.slots)
  rw [← append_assoc] at hk ⊢
  exact hf a S1 hP (hg.trans hg1) h2 hs hk

theorem seq [∀ u, Grows (f u)] (hx : Evaluates Γ χ [] marks c x S fun _ S1 => S1 = S')
    (hf : BuildsAfter Γ Λ marks c χ S' (f ()) L B) : BuildsAfter Γ Λ marks c χ S (x >>= f) L B :=
  bind hx fun _ _ h => h ▸ hf

theorem fail : BuildsAfter Γ Λ marks c χ S (Gen.fail e span) L B := nofun

end BuildsAfter

/-! ## Statements without parts -/

theorem Evaluates.forM {γ : Type} {f : γ → Gen Unit} [∀ a, Grows (f a)] {as : List γ}
    (h : ∀ a ∈ as, Evaluates Γ χ fresh marks c (f a) S fun _ S' => S' = S) :
    Evaluates Γ χ fresh marks c (as.forM f) S fun _ S' => S' = S := by
  induction as with
  | nil => exact .pure rfl
  | cons a as ih =>
    exact .seq (h a mem_cons_self) (ih (forall_mem_cons.1 h).2)

theorem genDiscard_evaluates (hc : Describes Γ is c) (h : e.Regular Γ.core is) :
    Evaluates Γ χ fresh marks c (genDiscard e) [] fun _ S' => S' = [] := by
  refine .bind (genExpr_evaluates hc h []) fun ty S1 h1 => .ite (fun hty => ?_) fun hty => ?_
  · rw [h1.1, returned, if_neg hty]
    exact .emit .pop
  · rw [h1.1, returned, if_pos (not_not.1 hty)]
    exact .pure rfl

theorem genSteps_evaluates (hc : Describes Γ is c) (h : Expr.AllRegular Γ.core is es) :
    Evaluates Γ χ fresh marks c (genSteps es) [] fun _ S' => S' = [] :=
  .forM fun e he => .seq (.setPlace e.span) (genDiscard_evaluates hc (h.of_mem he))

theorem genCond_evaluates (hc : Describes Γ is c) (h : e.Regular Γ.core is) :
    Evaluates Γ χ fresh marks c (genCond e) [] fun _ S' => ∃ t, S' = [t] := by
  refine .bind (genExpr_evaluates hc h []) fun ty S1 h1 => .ite (fun hty => ?_) fun _ => .fail
  have hne : ty ≠ .void := by rintro rfl; exact Bool.noConfusion hty
  exact .pure ⟨ty, by rw [h1.1, returned, if_neg hne]⟩

theorem genInitial_evaluates (hc : Describes Γ is c) (h : e.Regular Γ.core is)
    (hty : ty.Allowed Γ.core) (S : List Ty) :
    Evaluates Γ χ fresh marks c (genInitial e ty) S fun _ S' => S' = ty :: S :=
  .bind (genExpr_evaluates hc h S) fun _ _ h1 => coerce_evaluates h1 hty

theorem leftScopes {scopes : List Scope}
    (h : (scopes.takeWhile (·.block ≠ some block)).length ≠ scopes.length) :
    ∃ scope rest, scopes = scopes.takeWhile (·.block ≠ some block) ++ scope :: rest ∧
      scope.block = some block := by
  cases hd : scopes.dropWhile (·.block ≠ some block) with
  | nil =>
    have happ := takeWhile_append_dropWhile (p := (·.block ≠ some block)) (l := scopes)
    rw [hd, append_nil] at happ
    exact absurd (congrArg length happ) h
  | cons scope rest =>
    refine ⟨scope, rest, ?_, ?_⟩
    · rw [← hd, takeWhile_append_dropWhile]
    have := head?_dropWhile_not (fun sc : Scope => decide (sc.block ≠ some block)) scopes
    rw [hd] at this
    simpa using this

theorem genJump_builds (hp : Placed Γ is Λ marks c) :
    Builds Γ Λ marks c χ (genJump label span) [(label, none)] [] := by
  intro s code s' h hs hk
  obtain ⟨_, h2, rfl⟩ := rest_done rfl h
  cases hl : c.labels.find? (·.name == label) with
  | none => rw [hl] at h2; cases h2
  | some target =>
    rw [hl] at h2
    obtain ⟨_, h4, rfl⟩ := rest_done rfl h2
    dsimp only at h4
    split at h4
    · cases h4
    rename_i hlen
    obtain ⟨_, code1, s1, _, h5, h6, rfl⟩ := bind_done h4
    cases h6
    obtain ⟨scope, rest, hsplit, hscope⟩ := leftScopes hlen
    generalize s.scopes.takeWhile (·.block ≠ some target.block) = left at h5 hsplit
    have hleave : Emits c s.scopes (left.forM leaveScope) _ :=
      leaveScopes_emits fun sc hsc => hs.static sc (hsplit ▸ mem_append_left _ hsc)
    obtain ⟨emitted, hemitted, hops⟩ := hleave s rfl
    rw [h5] at hemitted
    cases hemitted
    have hnear := hk.near (.jumpTo label s.place) (by simp)
    simp only [tooFar, decide_eq_false_iff_not, not_le] at hnear
    have hlen : code1.length = ((left.map Scope.region).flatMap Region.leaveOps).length := by
      rw [← hops marks, length_opsOf]
    have hjump : opsOf marks [.jumpTo label s.place] =
      [.jump (UInt32.ofNat ((marks.lookup label).getD 0))] := rfl
    refine ⟨rfl, [], [], ?_, le_rfl, ?_, rfl, rfl, rfl⟩
    · simp only [opsOf_append, hops, hjump]
      have hchain : χ = left.map Scope.region ++ scope.region :: rest.map Scope.region := by
        rw [← hs.chain, hsplit, map_append, map_cons]
      have hof : Λ.blockOf label = some target.block := by rw [hp.blockOf, hl]; rfl
      refine .jump hchain (hof ▸ hscope) (hof ▸ Option.some_ne_none _) fun pc hpc =>
        ⟨?_, fun hback => ?_⟩
      · rw [UInt32.toNat_ofNat_of_lt' hnear, ← hp.mark, hpc, Option.getD_some]
      -- a label that comes later has its place after the jump
      · rcases hk.later label pc hpc with hmem | hlater
        · exact hk.ordered [] label [] rfl (.inl hmem)
        · dsimp only at hlater
          omega
    · simp only [length_append, hlen, length_cons, length_nil]
      omega

theorem genLabel_builds (hp : Placed Γ is Λ marks c)
    (hblock : χ.head?.bind Region.block = some block) :
    Builds Γ Λ marks c χ (genLabel label) [(label, some block)] [] := by
  intro s code s' h hs hk
  obtain ⟨_, h2, rfl⟩ := rest_done rfl h
  have hnew : s.marks.lookup label = none := by
    cases hl : s.marks.lookup label with
    | none => rfl
    | some pc =>
      exact absurd (mem_map_of_mem (mem_of_lookup hl))
        (hk.new (label, block) mem_cons_self)
  rw [hnew] at h2
  obtain ⟨_, _, _, _, h3, h4, rfl⟩ := bind_done h2
  obtain ⟨_, _, _, _, h5, h6, rfl⟩ := bind_done h4
  cases h3
  cases h5
  have hof := hk.blocks (label, block) mem_cons_self
  have built : ∀ {rest : Code}, opsOf marks rest = (if Λ.checked label then [.checkRun] else []) →
      (label, s.pc) ∈ s'.marks → s'.marks = (label, s.pc) :: s.marks → s'.pc = s.pc + rest.length →
      s.localCount ≤ s'.localCount →
      Built Γ Λ marks χ [] s rest [] s' [(label, some block)] [] [] [⟨label, s.pc, χ⟩] := by
    intro rest hrest hmem hmarks hpc hslots
    refine ⟨?_, hslots, hpc, hmarks, rfl, rfl⟩
    rw [hrest]
    exact .label (hblock.trans hof.symm) (hof ▸ Option.some_ne_none _)
      (hk.marked (label, s.pc) hmem)
  split at h6
  · rename_i hchecked
    cases h6
    have hrest : opsOf marks [.op .checkRun s.place] = if Λ.checked label then [.checkRun] else [] := by
      rw [hp.checked, if_pos hchecked]; rfl
    exact ⟨rfl, [], _, built hrest mem_cons_self rfl rfl le_rfl⟩
  · rename_i hchecked
    cases h6
    have hrest : opsOf marks [] = if Λ.checked label then [.checkRun] else [] := by
      rw [hp.checked, if_neg hchecked]; rfl
    exact ⟨rfl, [], _, built hrest mem_cons_self rfl rfl le_rfl⟩

theorem genReturn_builds (hc : Describes Γ is c) (h : ∀ e ∈ value, e.Regular Γ.core is) :
    Builds Γ Λ marks c χ (genReturn value span) [] [] := by
  have leaves : ∀ {x : Gen Unit},
      Evaluates Γ χ [] marks c x [] (fun _ S' => S' = returned Γ.ret []) →
      Builds Γ Λ marks c χ (x >>= fun _ => leaveFrame >>= fun _ => emit .ret) [] [] := by
    intro x hx s code s' hdone hs hk
    obtain ⟨_, code1, s1, code2, h1, h2, rfl⟩ := bind_done hdone
    have hle : s1.Le s' := Grows.of_done h2
    obtain ⟨_, rfl, hg⟩ := hx h1 hs (hle.constants.trans hk.constants)
      (hle.localCount.trans hk.slots)
    obtain ⟨emitted, hemitted, hops⟩ := returnOps_emits hc hs.chain hs.static s1 hg.scopes
    rw [h2] at hemitted
    cases hemitted
    have hlen : code2.length = (returnOps Γ χ).length := by rw [← hops marks, length_opsOf]
    refine ⟨hg.scopes, [], [], ?_, hg.slots, ?_, hg.marks, rfl, rfl⟩
    · rw [opsOf_append, hops]
      exact .ret hg.straight
    · rw [length_append, hlen, ← Nat.add_assoc, ← hg.pc]
  intro s code s' hdone
  obtain ⟨_, _, _, _, h1, h2, rfl⟩ := bind_done hdone
  cases h1
  rw [hc.ret] at h2
  cases value with
  | none =>
    dsimp only at h2
    split at h2
    · rename_i hret
      have hpure : Evaluates Γ χ [] marks c (pure ()) [] fun _ S' => S' = returned Γ.ret [] :=
        .pure (by rw [hret]; rfl)
      exact leaves hpure (bind_of_done rfl h2)
    · cases h2
  | some e =>
    dsimp only at h2
    split at h2
    · cases h2
    rename_i hret
    refine leaves (.mono (genInitial_evaluates hc (h e rfl) (hc.ret_allowed.resolve_left hret) [])
      fun _ S' hS' => ?_) h2
    rw [hS', returned, if_neg hret]

theorem genState_builds (hc : Describes Γ is c) :
    Builds Γ Λ marks c χ (genState name span) [] [] := by
  intro s code s' hdone hs hk
  obtain ⟨_, h2, rfl⟩ := rest_done rfl hdone
  cases hi : c.names.states.lookup name with
  | none => rw [hi] at h2; cases h2
  | some i =>
    rw [hi] at h2
    obtain ⟨code1, h4, rfl⟩ := rest_done rfl h2
    obtain ⟨emitted, hemitted, hops⟩ := returnDefault_emits hc hs.chain hs.static
      { s with pc := s.pc + 1 } rfl
    rw [h4] at hemitted
    cases hemitted
    have hlen : code1.length = (returnDefaultOps Γ χ).length := by rw [← hops marks, length_opsOf]
    refine ⟨rfl, [], [], ?_, le_rfl, ?_, rfl, rfl, rfl⟩
    · simp only [nil_append, cons_append, opsOf_op, hops]
      exact .state (hc.states name i hi)
    · simp only [nil_append, cons_append, length_cons, hlen]
      omega

/-! ## Loops over arrays -/

theorem spill_evaluates (hcore : Γ.core = false) (hk : Γ.Spare χ k) :
    Evaluates Γ χ fresh marks c (emit (.storeLocal k)) (t :: S) fun _ S' => S' = S :=
  .of_emits (fun _ _ _ => .emit _) fun _ => .spill hcore hk

theorem reload_evaluates (hcore : Γ.core = false) (hk : Γ.Spare χ k) :
    Evaluates Γ χ fresh marks c (emit (.loadLocal k)) S fun _ S' => S' = .object :: S :=
  .of_emits (fun _ _ _ => .emit _) fun _ => .reload hcore hk

theorem loopVar_evaluates (hc : Describes Γ is c) (name : Option (String × Span)) :
    Evaluates Γ χ fresh marks c (loopVar name) S fun v S' =>
      S' = S ∧ (name = none → v = none) ∧
        ∀ p ∈ v, Γ.HasVar χ fresh p.1 p.2 ∧ p.2.Allowed Γ.core := by
  unfold loopVar
  split
  · exact .pure ⟨rfl, fun _ => rfl, by rintro p ⟨⟩⟩
  refine .bind (varOf_evaluates hc _ _) fun v S' hv => .pure ⟨hv.1, by rintro ⟨⟩, ?_⟩
  rintro p ⟨⟩
  exact hv.2

theorem checkLoopVar_evaluates {name : Option (String × Span)} (h : name = none → var = none) :
    Evaluates Γ χ fresh marks c (checkLoopVar name var) S fun _ S' =>
      S' = S ∧ ∀ p ∈ var, Ty.object.Converts p.2 := by
  unfold checkLoopVar
  split
  · refine .ite (fun hcast => .pure ⟨rfl, ?_⟩) fun _ => .fail
    rintro p ⟨⟩
    exact converts_of_canCast hcast
  · rename_i hnone
    refine .pure ⟨rfl, ?_⟩
    rintro p rfl
    cases name with
    | none => cases h rfl
    | some n => exact absurd rfl (hnone n.1 n.2 p.1 p.2 rfl)

theorem genLoopVar_evaluates
    (hcore : Γ.core = false) (harray : Γ.Spare χ array) (hindex : Γ.Spare χ index)
    (hfetch : ∀ S, Plain Γ χ fresh fetch (.object :: .object :: S) (.object :: S))
    (hvar : ∀ p ∈ var, Γ.HasVar χ fresh p.1 p.2 ∧ p.2.Allowed Γ.core)
    (hcast : ∀ p ∈ var, Ty.object.Converts p.2) :
    Evaluates Γ χ fresh marks c (genLoopVar array index fetch var) [] fun _ S' => S' = [] := by
  unfold genLoopVar
  split
  · exact .pure rfl
  rename_i ty
  obtain ⟨hvar, hallowed⟩ := hvar _ rfl
  refine .seq (reload_evaluates hcore harray) (.seq (reload_evaluates hcore hindex)
    (.seq (.emit (hfetch [])) (.when (fun _ => .emit ?_) (fun h => ?_) (store_evaluates hvar))))
  · exact .cast (allowed_of_core hcore (by decide)) hallowed (hcast _ rfl)
  · rw [not_not.1 h]

theorem genForeach_builds (hc : Describes Γ is c) (hcore : Γ.core = false)
    (harray : array.Regular Γ.core is) [Grows body] (hbody : Builds Γ Λ marks c χ body L B) :
    Builds Γ Λ marks c χ (genForeach key value array body span) L B := by
  let turn (copy index : UInt16) (k v : Option (VarRef × Ty)) : Gen Unit := do
    genLoopVar copy index .arrayKey k
    genLoopVar copy index .arrayValue v
    report body
    emitConstant (.integer 1) span
    emit (.loadLocal index)
    emit (.binary .intAdd)
    emit (.storeLocal index)
  let test (copy index : UInt16) : Gen Unit := do
    emit (.loadLocal copy)
    emit .arrayCount
    emit (.loadLocal index)
    emit (.binary .intLt)
  let rest (k v : Option (VarRef × Ty)) (copy index : UInt16) : Gen Unit := do
    emit (.storeLocal copy)
    emitConstant (.integer 0) span
    emit (.storeLocal index)
    let top ← here
    emit .checkRun
    test copy index
    skipping .jumpIfFalse do
      turn copy index k v
      emit (.jump top)
  have hturn : ∀ copy index k v, Grows (turn copy index k v) := fun _ _ _ _ => inferInstance
  have htest : ∀ copy index, Grows (test copy index) := fun _ _ => inferInstance
  have hrest : ∀ k v copy index, Grows (rest k v copy index) := fun _ _ _ _ => inferInstance
  have heq : genForeach key value array body span = (do
      let ty ← genExpr array
      if ty ≠ .array then fail (.foreachOf ty) array.span
      else
        let keyVar ← loopVar key
        let valueVar ← loopVar value
        checkLoopVar key keyVar
        checkLoopVar value valueVar
        let copy ← newSlot span
        let index ← newSlot span
        rest keyVar valueVar copy index) := by
    simp only [genForeach, rest, test, turn, Gen.bind_assoc]
  rw [heq]
  refine .of_after (.bind (genExpr_evaluates hc harray []) fun ty S1 h1 => ?_)
  split
  · exact .fail
  rename_i hty
  rw [h1.1, not_not.1 hty]
  refine .bind (loopVar_evaluates hc key) fun k S2 h2 => ?_
  obtain ⟨rfl, hkNone, hk⟩ := h2
  refine .bind (loopVar_evaluates hc value) fun v S3 h3 => ?_
  obtain ⟨rfl, hvNone, hv⟩ := h3
  refine .bind (checkLoopVar_evaluates hkNone) fun _ S4 h4 => ?_
  obtain ⟨rfl, hkCast⟩ := h4
  refine .bind (checkLoopVar_evaluates hvNone) fun _ S5 h5 => ?_
  obtain ⟨rfl, hvCast⟩ := h5
  refine .bind (newSlot_evaluates span) fun copy S6 h6 => ?_
  obtain ⟨rfl, hcopy⟩ := h6
  refine .bind (newSlot_evaluates span) fun index S7 h7 => ?_
  obtain ⟨rfl, hindex⟩ := h7
  refine .seq (spill_evaluates hcore hcopy) (.seq (emitConstant_evaluates _ span)
    (.seq (spill_evaluates hcore hindex) (.of_builds (.loop ?_ ?_))))
  · refine .seq (reload_evaluates hcore hcopy) (.seq (.emit (.arrayCount hcore))
      (.seq (reload_evaluates hcore hindex) (.mono (.emit .binary) fun _ S' h => ⟨_, h⟩)))
  · refine .after (genLoopVar_evaluates hcore hcopy hindex (fun _ => .arrayKey hcore) hk hkCast) ?_
    refine .after (genLoopVar_evaluates hcore hcopy hindex (fun _ => .arrayValue hcore) hv hvCast) ?_
    refine .before hbody.report ?_
    exact .seq (emitConstant_evaluates _ span) (.seq (reload_evaluates hcore hindex)
      (.seq (.emit .binary) (spill_evaluates hcore hindex)))

/-! ## Declarations -/

/-- The variables whose declarations come before any other statement. -/
def leading (ds : List VarDecl) (vars : List (String × LocalVar)) : List LocalVar :=
  ((ds.zip vars).filter fun p => !p.1.hoisted).map fun p => p.2.2

/-- The variables of a block wait for their declarations, in the order of these. -/
structure Waiting (scope : Scope) (ds : List VarDecl) (vars : List (String × LocalVar)) : Prop where
  pending : scope.pending = vars.reverse
  names : vars.map (fun v => (v.1, v.2.ty)) = ds.map fun d => (d.name, d.ty)
  nodup : (vars.map Prod.fst).Nodup
  slots : (vars.map Prod.snd).Nodup
  owned : ∀ v ∈ vars, v.2 ∈ scope.owned

variable {scope : Scope}

theorem takePending?_done (h : takePending? d.name c s = .done r code s')
    (hscopes : s.scopes = scope :: rest) (hw : Waiting scope (d :: ds) vars) :
    ∃ v vars', vars = (d.name, v) :: vars' ∧ v.ty = d.ty ∧ r = some v ∧ code = [] ∧
      s' = { s with scopes := { scope with pending := vars'.reverse } :: rest } := by
  cases vars with
  | nil => cases hw.names
  | cons v vars =>
    have hnames := hw.names
    simp only [map_cons, cons.injEq, Prod.mk.injEq] at hnames
    obtain ⟨⟨hname, hty⟩, -⟩ := hnames
    obtain ⟨name, v⟩ := v
    subst hname
    have hnew : ∀ w ∈ vars, w.1 ≠ d.name := by
      intro w hw' heq
      have hmem : w.1 ∈ vars.map Prod.fst := mem_map_of_mem hw'
      exact (nodup_cons.1 hw.nodup).1 (heq ▸ hmem)
    have hpending : scope.pending = vars.reverse ++ [(d.name, v)] := by
      rw [hw.pending, reverse_cons]
    have hlookup : scope.pending.lookup d.name = some v := by
      rw [hpending]
      refine lookup_eq_some_iff.2 ⟨vars.reverse, [], rfl, fun w hw' => ?_⟩
      exact bne_iff_ne.2 (hnew w (mem_reverse.1 hw')).symm
    have hfilter : scope.pending.filter (·.1 ≠ d.name) = vars.reverse := by
      rw [hpending, filter_append]
      simp only [ne_eq, decide_not, filter_cons, decide_true, Bool.not_true, filter_nil,
        Bool.false_eq_true, if_false, append_nil]
      exact filter_eq_self.2 fun w hw' => by simpa using hnew w (mem_reverse.1 hw')
    refine ⟨v, vars, rfl, hty, ?_⟩
    obtain ⟨_, h2, rfl⟩ := rest_done rfl h
    rw [hscopes] at h2
    obtain ⟨_, h4, rfl⟩ := rest_done rfl h2
    cases h4
    exact ⟨hlookup, rfl, by rw [hfilter]⟩

theorem Waiting.tail (hw : Waiting scope (d :: ds) ((name, v) :: vars))
    (visible : List (String × LocalVar)) :
    Waiting { scope with visible, pending := vars.reverse } ds vars where
  pending := rfl
  names := (cons.inj hw.names).2
  nodup := (nodup_cons.1 hw.nodup).2
  slots := (nodup_cons.1 hw.slots).2
  owned := fun w hw' => hw.owned w (mem_cons_of_mem _ hw')

theorem genDecl_done (h : genDecl d c s = .done () code s') (hscopes : s.scopes = scope :: rest)
    (hw : Waiting scope (d :: ds) vars) : ∃ v vars' s1, vars = (d.name, v) :: vars' ∧ v.ty = d.ty ∧
      genDeclValue d v c { s with scopes := { scope with pending := vars'.reverse } :: rest } =
        .done () code s1 ∧ s1.Le s' ∧
      (s1.scopes = { scope with pending := vars'.reverse } :: rest →
        s' = { s1 with scopes :=
          { scope with
            pending := vars'.reverse, visible := (d.name, v) :: scope.visible } :: rest }) := by
  obtain ⟨r, _, _, _, h1, h2, rfl⟩ := bind_done h
  obtain ⟨v, vars', rfl, hty, rfl, rfl, rfl⟩ := takePending?_done h1 hscopes hw
  obtain ⟨result, code1, s1, _, h3, h4, rfl⟩ := bind_done h2
  obtain ⟨_, _, _, code2, h5, h6, rfl⟩ := bind_done h4
  have hle : s1.Le s' := Grows.of_done h4
  cases h5
  cases result with
  | error e => cases h6
  | ok u =>
    cases h6
    refine ⟨v, vars', s1, rfl, hty, ?_, hle, fun hs1 => ?_⟩
    · simpa using attempt_ofExcept_done h3 rfl
    · dsimp only
      rw [hs1]

section

variable (h : Scoped Γ χ fresh (scope :: rest) n)

include h

theorem Scoped.setPending
    (pending : List (String × LocalVar)) : Scoped Γ χ fresh ({ scope with pending } :: rest) n where
  chain := h.chain
  static := forall_mem_cons.2 (forall_mem_cons.1 h.static)
  visible := forall_mem_cons.2 (forall_mem_cons.1 h.visible)
  below := h.below
  allowed := h.allowed

theorem Scoped.reveal (hsub : ∀ w ∈ fresh1, w ∈ fresh)
    (howned : v ∈ scope.owned) (hnew : v ∉ fresh1) :
    Scoped Γ χ fresh1 ({ scope with visible := (name, v) :: scope.visible } :: rest) n where
  chain := h.chain
  static := forall_mem_cons.2 (forall_mem_cons.1 h.static)
  visible := fun sc hsc x w hw => by
    rcases mem_cons.1 hsc with rfl | hsc
    · rcases mem_cons.1 hw with heq | hw
      · cases heq
        exact ⟨howned, hnew⟩
      · obtain ⟨ho, hf⟩ := h.visible scope mem_cons_self x w hw
        exact ⟨ho, fun hmem => hf (hsub w hmem)⟩
    · obtain ⟨ho, hf⟩ := h.visible sc (mem_cons_of_mem _ hsc) x w hw
      exact ⟨ho, fun hmem => hf (hsub w hmem)⟩
  below := h.below
  allowed := h.allowed

theorem Scoped.mem_vars (hv : v ∈ scope.owned) : v ∈ χ.vars := by
  rw [← h.chain]
  exact mem_flatMap.2 ⟨scope.region, mem_map_of_mem mem_cons_self, hv⟩

end

theorem genDeclValue_hoisted (hc : Describes Γ is c) (hd : d.hoisted = true)
    (hinit : ∀ e ∈ d.init, e.Regular Γ.core is) (hv : v ∈ χ.vars) (hty : v.ty.Allowed Γ.core) :
    Evaluates Γ χ [] marks c (genDeclValue d v) [] fun _ S' => S' = [] := by
  have hvar : Γ.HasVar χ [] (.localVar v.slot) v.ty := ⟨hv, not_mem_nil⟩
  unfold genDeclValue
  rw [if_pos hd]
  cases hi : d.init with
  | some e =>
    exact .seq (genInitial_evaluates hc (hinit e hi) hty []) (store_evaluates hvar)
  | none => exact .seq (.emit (.default hty)) (store_evaluates hvar)

theorem genDeclValue_leading (hc : Describes Γ is c) (hd : d.hoisted = false)
    (hinit : ∀ e ∈ d.init, e.Regular Γ.core is) (hty : v.ty.Allowed Γ.core)
    (h : genDeclValue d v c s = .done () code s')
    (hs : Scoped Γ χ (v :: fresh) s.scopes s.localCount) (hk : Completes Γ Λ marks s code s' []) :
    s'.scopes = s.scopes ∧ Built Γ Λ marks χ (v :: fresh) s code fresh s' [] [] [] [] := by
  unfold genDeclValue at h
  rw [if_neg (by rw [hd]; exact Bool.false_ne_true)] at h
  cases hi : d.init with
  | none =>
    rw [hi] at h
    cases h
    exact ⟨rfl, .declareDefault, le_rfl, rfl, rfl, rfl, rfl⟩
  | some e =>
    rw [hi] at h
    obtain ⟨_, code1, s1, code2, h1, h2, rfl⟩ := bind_done h
    have hle : s1.Le s' := Grows.of_done h2
    obtain ⟨_, rfl, hg⟩ := genInitial_evaluates hc (hinit e hi) hty [] h1 hs
      (hle.constants.trans hk.constants) (hle.localCount.trans hk.slots)
    have hstore : Emits c s1.scopes (do
        emit (.storeLocal v.slot)
        if v.ty.hasDynamicSize then emit (.memIncr (.localVar v.slot)))
        ([.storeLocal v.slot] ++
          if v.ty.hasDynamicSize then [.memIncr (.localVar v.slot)] else []) :=
      .bind (.emit _) (.ite (fun _ => .emit _) fun _ => .pure)
    obtain ⟨emitted, hemitted, hops⟩ := hstore s1 rfl
    rw [h2] at hemitted
    cases hemitted
    refine ⟨hg.scopes, ?_, hg.slots, ?_, hg.marks, rfl, rfl⟩
    · rw [opsOf_append, hops]
      exact .declare hg.straight
    · rw [← hops marks, length_opsOf, hg.pc, length_append, Nat.add_assoc]

theorem leading_cons : leading (d :: ds) ((name, v) :: vars) =
      if d.hoisted then leading ds vars else v :: leading ds vars := by
  unfold leading
  cases hd : d.hoisted <;> simp [hd]

theorem leading_subset (h : w ∈ leading ds vars) : w ∈ vars.map Prod.snd := by
  obtain ⟨p, hp, rfl⟩ := mem_map.1 h
  exact mem_map_of_mem (of_mem_zip (mem_filter.1 hp).1).2

theorem leading_eq_nil (h : ∀ d ∈ ds, d.hoisted = true) : leading ds vars = [] := by
  unfold leading
  rw [map_eq_nil_iff, filter_eq_nil_iff]
  intro p hp
  simp [h p.1 (of_mem_zip hp).1]

theorem genDecl_built (hc : Describes Γ is c)
    (hreg : (Stmt.decl d).Regular Γ.core is (some hoisted))
    (hall : hoisted = true → ∀ e ∈ ds, e.hoisted = true) (h : genDecl d c s = .done () code s')
    (hscopes : s.scopes = scope :: rest) (hw : Waiting scope (d :: ds) vars)
    (hs : Scoped Γ χ (leading (d :: ds) vars) s.scopes s.localCount)
    (hk : Completes Γ Λ marks s code s' []) :
    ∃ scope' vars', s'.scopes = scope' :: rest ∧ scope'.region = scope.region ∧
      scope'.staticSize = scope.staticSize ∧ Waiting scope' ds vars' ∧
      Scoped Γ χ (leading ds vars') s'.scopes s'.localCount ∧
      Built Γ Λ marks χ (leading (d :: ds) vars) s code (leading ds vars') s' [] [] [] [] := by
  obtain ⟨hplace, hallowed, hinit⟩ := hreg
  cases hplace
  obtain ⟨v, vars', s1, rfl, hty, hvalue, hle, hs'⟩ := genDecl_done h hscopes hw
  rw [hscopes] at hs
  have howned : v ∈ scope.owned := hw.owned _ mem_cons_self
  have hvty : v.ty.Allowed Γ.core := hty ▸ hallowed
  have hnew : v ∉ leading ds vars' := fun hmem =>
    (nodup_cons.1 hw.slots).1 (leading_subset hmem)
  -- the state in which the value is evaluated
  have hs0 := hs.setPending vars'.reverse
  have hbuilt : s1.scopes = { scope with pending := vars'.reverse } :: rest ∧
      Built Γ Λ marks χ (leading (d :: ds) ((d.name, v) :: vars')) s code (leading ds vars') s1
        [] [] [] [] := by
    have hk1 := hk.part (fun _ => id) rfl hle
    cases hd : d.hoisted with
    | true =>
      have hnil : leading ds vars' = [] := leading_eq_nil (hall hd)
      rw [leading_cons, if_pos hd, hnil] at hs0 ⊢
      obtain ⟨_, rfl, hg⟩ := genDeclValue_hoisted hc hd hinit (hs.mem_vars howned) hvty hvalue hs0
        hk1.constants hk1.slots
      exact ⟨hg.scopes, .straight hg.straight, hg.slots, hg.pc, hg.marks, rfl, rfl⟩
    | false =>
      rw [leading_cons, if_neg (by rw [hd]; exact Bool.false_ne_true)] at hs0 ⊢
      obtain ⟨hscopes1, hb⟩ := genDeclValue_leading hc hd hinit hvty hvalue hs0
        (hk1.part (fun _ => id) rfl (.refl _))
      exact ⟨hscopes1, hb.structured, hb.slots, hb.pc, hb.marks, rfl, rfl⟩
  obtain ⟨hscopes1, hb⟩ := hbuilt
  have heq := hs' hscopes1
  subst heq
  refine ⟨_, vars', rfl, rfl, rfl, hw.tail _, ?_, ⟨hb.structured, hb.slots, hb.pc, hb.marks, rfl, rfl⟩⟩
  refine Scoped.reveal (hs0.mono hb.slots) (fun w hmem => ?_) howned hnew
  rw [leading_cons]
  split
  · exact hmem
  · exact mem_cons_of_mem _ hmem

/-! ## Statements of a block -/

theorem itemsRegular_hoisted (h : Stmt.ItemsRegular core is ss true) :
    ∀ d ∈ Stmt.decls ss, d.hoisted = true := by
  induction ss with
  | nil => exact nofun
  | cons stmt ss ih =>
    obtain ⟨hstmt, hrest⟩ := h
    intro d hd
    cases stmt with
    | decl d' =>
      rcases mem_cons.1 hd with rfl | hd
      · exact (Option.some.inj hstmt.1).symm
      · exact ih hrest d hd
    | _ => exact ih hrest d hd

/-- The code of the statement is structured, wherever it stands. -/
def StmtBuilds (Γ : Linkage) (is : Expr → Prop) (Λ : Labels) (marks : List (String × Nat))
    (c : Context) (stmt : Stmt) : Prop :=
  ∀ (place : Option Bool) (χ : Chain) (block : Nat), stmt.declares? = none →
    stmt.Regular Γ.core is place → χ.head?.bind Region.block = some block →
    Builds Γ Λ marks c χ (genStmt stmt) (stmt.mentions block) stmt.blocks

theorem genStmts_built (hp : Placed Γ is Λ marks c)
    (ih : ∀ stmt ∈ ss, StmtBuilds Γ is Λ marks c stmt)
    (hreg : Stmt.ItemsRegular Γ.core is ss hoisted)
    (hblock : χ.head?.bind Region.block = some block) (h : genStmts ss c s = .done () code s')
    (hscopes : s.scopes = scope :: rest) (hw : Waiting scope (Stmt.decls ss) vars)
    (hs : Scoped Γ χ (leading (Stmt.decls ss) vars) s.scopes s.localCount)
    (hk : Completes Γ Λ marks s code s' (Stmt.mentionsAll block ss)) :
    ∃ scope', s'.scopes = scope' :: rest ∧ scope'.region = scope.region ∧
      scope'.staticSize = scope.staticSize ∧
      ∃ o l, Built Γ Λ marks χ (leading (Stmt.decls ss) vars) s code [] s'
        (Stmt.mentionsAll block ss) (Stmt.blocksAll ss) o l := by
  induction ss generalizing scope vars s code hoisted with
  | nil =>
    cases h
    exact ⟨scope, hscopes, rfl, rfl, [], [], .nil, le_rfl, rfl, rfl, rfl, rfl⟩
  | cons stmt ss ihs =>
    obtain ⟨hstmt, hrest⟩ := hreg
    obtain ⟨_, code1, s1, code2, h1, h2, rfl⟩ := bind_done h
    have hk' := hk
    have hk1 := hk'.first (Grows.of_done h2)
    have hdone := report_done h1 hk1.errors
    -- one step: the statement, then the rest
    have step : ∀ (o1 : List Extent) (l1 : List Site) {scope1 : Scope}
        {vars1 : List (String × LocalVar)} {hoisted1 : Bool}, Stmt.ItemsRegular Γ.core is ss hoisted1 →
        s1.scopes = scope1 :: rest → scope1.region = scope.region →
        scope1.staticSize = scope.staticSize → Waiting scope1 (Stmt.decls ss) vars1 →
        Scoped Γ χ (leading (Stmt.decls ss) vars1) s1.scopes s1.localCount →
        Built Γ Λ marks χ (leading (Stmt.decls (stmt :: ss)) vars) s code1
          (leading (Stmt.decls ss) vars1) s1 (stmt.mentions block) stmt.blocks o1 l1 →
        ∃ scope', s'.scopes = scope' :: rest ∧ scope'.region = scope.region ∧
          scope'.staticSize = scope.staticSize ∧
          ∃ o l, Built Γ Λ marks χ (leading (Stmt.decls (stmt :: ss)) vars) s (code1 ++ code2) [] s'
            (Stmt.mentionsAll block (stmt :: ss)) (Stmt.blocksAll (stmt :: ss)) o l := by
      intro o1 l1 scope1 vars1 hoisted1 hreg1 hscopes1 hregion hstatic hw1 hs1 hb1
      obtain ⟨scope', hs', hr', hst', o, l, hb⟩ := ihs
        (forall_mem_cons.1 ih).2 hreg1 h2 hscopes1 hw1 hs1
        (hk'.second hb1)
      exact ⟨scope', hs', hr'.trans hregion, hst'.trans hstatic, _, _, hb1.append hb⟩
    by_cases hdecl : ∃ d, stmt = .decl d
    · obtain ⟨d, rfl⟩ := hdecl
      obtain ⟨_, h4, rfl⟩ := rest_done rfl hdone
      have hhoisted := hstmt.1
      cases hhoisted
      have hrest' : Stmt.ItemsRegular Γ.core is ss d.hoisted := by
        simpa [Stmt.endsDeclarations] using hrest
      obtain ⟨scope1, vars1, hscopes1, hregion, hstatic, hw1, hs1, hb1⟩ :=
        genDecl_built hp.describes hstmt (fun hd => itemsRegular_hoisted (hd ▸ hrest')) h4 hscopes hw hs
          (hk1.part (by simp) rfl (.refl _))
      exact step [] [] hrest' hscopes1 hregion hstatic hw1 hs1
        ⟨hb1.structured, hb1.slots, hb1.pc, hb1.marks, rfl, rfl⟩
    · have hnone : stmt.declares? = none := by
        cases stmt with
        | decl d => exact absurd ⟨d, rfl⟩ hdecl
        | _ => rfl
      have hdecls : Stmt.decls (stmt :: ss) = Stmt.decls ss := by
        unfold Stmt.decls
        rw [filterMap_cons, hnone]
      cases hends : stmt.endsDeclarations with
      | false =>
        cases stmt with
        | null span =>
          cases hdone
          exact step [] [] hrest hscopes rfl rfl hw hs ⟨.nil, le_rfl, rfl, rfl, rfl, rfl⟩
        | decl d => cases hnone
        | _ => cases hends
      | true =>
        -- what is declared from here on is hoisted, so no variable waits for its first value
        rw [hends, Bool.or_true] at hrest
        have hnil : leading (Stmt.decls ss) vars = [] := leading_eq_nil (itemsRegular_hoisted hrest)
        rw [hdecls] at hw hs step ⊢
        rw [hnil] at hs
        obtain ⟨hscopes1, o1, l1, hb1⟩ :=
          ih stmt mem_cons_self (some hoisted) χ block hnone hstmt hblock hdone hs hk1
        refine step o1 l1 hrest (hscopes1.trans hscopes) rfl rfl hw ?_ (hnil ▸ hb1)
        rw [hscopes1, hnil]
        exact hs.mono hb1.slots

/-! ## Blocks -/

theorem initVars_emits (scopes : List Scope) (vars : List LocalVar) :
    Emits c scopes (initVars vars) (initOps vars) :=
  .forM fun v _ => .bind (.emit (.pushDefault v.ty)) (.emit (.storeLocal v.slot))

theorem enterScope_done (hstatic : scope.staticSize = scope.region.staticSize)
    (h : (if scope.staticSize ≠ 0 then
        emit (.memStatic scope.staticSize) >>= fun _ => initVars scope.owned >>= f
      else initVars scope.owned >>= f) c s = .done () code s') :
    ∃ code1 code2, code = code1 ++ code2 ∧
      (∀ marks, opsOf marks code1 = scope.region.enterOps) ∧
      f () c { s with pc := s.pc + scope.region.enterOps.length } = .done () code2 s' := by
  have hinit := initVars_emits (c := c) s.scopes scope.owned
  have henter : Emits c s.scopes (if scope.staticSize ≠ 0 then
      emit (.memStatic scope.staticSize) >>= fun _ => initVars scope.owned
      else initVars scope.owned) scope.region.enterOps := by
    unfold Region.enterOps
    rw [← hstatic]
    by_cases hz : scope.staticSize ≠ 0
    · rw [if_pos hz, if_pos hz]
      exact .bind (.emit _) hinit
    · rw [if_neg hz, if_neg hz]
      exact hinit
  have hsplit : ((if scope.staticSize ≠ 0 then
      emit (.memStatic scope.staticSize) >>= fun _ => initVars scope.owned
      else initVars scope.owned) >>= f) c s = .done () code s' := by
    by_cases hz : scope.staticSize ≠ 0
    · rw [if_pos hz] at h ⊢
      rw [Gen.bind_assoc]
      exact h
    · rw [if_neg hz] at h ⊢
      exact h
  obtain ⟨_, code1, s1, code2, h1, h2, rfl⟩ := bind_done hsplit
  obtain ⟨emitted, hemitted, hops⟩ := henter s rfl
  rw [h1] at hemitted
  cases hemitted
  exact ⟨code1, code2, rfl, hops, h2⟩

theorem itemsRegular_allowed (h : Stmt.ItemsRegular core is ss hoisted) :
    ∀ d ∈ Stmt.decls ss, d.ty.Allowed core := by
  induction ss generalizing hoisted with
  | nil => exact nofun
  | cons stmt ss ih =>
    obtain ⟨hstmt, hrest⟩ := h
    intro d hd
    cases stmt with
    | decl d' =>
      rcases mem_cons.1 hd with rfl | hd
      · exact hstmt.2.1
      · exact ih hrest d hd
    | _ => exact ih hrest d hd

theorem leading_sublist (h : vars.length = ds.length) :
    (leading ds vars).Sublist (vars.map Prod.snd) := by
  have hvars : (ds.zip vars).map (fun p => p.2.2) = vars.map Prod.snd := by
    calc (ds.zip vars).map (fun p => p.2.2) = ((ds.zip vars).map Prod.snd).map Prod.snd := by
          rw [map_map]; rfl
      _ = vars.map Prod.snd := by rw [map_snd_zip (Nat.le_of_eq h)]
  rw [← hvars]
  exact filter_sublist.map _

section

variable {names : List (String × Ty)}

section

variable (h : Slotted n names vars)

include h

theorem Slotted.nodup_slots : ((vars.map Prod.snd).map LocalVar.slot).Nodup := by
  have hnodup := h.slots ▸ nodup_range'
  rw [map_map]
  exact List.Nodup.of_map UInt16.toNat (by rwa [map_map])

theorem Slotted.slot_mem (hv : v ∈ vars.map Prod.snd) :
    n ≤ v.slot.toNat ∧ v.slot.toNat < n + vars.length := by
  obtain ⟨p, hp, rfl⟩ := mem_map.1 hv
  have hmem : p.2.slot.toNat ∈ vars.map fun v => v.2.slot.toNat := mem_map_of_mem hp
  rw [h.slots, mem_range'_1] at hmem
  exact hmem

theorem Slotted.tys : (vars.map Prod.snd).map LocalVar.ty = names.map Prod.snd := by
  rw [← h.names, map_map, map_map]
  rfl

theorem Slotted.allowed
    (hallowed : ∀ p ∈ names, p.2.Allowed core) : ∀ v ∈ vars.map Prod.snd, v.ty.Allowed core := by
  intro v hv
  have hty : v.ty ∈ (vars.map Prod.snd).map LocalVar.ty := mem_map_of_mem hv
  rw [h.tys] at hty
  obtain ⟨p, hp, heq⟩ := mem_map.1 hty
  exact heq ▸ hallowed p hp

theorem Slotted.newRegion
    (hallowed : ∀ p ∈ names, p.2.Allowed Γ.core) (hslots : n + vars.length ≤ Γ.slots)
    (hbelow : ∀ v ∈ χ.vars, v.slot.toNat < n) (block : Option Nat) :
    Γ.NewRegion χ ⟨block, vars.map Prod.snd⟩ where
  allowed := h.allowed hallowed
  nodup := h.nodup_slots
  spare := fun v hv => by
    obtain ⟨hlow, hhigh⟩ := h.slot_mem hv
    refine ⟨Nat.lt_of_lt_of_le hhigh hslots, fun u hu heq => ?_⟩
    have hu' := hbelow u hu
    rw [heq] at hu'
    omega

end

end

theorem Slotted.waiting (h : Slotted n (ds.map fun d => (d.name, d.ty)) vars) (block : Option Nat) :
    Waiting ((Scope.empty block).extend false vars) ds vars where
  pending := append_nil _
  names := h.names
  nodup := h.nodup
  slots := h.nodup_slots.of_map _
  owned := fun _ hv => mem_map_of_mem hv

theorem Scoped.enter {id : Nat} (h : Scoped Γ χ [] scopes n)
    (hvars : Slotted n (ds.map fun d => (d.name, d.ty)) vars)
    (hscope : (Scope.empty (some id)).extend false vars = scope)
    (hallowed : ∀ d ∈ ds, d.ty.Allowed Γ.core) :
    Scoped Γ (scope.region :: χ) (leading ds vars) (scope :: scopes) (n + vars.length) where
  chain := congrArg _ h.chain
  static := fun sc hsc => by
    rcases mem_cons.1 hsc with rfl | hsc
    · rw [← hscope]; rfl
    · exact h.static sc hsc
  visible := fun sc hsc name v hv => by
    rcases mem_cons.1 hsc with rfl | hsc
    · rw [← hscope] at hv
      cases hv
    · refine ⟨(h.visible sc hsc name v hv).1, fun hmem => ?_⟩
      -- the variables outside have lower slots
      have hlow := h.below v (h.chain ▸ mem_flatMap.2
        ⟨sc.region, mem_map_of_mem hsc, (h.visible sc hsc name v hv).1⟩)
      have hhigh := (hvars.slot_mem (leading_subset hmem)).1
      omega
  below := fun v hv => by
    rcases mem_append.1 hv with hv | hv
    · rw [← hscope] at hv
      exact (hvars.slot_mem hv).2
    · exact Nat.lt_add_right _ (h.below v hv)
  allowed := fun v hv => by
    rcases mem_append.1 hv with hv | hv
    · rw [← hscope] at hv
      exact hvars.allowed (by simpa using hallowed) v hv
    · exact h.allowed v hv

theorem genBlock_builds (hp : Placed Γ is Λ marks c) {id : Nat} {stmts : List Stmt}
    (ih : ∀ stmt ∈ stmts, StmtBuilds Γ is Λ marks c stmt)
    (hreg : Stmt.ItemsRegular Γ.core is stmts false) :
    Builds Γ Λ marks c χ (genStmt (.block id stmts span)) (Stmt.mentionsAll id stmts)
      ((id, (Stmt.decls stmts).map VarDecl.ty) :: Stmt.blocksAll stmts) := by
  refine .after (.setPlace span) ?_
  intro s code s' h hs hk
  obtain ⟨scope, _, s1, _, h1, h2, rfl⟩ := bind_done h
  have hle1 : s1.Le s' := Grows.of_done h2
  obtain ⟨vars, hvars, -, rfl, rfl, rfl⟩ := declareAll_done h1 (hle1.errors_eq_nil hk.errors)
  generalize hscope : (Scope.empty (some id)).extend false vars = scope at h2
  have howned : scope.owned = vars.map Prod.snd := by rw [← hscope]; rfl
  have hstatic : scope.staticSize = scope.region.staticSize := by rw [← hscope]; rfl
  obtain ⟨enter, _, rfl, henter, h3⟩ := enterScope_done hstatic h2
  obtain ⟨_, h5, rfl⟩ := rest_done rfl h3
  obtain ⟨_, body, s3, _, h6, h7, rfl⟩ := bind_done h5
  obtain ⟨_, h9, rfl⟩ := rest_done rfl h7
  obtain ⟨_, leave, s₅, _, h10, h11, rfl⟩ := bind_done h9
  cases h11
  have hallowed := itemsRegular_allowed hreg
  have hs2 := Scoped.enter hs hvars hscope hallowed
  have hw := hscope ▸ hvars.waiting (some id)
  have hblock : (scope.region :: χ).head?.bind Region.block = some id := by rw [← hscope]; rfl
  have hle3 : s3.Le _ := Grows.of_done h7
  obtain ⟨scope', hscopes', -, -, o, l, hb⟩ := genStmts_built hp ih hreg hblock h6 rfl hw hs2
    (hk.part (by simp; tauto) rfl hle3)
  obtain ⟨emitted, hemitted, hleave⟩ := leaveScope_emits hstatic _ rfl
  rw [h10] at hemitted
  cases hemitted
  have hlen : enter.length = scope.region.enterOps.length := by rw [← henter marks, length_opsOf]
  have hlen' : leave.length = scope.region.leaveOps.length := by
    rw [← hleave marks, length_opsOf]
  have hpc := hb.pc
  dsimp only at hpc
  have hstart := (Nat.le_add_right _ _).trans hb.slots
  have hslots := hk.slots
  have hnew : Γ.NewRegion χ scope.region := by
    rw [← hscope]
    exact hvars.newRegion (by simpa using hallowed) (hb.slots.trans hslots) hs.below (some id)
  refine ⟨by rw [hscopes']; rfl, ⟨id, scope.region :: χ, s.pc + scope.region.enterOps.length,
    s.pc + scope.region.enterOps.length + (opsOf marks body).length⟩ :: o, l, ?_, hstart, ?_,
    hb.marks, hb.sites, ?_⟩
  · simp only [nil_append, append_nil, opsOf_append, henter, hleave, ← append_assoc]
    refine .block scope.region ?_ hnew ?_ hb.structured
    · rw [← hscope]; rfl
    · rw [← hscope]
      exact leading_sublist (by simpa using congrArg length hvars.names)
  · simp only [nil_append, append_nil, length_append, hlen, hlen']
    omega
  · rw [map_cons, hb.extents]
    refine congrArg (· :: _) ?_
    show (id, scope.owned.map LocalVar.ty) = _
    rw [howned, hvars.tys, map_map]
    rfl

/-! ## Statements -/

theorem declares?_of_regular {stmt : Stmt} (h : stmt.Regular core is none) :
    stmt.declares? = none := by
  cases stmt with
  | decl d => cases h.1
  | _ => rfl

theorem genStmt_builds (hp : Placed Γ is Λ marks c) (stmt : Stmt) :
    StmtBuilds Γ is Λ marks c stmt := by
  have hc := hp.describes
  -- the body of a branch or a loop, which is not a declaration
  have inner : ∀ {body : Stmt} {χ : Chain} {block : Nat}, StmtBuilds Γ is Λ marks c body →
      body.Regular Γ.core is none → χ.head?.bind Region.block = some block →
      Builds Γ Λ marks c χ (report (genStmt body)) (body.mentions block) body.blocks :=
    fun ih hreg hblock => (ih none _ _ (declares?_of_regular hreg) hreg hblock).report
  induction stmt using Stmt.induct with
  | decl d => exact nofun
  | expr e =>
    intro place χ block _ hreg _
    exact .after (.setPlace _) (.of_evaluates (genDiscard_evaluates hc hreg))
  | block id stmts span ih =>
    intro place χ block _ hreg _
    exact genBlock_builds hp ih hreg
  | ifThen cond body span ih =>
    intro place χ block _ hreg hblock
    exact .after (.setPlace _) (.ifThen (genCond_evaluates hc hreg.1) (inner ih hreg.2 hblock))
  | ifElse cond body other span ihb iho =>
    intro place χ block _ hreg hblock
    obtain ⟨hcond, hbody, hother⟩ := hreg
    exact .after (.setPlace _) (.ifElse (genCond_evaluates hc hcond) (inner ihb hbody hblock)
      (inner iho hother hblock))
  | whileDo cond body span ih =>
    intro place χ block _ hreg hblock
    exact .after (.setPlace _) (.loop (genCond_evaluates hc hreg.1) (inner ih hreg.2 hblock))
  | doWhile body cond span ih =>
    intro place χ block _ hreg hblock
    refine .after (.setPlace _) ?_
    have htest : Builds.Tests Γ marks c χ (setPlace cond.span >>= fun _ => genCond cond) :=
      .seq (.setPlace cond.span) (genCond_evaluates hc hreg.2)
    have h := Builds.doWhile (inner ih hreg.1 hblock) htest
    simp only [Gen.bind_assoc] at h
    exact h
  | forDo init cond step body span ih =>
    intro place χ block _ hreg hblock
    obtain ⟨hinit, hcond, hstep, hbody⟩ := hreg
    have hturn : Builds Γ Λ marks c χ (report (genStmt body) >>= fun _ => genSteps step)
        (body.mentions block) body.blocks :=
      .before (inner ih hbody hblock) (genSteps_evaluates hc hstep)
    have hinits : Evaluates Γ χ [] marks c (init.forM genDiscard) [] fun _ S' => S' = [] :=
      .forM fun e he => genDiscard_evaluates hc (hinit.of_mem he)
    cases cond with
    | some cond =>
      refine .after (.setPlace _) (.after hinits ?_)
      have h := Builds.loop (genCond_evaluates hc (hcond cond rfl)) hturn
      simp only [Gen.bind_assoc] at h
      exact h
    | none =>
      refine .after (.setPlace _) (.after hinits ?_)
      have h := Builds.forever hturn
      simp only [Gen.bind_assoc] at h
      exact h
  | foreach key value array body span ih =>
    intro place χ block _ hreg hblock
    obtain ⟨hcore, harray, hbody⟩ := hreg
    refine .after (.setPlace _) (genForeach_builds hc hcore harray ?_)
    exact ih none χ block (declares?_of_regular hbody) hbody hblock
  | jump label span =>
    intro place χ block _ _ _
    exact .after (.setPlace _) (genJump_builds hp)
  | label name span =>
    intro place χ block _ _ hblock
    exact .after (.setPlace _) (genLabel_builds hp hblock)
  | ret value span =>
    intro place χ block _ hreg _
    exact .after (.setPlace _) (genReturn_builds hc hreg)
  | state name span =>
    intro place χ block _ _ _
    exact .after (.setPlace _) (genState_builds hc)
  | null span =>
    intro place χ block _ _ _
    exact .of_evaluates (.setPlace _)

end EventScript.Compile
