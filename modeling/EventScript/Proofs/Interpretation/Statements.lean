import EventScript.Proofs.Interpretation.Expressions

/-!
# The code of statements follows their interpretation

`genStmt_performs`: a machine that runs the code of a statement does what the interpretation does,
and is then at the end of the code or about to leave the function. The statements of a block are in
`genStmts_follows`, since declarations change what the names after them stand for.

`Bench.Runs` is for statements what `Bench.Computes` is for expressions: a statement need not come to
the end of its code. The operand stack is empty before and after it. A loop has as many turns as the
bound allows, and a machine takes at least a step in each, that of the checkpoint.
-/

namespace EventScript.Interp

open List

open Compile Machine

set_option synthInstance.maxSize 1000

variable {ω β : Type}

namespace Bench

/-- Where the machine is after a statement: at the end of its code, or at the end of the function. -/
def After (B : Bench ω) (scopes : List Compile.Scope) (pc : Nat) :
    Flow → Store ω → Machine → ω → Prop
  | .next => B.Placed pc scopes []
  | .returned v => fun σ M w =>
    Agrees B.names σ M w ∧ Leaving B.module B.callers B.context.ret v M

/-- Where the machine is after a turn of a loop that starts at `top`. -/
def Turned (B : Bench ω) (scopes : List Compile.Scope) (top pc : Nat) :
    Option Flow → Store ω → Machine → ω → Prop
  | none => B.Placed top scopes []
  | some flow => B.After scopes pc flow

/-- The code of the action does what the interpretation does. What holds then can depend on where
the code ends. -/
def Runs (B : Bench ω) (scopes : List Compile.Scope) (x : Gen Unit) (S : List Value)
    (i : Interp ω β) (Q : Nat → β → Store ω → Machine → ω → Prop) : Prop :=
  ∀ ⦃s code s'⦄, x B.context s = .done () code s' → s'.errors = [] → s.scopes = scopes →
    Apart scopes s.localCount → B.Fits s code s' → Made scopes s code s' ∧
    ∀ ⦃σ M w⦄, B.Placed s.pc scopes S σ M w → B.Follows (i.run σ) (Q s'.pc) M w

abbrev Performs (B : Bench ω) (scopes : List Compile.Scope) (x : Gen Unit) (i : Interp ω Flow) :
    Prop :=
  B.Runs scopes x [] i (B.After scopes)

abbrev Tests (B : Bench ω) (scopes : List Compile.Scope) (x : Gen Unit) (t : Interp ω Bool) : Prop :=
  B.Computes scopes x [] t fun _ b S' => ∃ v, S' = [v] ∧ v.truthy = b

variable {B : Bench ω} {scopes : List Compile.Scope}

theorem Fits.tail {code : Code} (h : B.Fits s (.op op place :: code) s') :
    B.Fits { s with pc := s.pc + 1 } code s' where
  constants := h.constants
  slots := h.slots
  code := h.code.tail

theorem Made.cons (h : Made scopes { s with pc := s.pc + 1 } code s') :
    Made scopes s (.op op place :: code) s' where
  scopes := h.scopes
  pc := by
    have := h.pc
    dsimp only at this
    rw [this, length_cons]
    omega
  count := h.count

namespace Runs

theorem report (h : B.Runs scopes x S i Q) : B.Runs scopes (Gen.report x) S i Q :=
  fun _ _ _ hx he hs hapart hfits => h (report_done hx he) he hs hapart hfits

theorem bind [hgrows : ∀ a, Gen.Grows (f a)]
    (hx : B.Computes scopes x S i R) (hf : ∀ a b S, R a b S → B.Runs scopes (f a) S (j b) Q) :
    B.Runs scopes (x >>= f) S (i >>= j) Q := by
  intro s code s' hdone he hs hapart hfits
  obtain ⟨a, code1, s1, code2, h1, h2, rfl⟩ := Gen.bind_done hdone
  have hle : s1.Le s' := (hgrows a).of_done h2
  obtain ⟨hmade1, ⟨b, S1, hR⟩, hrun1⟩ := hx h1 hs hapart (hfits.first hle)
  have hrest : ∀ b S1, R a b S1 → _ := fun b S1 hR =>
    hf a b S1 hR h2 he hmade1.scopes (hapart.mono hmade1.count) (hfits.second hmade1.pc)
  refine ⟨hmade1.trans (hrest b S1 hR).1, fun σ M w hM => Follows.bind (hrun1 hM) ?_⟩
  rintro b σ' M' w' ⟨S1, hR, hplaced⟩
  exact (hrest b S1 hR).2 hplaced

theorem skip {x : Gen α} [∀ a, Gen.Grows (f a)] (hx : B.Passes scopes x S P)
    (hf : ∀ a S, P a S → B.Runs scopes (f a) S i Q) : B.Runs scopes (x >>= f) S i Q :=
  bind hx fun a _ S h => hf a S h

theorem context (h : B.Runs scopes (f B.context) S i Q) :
    B.Runs scopes (Gen.context >>= f) S i Q := by
  intro s code s' hdone he hs hapart hfits
  obtain ⟨_, h2, rfl⟩ := Gen.rest_done rfl hdone
  exact h h2 he hs hapart hfits

theorem fail {span : Span} : B.Runs scopes (Gen.fail e span) S i Q := nofun

theorem ite [Decidable p] (hx : p → B.Runs scopes x S i Q)
    (hy : ¬p → B.Runs scopes y S i Q) : B.Runs scopes (if p then x else y) S i Q := by
  by_cases h : p
  · rw [if_pos h]; exact hx h
  · rw [if_neg h]; exact hy h

theorem of_computes {b : γ → β} (hx : B.Computes scopes x [] j R) (hR : ∀ c S, R () c S → S = [])
    (hQ : ∀ c pc σ M w, B.Placed pc scopes [] σ M w → Q pc (b c) σ M w) :
    B.Runs scopes x [] (j >>= fun c => pure (b c)) Q := by
  intro s code s' hdone he hs hapart hfits
  obtain ⟨hmade, -, hrun⟩ := hx hdone hs hapart hfits
  refine ⟨hmade, fun σ M w hM => Follows.bind (hrun hM) ?_⟩
  rintro c σ' M' w' ⟨S', hc, hplaced⟩
  obtain rfl := hR c S' hc
  exact .here (hQ c _ σ' M' w' hplaced)

/-- A statement comes first, and nothing after it if it returns. -/
theorem after {i : Interp ω Flow} (hx : B.Performs scopes x i)
    (hy : B.Runs scopes y [] (j .next) Q) (hj : ∀ v, ∃ b, j (.returned v) = pure b ∧
      ∀ pc σ M w, B.After scopes pc (.returned v) σ M w → Q pc b σ M w)
    [hgrows : Gen.Grows y] : B.Runs scopes (x >>= fun _ => y) [] (i >>= j) Q := by
  intro s code s' hdone he hs hapart hfits
  obtain ⟨_, code1, s1, code2, h1, h2, rfl⟩ := Gen.bind_done hdone
  have hle : s1.Le s' := hgrows.of_done h2
  obtain ⟨hmade1, hrun1⟩ := hx h1 (hle.errors_eq_nil he) hs hapart (hfits.first hle)
  obtain ⟨hmade2, hrun2⟩ := hy h2 he hmade1.scopes (hapart.mono hmade1.count)
    (hfits.second hmade1.pc)
  refine ⟨hmade1.trans hmade2, fun σ M w hM => Follows.bind (hrun1 hM) fun flow σ' M' w' h => ?_⟩
  cases flow with
  | next => exact hrun2 h
  | returned v =>
    obtain ⟨b, hb, hQ⟩ := hj v
    rw [hb]
    exact .here (hQ _ σ' M' w' h)

theorem branch (hcond : B.Tests scopes x t) (hy : B.Runs scopes y [] i Q)
    (hQ : ∀ pc σ M w, B.Placed pc scopes [] σ M w → Q pc b σ M w) [Gen.Grows y] :
    B.Runs scopes (x >>= fun _ => Gen.skipping .jumpIfFalse y) []
      (t >>= fun c => if c then i else pure b) Q := by
  intro s code s' hdone he hs hapart hfits
  obtain ⟨_, code1, s1, _, h1, h2, rfl⟩ := Gen.bind_done hdone
  obtain ⟨code2, target, h3, htarget, rfl⟩ := skipping_done h2
  obtain ⟨hmade1, -, hrun1⟩ := hcond h1 hs hapart (hfits.first (Gen.Grows.of_done h2))
  have hfits2 := hfits.second hmade1.pc
  obtain ⟨hmade2, hrun2⟩ := hy h3 he hmade1.scopes (hapart.mono hmade1.count) hfits2.tail
  refine ⟨hmade1.trans hmade2.cons, fun σ M w hM => Follows.bind (hrun1 hM) ?_⟩
  rintro c σ' M' w' ⟨S, ⟨v, rfl, rfl⟩, locals, hat⟩
  refine Leads.bind (hat.jumpIfFalse hfits2.code.head) fun M w hM => ?_
  cases htrue : v.truthy with
  | true =>
    rw [htrue] at hM
    exact hrun2 ⟨_, hM⟩
  | false =>
    rw [htrue] at hM
    exact .here (hQ _ _ _ _ ⟨_, htarget ▸ hM⟩)

theorem choose {cond : Gen Unit}
    (hcond : B.Tests scopes cond t) (hx : B.Performs scopes x i) (hy : B.Performs scopes y j)
    [Gen.Grows x] [Gen.Grows y] :
    B.Performs scopes (cond >>= fun _ => Gen.choosing .jumpIfFalse x y)
      (t >>= fun c => if c then i else j) := by
  intro s code s' hdone he hs hapart hfits
  obtain ⟨_, code1, s1, _, h1, h2, rfl⟩ := Gen.bind_done hdone
  obtain ⟨a, s2, b, middle, target, h3, h4, hmiddle, htarget, rfl⟩ := choosing_done h2
  obtain ⟨hmade1, -, hrun1⟩ := hcond h1 hs hapart (hfits.first (Gen.Grows.of_done h2))
  have hfits1 := hfits.second hmade1.pc
  have hle : s2.Le s' := (State.Le.of_eq rfl rfl rfl rfl (Nat.le_succ _) :
    s2.Le { s2 with pc := s2.pc + 1 }).trans (Gen.Grows.of_done h4)
  have hapart1 := hapart.mono hmade1.count
  obtain ⟨hmade2, hrun2⟩ := hx h3 (hle.errors_eq_nil he) hmade1.scopes hapart1
    (hfits1.tail.first hle)
  have hfits2 := hfits1.tail.second hmade2.pc
  obtain ⟨hmade3, hrun3⟩ := hy h4 he hmade2.scopes (hapart1.mono hmade2.count) hfits2.tail
  refine ⟨hmade1.trans (hmade2.trans hmade3.cons).cons, fun σ M w hM =>
    Follows.bind (hrun1 hM) ?_⟩
  rintro c σ' M' w' ⟨S, ⟨v, rfl, rfl⟩, locals, hat⟩
  refine Leads.bind (hat.jumpIfFalse hfits1.code.head) fun M w hM => ?_
  cases htrue : v.truthy with
  | true =>
    rw [htrue] at hM
    -- the jump over the alternative
    refine (hrun2 ⟨_, hM⟩).bind_post fun flow σ M w hflow => ?_
    cases flow with
    | next =>
      obtain ⟨locals, hat⟩ := hflow
      exact (hat.jump hfits2.code.head).mono fun M w hM => ⟨locals, htarget ▸ hM⟩
    | returned v => exact .here hflow
  | false =>
    rw [htrue] at hM
    exact hrun3 ⟨_, hmiddle ▸ hM⟩

theorem jump (h : target.toNat = top) :
    B.Runs scopes (Gen.emit (.jump target)) [] (pure none) (B.Turned scopes top) := by
  intro s code s' hdone he hs hapart hfits
  cases hdone
  refine ⟨⟨hs, rfl, le_rfl⟩, ?_⟩
  rintro σ M w ⟨locals, hat⟩
  exact (hat.jump hfits.code.head).mono fun M w hM => ⟨_, h ▸ hM⟩

theorem jumpIfTrue (h : target.toNat = top) (hcond : B.Tests scopes x t) :
    B.Runs scopes (x >>= fun _ => Gen.emit (.jumpIfTrue target)) []
      (t >>= fun c => if c then pure none else pure (some .next)) (B.Turned scopes top) := by
  intro s code s' hdone he hs hapart hfits
  obtain ⟨_, code1, s1, _, h1, h2, rfl⟩ := Gen.bind_done hdone
  obtain ⟨hmade1, -, hrun1⟩ := hcond h1 hs hapart (hfits.first (Gen.Grows.of_done h2))
  have hfits1 := hfits.second hmade1.pc
  cases h2
  refine ⟨hmade1.trans ⟨hmade1.scopes, rfl, le_rfl⟩, fun σ M w hM =>
    Follows.bind (hrun1 hM) ?_⟩
  rintro c σ' M' w' ⟨S, ⟨v, rfl, rfl⟩, locals, hat⟩
  refine Leads.bind (hat.jumpIfTrue hfits1.code.head) fun M w hM => ?_
  cases htrue : v.truthy with
  | true =>
    rw [htrue] at hM
    exact .here ⟨_, h ▸ hM⟩
  | false =>
    rw [htrue] at hM
    exact .here ⟨_, hM⟩

end Runs

/-! ## Loops -/

variable [hB : Fact B.calling]

theorem loop_follows {calling : Prop} (hcalling : calling) {turn : Interp ω (Option Flow)}
    (h : ∀ σ M w, P σ M w →
      (∃ M' w', step env m M w = .next M' w' ∧
        Interp.Follows calling env m n (turn.run σ) (fun | none => P | some flow => Q flow) M' w') ∨
      ∃ why M' w', step env m M w = .halt why M' w' ∧ why.cuts = true) (hk : k ≤ n) (hP : P σ M w) :
    Interp.Follows calling env m k ((loop turn k).run σ) Q M w := by
  induction k generalizing σ M w with
  | zero => exact Leads.here ⟨hcalling, .zero⟩
  | succ k ih =>
    obtain ⟨M', w', hstep, hturn⟩ | ⟨why, M', w', hstep, hcut⟩ := h σ M w hP
    · refine .later hstep (.bind (hturn.of_le (Nat.le_of_succ_le hk)) fun r σ M w hr => ?_)
      cases r with
      | none => exact ih (Nat.le_of_succ_le hk) hr
      | some flow => exact .here hr
    · exact .cut hcalling hstep hcut

theorem Runs.loop {x : UInt32 → Gen Unit}
    (hx : ∀ top : UInt32, B.Runs scopes (x top) [] i (B.Turned scopes top.toNat)) :
    B.Performs scopes (Gen.here >>= fun top => Gen.emit .checkRun >>= fun _ => x top)
      (Interp.loop i B.setting.turns) := by
  intro s code s' hdone he hs hapart hfits
  obtain ⟨top, _, s1, _, h1, h2, rfl⟩ := Gen.bind_done hdone
  obtain ⟨rfl, rfl, htop⟩ := here_done h1
  obtain ⟨code2, h4, rfl⟩ := Gen.rest_done rfl h2
  obtain ⟨hmade, hrun⟩ := hx top h4 he hs hapart hfits.tail
  refine ⟨hmade.cons, fun σ M w hM => loop_follows hB.out ?_ le_rfl hM⟩
  rintro σ M w ⟨locals, hat⟩
  refine (hat.check hB.out hfits.code.head).imp_left ?_
  rintro ⟨M', hstep, hat'⟩
  refine ⟨M', w, hstep, (hrun ⟨locals, hat'⟩).mono fun r σ M w hr => ?_⟩
  cases r with
  | none => exact htop ▸ hr
  | some flow => exact hr

omit hB in
theorem Runs.turn {i : Interp ω Flow} (h : target.toNat = top)
    (hx : B.Performs scopes x i) (hy : B.Computes scopes y [] j fun _ _ S => S = []) [Gen.Grows y] :
    B.Runs scopes (x >>= fun _ => y >>= fun _ => Gen.emit (.jump target)) []
      (i >>= fun
        | .next => j >>= fun _ => pure none
        | .returned v => pure (some (.returned v))) (B.Turned scopes top) :=
  .after hx (.bind hy fun _ _ _ hS => hS ▸ .jump h) fun _ => ⟨_, rfl, fun _ _ _ _ => id⟩

/-! ## Statements without parts -/

section

variable {span : Span}

theorem genDiscard_computes (h : e.Regular true is) :
    B.Computes scopes (genDiscard e) [] (discard B.setting e) fun _ _ S => S = [] := by
  refine .bind (genExpr_computes h (fun _ _ _ => hB.out) []) fun ty r S hr => ?_
  cases r with
  | none =>
    obtain rfl : ty = .void := hr.gives
    exact .pure hr.stack
  | some v =>
    rw [if_pos hr.gives.1, hr.stack]
    exact Passes.operate rfl rfl

theorem genCond_tests (h : e.Regular true is) : B.Tests scopes (genCond e) (test B.setting e) := by
  unfold genCond test value
  rw [bind_assoc]
  refine .bind (genExpr_computes h (fun _ _ _ => hB.out) []) fun ty r S hr => ?_
  cases r with
  | none =>
    obtain rfl : ty = .void := hr.gives
    exact .fail
  | some v => exact .ite (fun _ => .pure ⟨v, hr.stack, rfl⟩) fun _ => .fail

theorem genInitial_computes (h : e.Regular true is) (hty : ty.Allowed true) :
    B.Computes scopes (genInitial e ty) S (valueAs B.setting ty e) fun _ => OnTop S ty :=
  .bind (genExpr_computes h (fun _ _ _ => hB.out) S) fun _ _ _ hr => coerce_operandAs hr hty

omit hB in
theorem forM_computes [∀ e, Gen.Grows (f e)] {es : List Expr}
    (h : ∀ e ∈ es, B.Computes scopes (f e) [] (discard B.setting e) fun _ _ S => S = []) :
    B.Computes scopes (es.forM f) [] (es.forM (discard B.setting)) fun _ _ S => S = [] := by
  induction es with
  | nil => exact .pure rfl
  | cons e es ih =>
    refine .bind (h e mem_cons_self) fun _ _ S hS => ?_
    rw [hS]
    exact ih (forall_mem_cons.1 h).2

theorem genSteps_computes (h : Expr.AllRegular true is es) :
    B.Computes scopes (genSteps es) [] (es.forM (discard B.setting)) fun _ _ S => S = [] :=
  forM_computes fun e he => .skip (.setPlace e.span) fun _ S hS => by
    rw [hS]
    exact genDiscard_computes (h.of_mem he)

theorem genLabel_performs : B.Performs scopes (genLabel name) (pure .next) := by
  intro s code s' hdone he hs hapart hfits
  obtain ⟨_, h2, rfl⟩ := Gen.rest_done rfl hdone
  split at h2
  · cases h2
    exact ⟨⟨hs, rfl, le_rfl⟩, fun σ M w hM => .here hM⟩
  · obtain ⟨_, h4, rfl⟩ := Gen.rest_done rfl h2
    obtain ⟨_, h6, rfl⟩ := Gen.rest_done rfl h4
    split at h6
    · cases h6
      refine ⟨⟨hs, rfl, le_rfl⟩, ?_⟩
      rintro σ M w ⟨locals, hat⟩
      exact (hat.idle hfits.code.head hB.out).mono fun M w hM => ⟨locals, hM⟩
    · cases h6
      exact ⟨⟨hs, rfl, le_rfl⟩, fun σ M w hM => .here hM⟩

theorem leave_runs (hr : Gives B.context.ret r) (hS : ∀ v, r = some v → S.head? = some v) :
    B.Runs scopes (Gen.leaveFrame >>= fun _ => Gen.emit .ret) S (pure (.returned r))
      (B.After scopes) := by
  refine .skip (leaveFrame_idles B scopes).passes fun _ S1 hS1 => ?_
  rw [hS1]
  intro s code s' hdone he hs hapart hfits
  cases hdone
  refine ⟨⟨hs, rfl, le_rfl⟩, ?_⟩
  rintro σ M w ⟨locals, hat⟩
  exact .here ⟨hat.toAgrees, hr, _, B.function, hat.frames, rfl, B.found, (B.linked hB.out).ret,
    hfits.code.head, hS⟩

theorem genReturn_performs {value : Option Expr} (h : ∀ e ∈ value, e.Regular true is) :
    B.Performs scopes (genReturn value span) (exec B.setting (.ret value span)) := by
  refine .context ?_
  cases value with
  | none =>
    exact .ite (fun hret => leave_runs hret nofun) fun _ => nofun
  | some e =>
    unfold exec
    rw [(B.linked hB.out).setting_ret]
    refine .ite (fun _ => nofun) fun hret => ?_
    have hallowed := (B.linked hB.out).ret_allowed.resolve_left hret
    refine .bind (genInitial_computes (h e rfl) hallowed) ?_
    intro _ v S hv
    exact leave_runs ⟨hret, hv.admits⟩ fun x hx => by rw [hv.stack]; exact hx

theorem returnDefault_performs :
    B.Performs scopes Gen.returnDefault (pure (.returned (result B.context.ret .next))) := by
  refine .context ?_
  unfold result
  by_cases hret : B.context.ret = .void
  · rw [if_pos hret, if_neg (not_not.2 hret)]
    exact leave_runs hret nofun
  · rw [if_neg hret, if_pos hret]
    refine .skip (.operate rfl rfl) fun _ S hS => ?_
    rw [hS]
    exact leave_runs ⟨hret, .default hret⟩ fun x hx => hx

theorem genState_performs :
    B.Performs scopes (genState name span) (changeState B.setting.script name) := by
  refine .context ?_
  cases hi : B.context.names.states.lookup name with
  | none => exact .fail
  | some i =>
    unfold changeState
    rw [(B.linked hB.out).reflects.state name i hi]
    intro s code s' hdone he hs hapart hfits
    obtain ⟨code2, h2, rfl⟩ := Gen.rest_done rfl hdone
    obtain ⟨ops, hops⟩ := returnDefault_emits B scopes
    refine ⟨(Made.of_emits hops h2 hs).1.cons, ?_⟩
    rintro σ M w ⟨locals, hat⟩
    refine .next (hat.step_does hfits.code.head .setState) (Follows.abandoned (.inl hB.out) ?_)
    exact ⟨hat.world.symm, hat.values B.numbered, rfl⟩

end

/-! ## Declarations -/

section

variable {v : LocalVar}

theorem slotsOf_perm (hpending : scope.pending = ((name, v) :: vars).reverse) :
    (slotsOf (scope :: rest)).Perm
      (v.slot.toNat :: slotsOf ({ scope with pending := vars.reverse } :: rest)) := by
  rw [slotsOf_cons, slotsOf_cons, ← cons_append, hpending, reverse_cons]
  refine List.Perm.append_right _ ?_
  rw [← append_assoc, map_append]
  exact perm_append_comm

theorem apart_reveal (h : Apart (scope :: rest) n)
    (hpending : scope.pending = ((name, v) :: vars).reverse) :
    Apart ({ scope with pending := vars.reverse, visible := (name, v) :: scope.visible } :: rest)
      n where
  nodup := (slotsOf_perm hpending).nodup_iff.1 h.nodup
  below := fun k hk => h.below k ((slotsOf_perm hpending).mem_iff.2 hk)
  owned := forall_mem_cons.2 (forall_mem_cons.1 h.owned)
  allowed := by
    obtain ⟨hscope, hrest⟩ := forall_mem_cons.1 h.allowed
    refine forall_mem_cons.2 ⟨fun p hp => hscope p ?_, hrest⟩
    rw [hpending, reverse_cons]
    simp only [cons_append, mem_cons, mem_append] at hp ⊢
    tauto

theorem apart_hide (h : Apart ({ scope with visible := (name, v) :: scope.visible } :: rest) n) :
    Apart (scope :: rest) n ∧ v.slot.toNat ∉ slotsOf (scope :: rest) := by
  obtain ⟨hfree, hnodup⟩ := nodup_cons.1 h.nodup
  obtain ⟨hscope, hrest⟩ := forall_mem_cons.1 h.allowed
  exact ⟨{
    nodup := hnodup
    below := fun k hk => h.below k (mem_cons_of_mem _ hk)
    owned := forall_mem_cons.2 (forall_mem_cons.1 h.owned)
    allowed := forall_mem_cons.2
      ⟨(forall_mem_cons.1 hscope).2, hrest⟩ }, hfree⟩

omit hB in
theorem At.take (h : B.At pc (scope :: rest) locals [] σ M w)
    (hw : Waiting scope (d :: ds) ((d.name, v) :: vars)) :
    ∃ x σ', (take d.name).run σ = .ok (x, σ') ∧ Stored locals (d.name, v) (d.name, x) ∧
      B.At pc ({ scope with pending := vars.reverse } :: rest) locals [] σ' M w := by
  obtain ⟨y, ys, hy, hys, hscopes⟩ := forall₂_cons_left_iff.1 h.shows
  have hwaiting := hy.waiting
  rw [hw.pending, reverse_reverse] at hwaiting
  obtain ⟨q, cells, hq, hcells, heq⟩ := forall₂_cons_left_iff.1 hwaiting
  obtain ⟨name, x⟩ := q
  obtain rfl : name = d.name := hq.name
  have hothers : cells.filter (·.1 ≠ d.name) = cells := by
    refine filter_eq_self.2 fun c hc => decide_eq_true fun hname => ?_
    refine (nodup_cons.1 hw.nodup).1 ?_
    rw [← Mirrors.names hcells, ← hname]
    exact mem_map_of_mem hc
  refine ⟨x, { σ with scopes := ⟨y.declared, cells⟩ :: ys }, ?_, hq, ?_⟩
  · show Interp.take d.name σ = _
    unfold Interp.take
    rw [hscopes]
    dsimp only
    rw [heq, lookup_cons, beq_self_eq_true]
    rw [filter_cons, if_neg (by simp), hothers]
  · refine h.goto h.frames h.locals_length (.cons ⟨hy.declared, ?_⟩ hys) rfl rfl rfl rfl
    rw [reverse_reverse]
    exact hcells

omit hB in
theorem At.reveal (h : B.At pc (scope :: rest) locals [] σ M w) {x : Cell}
    (hx : Stored locals (name, v) (name, x)) : ∃ σ', (reveal name x).run σ = .ok ((), σ') ∧
      B.At pc ({ scope with visible := (name, v) :: scope.visible } :: rest) locals [] σ' M w := by
  obtain ⟨y, ys, hy, hys, hscopes⟩ := forall₂_cons_left_iff.1 h.shows
  refine ⟨{ σ with scopes := { y with declared := (name, x) :: y.declared } :: ys }, ?_, ?_⟩
  · show Interp.reveal name x σ = _
    unfold Interp.reveal
    rw [hscopes]
  · exact h.goto h.frames h.locals_length (.cons ⟨.cons hx hy.declared, hy.waiting⟩ hys) rfl rfl
      rfl rfl

omit hB in
theorem At.storeHidden (h : B.At pc scopes locals [z] σ M w)
    (hops : B.Has pc (pre ++ .storeLocal v.slot :: post))
    (hidle : ∀ op ∈ pre ++ post, B.Idle op) (hslot : v.slot.toNat < B.slots)
    (hfree : v.slot.toNat ∉ slotsOf scopes) :
    B.Leads (fun M w => ∃ locals', locals'[v.slot.toNat]? = some z ∧
      B.At (pc + (pre ++ .storeLocal v.slot :: post).length) scopes locals' [] σ M w) M w := by
  refine (h.idles hops.left fun op hop => hidle op (mem_append_left _ hop)).bind fun M w h1 => ?_
  refine (h1.storeLocal hops.right.head hslot hfree).bind fun M w h2 => ?_
  refine (h2.idles hops.right.tail fun op hop => hidle op (mem_append_right _ hop)).mono
    fun M w h3 => ⟨_, getElem?_set_self (h.locals_length ▸ hslot), ?_⟩
  rw [length_append, length_cons, ← Nat.add_assoc, ← Nat.add_assoc,
    Nat.add_right_comm (pc + pre.length)]
  exact h3

/-- Where the machine is when a variable that no name stands for yet has a value. -/
def Sets (B : Bench ω) (scopes : List Compile.Scope) (v : LocalVar) (pc : Nat) (z : Value)
    (σ : Store ω) (M : Machine) (w : ω) : Prop :=
  ∃ locals, locals[v.slot.toNat]? = some z ∧ v.ty.Admits z ∧ B.At pc scopes locals [] σ M w

omit hB in
theorem Runs.sets {i : Interp ω Value} (hx : B.Computes scopes x [] i fun _ => OnTop [] v.ty)
    (hy : Gen.Emits B.context scopes y (pre ++ .storeLocal v.slot :: post))
    (hidle : ∀ op ∈ pre ++ post, B.Idle op) (hslot : v.slot.toNat < B.slots)
    (hfree : v.slot.toNat ∉ slotsOf scopes) [Gen.Grows y] :
    B.Runs scopes (x >>= fun _ => y) [] i (B.Sets scopes v) := by
  rw [← bind_pure i]
  refine .bind hx fun _ z S hz => ?_
  rw [hz.stack]
  intro s code s' hdone he hs hapart hfits
  obtain ⟨hmade, hops⟩ := Made.of_emits hy hdone hs
  have hcode := hfits.code
  rw [hops] at hcode
  refine ⟨hmade, ?_⟩
  rintro σ M w ⟨locals, hat⟩
  refine (hat.storeHidden hcode hidle hslot hfree).mono ?_
  rintro M w ⟨locals', hvalue, hat'⟩
  rw [← hops B.marks, length_opsOf, ← hmade.pc] at hat'
  exact ⟨locals', hvalue, hz.admits, hat'⟩

omit hB in
theorem storeOps_split (hslot : v.slot.toNat < B.slots) :
    ∃ pre post, storeOps (.localVar v.slot) ty = pre ++ .storeLocal v.slot :: post ∧
      ∀ op ∈ pre ++ post, B.Idle op := by
  unfold storeOps
  split
  · refine ⟨[.memDecr (.localVar v.slot)], [.memIncr (.localVar v.slot)], rfl, ?_⟩
    simp only [cons_append, nil_append, forall_mem_cons]
    exact ⟨hslot, hslot, forall_mem_nil _⟩
  · exact ⟨[], [], rfl, forall_mem_nil _⟩

omit hB in
theorem pushDefault_computes (hty : ty.Allowed true) :
    B.Computes scopes (Gen.emit (.pushDefault ty)) S (pure (.default ty)) fun _ => OnTop S ty := by
  rw [← pure_bind () fun _ => (pure (.default ty) : Interp ω Value)]
  exact .ret (Passes.operate rfl rfl) fun _ _ _ hS =>
    ⟨hS, .default hty.1⟩

theorem genDeclValue_runs (hinit : ∀ e ∈ d.init, e.Regular true is) (hty : v.ty.Allowed true)
    (hslot : v.slot.toNat < B.slots) (hfree : v.slot.toNat ∉ slotsOf scopes) {x : Cell}
    (hx : x.ty = v.ty) (hd : d.hoisted = true ∨ d.init.isSome = true) :
    B.Runs scopes (genDeclValue d v) [] (initial B.setting d x) (B.Sets scopes v) := by
  unfold genDeclValue initial
  cases hh : d.hoisted with
  | true =>
    obtain ⟨pre, post, hsplit, hidle⟩ := storeOps_split hslot
    have hstore : Gen.Emits B.context scopes (Gen.store (.localVar v.slot) v.ty)
        (pre ++ .storeLocal v.slot :: post) := hsplit ▸ Gen.store_emits (.localVar v.slot) v.ty
    rw [if_pos rfl, if_pos rfl, hx]
    cases hi : d.init with
    | some e => exact .sets (genInitial_computes (hinit e hi) hty) hstore hidle hslot hfree
    | none => exact .sets (pushDefault_computes hty) hstore hidle hslot hfree
  | false =>
    rw [if_neg Bool.false_ne_true, hx]
    cases hi : d.init with
    | none =>
      rw [hh, hi] at hd
      exact absurd hd (by decide)
    | some e =>
      have hstore : Gen.Emits B.context scopes (do
          Gen.emit (.storeLocal v.slot)
          if v.ty.hasDynamicSize then Gen.emit (.memIncr (.localVar v.slot)))
          ([] ++ .storeLocal v.slot ::
            if v.ty.hasDynamicSize then [.memIncr (.localVar v.slot)] else []) :=
        .bind (a := [.storeLocal v.slot]) (.emit _) (.ite (fun _ => .emit _) fun _ => .pure)
      refine .sets (genInitial_computes (hinit e hi) hty) hstore ?_ hslot hfree
      split
      · exact forall_mem_cons.2 ⟨hslot, nofun⟩
      · exact nofun

theorem genDeclValue_follows (hinit : ∀ e ∈ d.init, e.Regular true is) (hty : v.ty.Allowed true)
    (hslot : v.slot.toNat < B.slots) (hfree : v.slot.toNat ∉ slotsOf scopes)
    (hdone : genDeclValue d v B.context s = .done () code s') (he : s'.errors = [])
    (hs : s.scopes = scopes) (hapart : Apart scopes s.localCount) (hfits : B.Fits s code s') :
    Made scopes s code s' ∧ ∀ ⦃locals σ M w x⦄, B.At s.pc scopes locals [] σ M w →
      Stored locals (name, v) (name, x) →
      B.Follows ((initial B.setting d x).run σ) (B.Sets scopes v s'.pc) M w := by
  by_cases hd : d.hoisted = true ∨ d.init.isSome = true
  · have hruns : ∀ x : Cell, x.ty = v.ty → _ := fun x hx =>
      genDeclValue_runs hinit hty hslot hfree hx hd hdone he hs hapart hfits
    exact ⟨(hruns ⟨v.ty, .default v.ty⟩ rfl).1, fun locals σ M w x hM hx =>
      (hruns x hx.ty).2 ⟨locals, hM⟩⟩
  · -- the variable keeps the value that it has had from the start of the block
    obtain ⟨hhoisted, hnone⟩ := not_or.1 hd
    have hinit : d.init = none := by simpa using hnone
    unfold genDeclValue at hdone
    rw [if_neg hhoisted, hinit] at hdone
    cases hdone
    refine ⟨⟨hs, rfl, le_rfl⟩, fun locals σ M w x hM hx => ?_⟩
    unfold initial
    rw [hinit]
    rw [if_neg hhoisted]
    exact .here ⟨locals, hx.value, hx.admits, hM⟩

theorem genDecl_follows (hty : d.ty.Allowed true) (hinit : ∀ e ∈ d.init, e.Regular true is)
    (hdone : genDecl d B.context s = .done () code s') (he : s'.errors = [])
    (hscopes : s.scopes = scope :: rest) (hw : Waiting scope (d :: ds) vars)
    (hapart : Apart (scope :: rest) s.localCount) (hfits : B.Fits s code s') :
    ∃ scope' vars', scope'.owned = scope.owned ∧ Waiting scope' ds vars' ∧
      Apart (scope' :: rest) s'.localCount ∧ Made (scope' :: rest) s code s' ∧
      ∀ ⦃σ M w⦄, B.Placed s.pc (scope :: rest) [] σ M w →
        B.Follows ((declare B.setting d).run σ)
          (fun _ => B.Placed s'.pc (scope' :: rest) []) M w := by
  obtain ⟨v, vars', s1, rfl, hvty, hvalue, hle, hs'⟩ := genDecl_done hdone hscopes hw
  have hrevealed := apart_reveal hapart hw.pending
  have hhide : Apart ({ scope with pending := vars'.reverse } :: rest) s.localCount ∧ _ :=
    apart_hide hrevealed
  have hvalue_le := Gen.Grows.of_done hvalue
  have hslot : v.slot.toNat < B.slots := Nat.lt_of_lt_of_le (hrevealed.below _ mem_cons_self)
    (hvalue_le.localCount.trans (hle.localCount.trans hfits.slots))
  obtain ⟨hmade, hfollows⟩ := genDeclValue_follows hinit (hvty ▸ hty) hslot hhide.2 hvalue
    (hle.errors_eq_nil he) rfl hhide.1
    ⟨hle.constants.trans hfits.constants, hle.localCount.trans hfits.slots, hfits.code⟩
  obtain rfl := hs' hmade.scopes
  refine ⟨{ scope with pending := vars'.reverse, visible := (d.name, v) :: scope.visible }, vars',
    rfl, hw.tail _, hrevealed.mono hmade.count, ⟨rfl, hmade.pc, hmade.count⟩, ?_⟩
  rintro σ M w ⟨locals, hat⟩
  obtain ⟨x, σ1, htake, hstored, hat1⟩ := hat.take hw
  unfold declare
  rw [bind_run_ok htake]
  refine Follows.bind (hfollows hat1 hstored) ?_
  rintro z σ2 M w ⟨locals', hz, hadmits, hat2⟩
  obtain ⟨σ3, hreveal, hat3⟩ := hat2.reveal (x := ⟨x.ty, z⟩) ⟨rfl, hstored.ty, hadmits, hz⟩
  rw [hreveal]
  exact .here ⟨locals', hat3⟩

end

/-! ## Statements of a block -/

/-- The code of the statement follows its interpretation, wherever it stands. -/
def StmtPerforms (B : Bench ω) (is : Expr → Prop) (stmt : Stmt) : Prop :=
  ∀ (place : Option Bool) (scopes : List Compile.Scope), stmt.declares? = none →
    stmt.Regular true is place → stmt.jumps = false →
    B.Performs scopes (genStmt stmt) (exec B.setting stmt)

theorem genItem_follows (ih : B.StmtPerforms is stmt) (hreg : stmt.Regular true is (some hoisted))
    (hjumps : stmt.jumps = false)
    (hdone : genStmt stmt B.context s = .done () code s') (he : s'.errors = [])
    (hscopes : s.scopes = scope :: rest) (hw : Waiting scope (Stmt.decls (stmt :: ss)) vars)
    (hapart : Apart (scope :: rest) s.localCount) (hfits : B.Fits s code s') :
    ∃ scope' vars', scope'.owned = scope.owned ∧ Waiting scope' (Stmt.decls ss) vars' ∧
      Apart (scope' :: rest) s'.localCount ∧ Made (scope' :: rest) s code s' ∧
      ∀ ⦃σ M w⦄, B.Placed s.pc (scope :: rest) [] σ M w →
        B.Follows ((exec B.setting stmt).run σ) (B.After (scope' :: rest) s'.pc) M w := by
  cases hdecl : stmt.declares? with
  | none =>
    have hdecls : Stmt.decls (stmt :: ss) = Stmt.decls ss := by
      unfold Stmt.decls
      rw [filterMap_cons, hdecl]
    obtain ⟨hmade, hrun⟩ := ih _ _ hdecl hreg hjumps hdone he hscopes hapart hfits
    exact ⟨scope, vars, rfl, hdecls ▸ hw, hapart.mono hmade.count, hmade, hrun⟩
  | some d =>
    obtain rfl : stmt = .decl d := by
      cases stmt with
      | decl d' => cases hdecl; rfl
      | _ => cases hdecl
    obtain ⟨_, h2, rfl⟩ := Gen.rest_done rfl hdone
    obtain ⟨scope', vars', howned, hw', hapart', hmade, hrun⟩ :=
      genDecl_follows hreg.2.1 hreg.2.2 h2 he hscopes hw hapart
        ⟨hfits.constants, hfits.slots, hfits.code⟩
    refine ⟨scope', vars', howned, hw', hapart', ⟨hmade.scopes, hmade.pc, hmade.count⟩, ?_⟩
    intro σ M w hM
    exact Follows.bind (hrun hM) fun _ σ M w h => .here h

theorem genStmts_follows (ih : ∀ stmt ∈ ss, B.StmtPerforms is stmt)
    (hreg : Stmt.ItemsRegular true is ss hoisted) (hjumps : Stmt.anyJumps ss = false)
    (hdone : genStmts ss B.context s = .done () code s') (he : s'.errors = [])
    (hscopes : s.scopes = scope :: rest) (hw : Waiting scope (Stmt.decls ss) vars)
    (hapart : Apart (scope :: rest) s.localCount) (hfits : B.Fits s code s') :
    ∃ scope', scope'.owned = scope.owned ∧ Apart (scope' :: rest) s'.localCount ∧
      Made (scope' :: rest) s code s' ∧
      ∀ ⦃σ M w⦄, B.Placed s.pc (scope :: rest) [] σ M w →
        B.Follows ((execAll B.setting ss).run σ) (B.After (scope' :: rest) s'.pc) M w := by
  induction ss generalizing scope vars s code hoisted with
  | nil =>
    cases hdone
    exact ⟨scope, rfl, hapart, ⟨hscopes, rfl, le_rfl⟩, fun σ M w hM => .here hM⟩
  | cons stmt ss ihs =>
    obtain ⟨hstmt, hrest⟩ := hreg
    obtain ⟨hjump, hjumps⟩ := Bool.or_eq_false_iff.1 hjumps
    obtain ⟨_, code1, s1, code2, h1, h2, rfl⟩ := Gen.bind_done hdone
    have hle : s1.Le s' := Gen.Grows.of_done h2
    obtain ⟨scope1, vars1, howned1, hw1, hapart1, hmade1, hrun1⟩ := genItem_follows
      (ih stmt mem_cons_self) hstmt hjump (report_done h1 (hle.errors_eq_nil he))
      (hle.errors_eq_nil he) hscopes hw hapart (hfits.first hle)
    obtain ⟨scope2, howned2, hapart2, hmade2, hrun2⟩ := ihs
      (forall_mem_cons.1 ih).2 hrest hjumps h2 hmade1.scopes hw1
      hapart1 (hfits.second hmade1.pc)
    refine ⟨scope2, howned2.trans howned1, hapart2, hmade1.trans hmade2, fun σ M w hM => ?_⟩
    refine Follows.bind (hrun1 hM) fun flow σ M w hflow => ?_
    cases flow with
    | next => exact hrun2 hflow
    | returned v => exact .here hflow

/-! ## Blocks -/

section

variable {names : List (String × Ty)}

theorem slotsOf_extend : slotsOf ((Scope.empty block).extend visible vars :: scopes) =
      (vars.map fun p => p.2.slot.toNat).reverse ++ slotsOf scopes := by
  rw [slotsOf_cons]
  cases visible <;> simp [Scope.extend, Scope.empty, map_reverse]

theorem apart_enter (h : Apart scopes n) (hvars : Slotted n names vars)
    (hallowed : ∀ p ∈ names, p.2.Allowed true) (block : Option Nat) (visible : Bool) :
    Apart ((Scope.empty block).extend visible vars :: scopes) (n + vars.length) := by
  have hbelow : ∀ v ∈ vars.map Prod.snd, v.slot.toNat < n + vars.length := fun v hv =>
    (hvars.slot_mem hv).2
  refine ⟨?_, fun k hk => ?_, forall_mem_cons.2 ⟨hbelow, fun sc hsc v hv => ?_⟩,
    forall_mem_cons.2 ⟨fun p hp => ?_, h.allowed⟩⟩
  · rw [slotsOf_extend, hvars.slots]
    refine nodup_append.2 ⟨nodup_reverse.2 nodup_range', h.nodup, fun a ha b hb => ?_⟩
    have hlow := left_le_of_mem_range' (mem_reverse.1 ha)
    have hhigh := h.below b hb
    omega
  · rw [slotsOf_extend, hvars.slots] at hk
    rcases mem_append.1 hk with hk | hk
    · exact (mem_range'_1.1 (mem_reverse.1 hk)).2
    · exact Nat.lt_add_right _ (h.below k hk)
  · exact Nat.lt_add_right _ (h.owned sc hsc v hv)
  · refine hvars.allowed hallowed p.2 (mem_map_of_mem ?_)
    cases visible <;> simpa [Scope.extend, Scope.empty] using hp

omit hB in
theorem At.initVars {vars : List LocalVar} (h : B.At pc scopes locals [] σ M w)
    (hops : B.Has pc (initOps vars)) (hnodup : (vars.map LocalVar.slot).Nodup)
    (hslots : ∀ v ∈ vars, v.slot.toNat < B.slots ∧ v.slot.toNat ∉ slotsOf scopes) :
    B.Leads (fun M w => ∃ locals',
      (∀ v ∈ vars, locals'[v.slot.toNat]? = some (.default v.ty)) ∧
      (∀ k, (∀ v ∈ vars, v.slot.toNat ≠ k) → locals'[k]? = locals[k]?) ∧
      B.At (pc + (initOps vars).length) scopes locals' [] σ M w) M w := by
  induction vars generalizing pc locals M w with
  | nil => exact .here ⟨locals, nofun, fun _ _ => rfl, h⟩
  | cons v vars ih =>
    obtain ⟨hnew, hnodup⟩ := nodup_cons.1 hnodup
    obtain ⟨⟨hslot, hfree⟩, hslots⟩ := forall_mem_cons.1 hslots
    refine (h.operate hops.head rfl rfl).bind fun M w h1 => ?_
    refine (h1.storeLocal hops.tail.head hslot hfree).bind fun M w h2 => ?_
    refine (ih h2 hops.tail.tail hnodup hslots).mono ?_
    rintro M w ⟨locals', hvalues, hkeeps, h3⟩
    have hother : ∀ u ∈ vars, u.slot.toNat ≠ v.slot.toNat := fun u hu heq =>
      hnew (UInt16.toNat_inj.1 heq ▸ mem_map_of_mem hu)
    refine ⟨locals', forall_mem_cons.2 ⟨?_, hvalues⟩, fun k hk => ?_, ?_⟩
    · rw [hkeeps _ hother]
      exact getElem?_set_self (h.locals_length ▸ hslot)
    · obtain ⟨hv, hk⟩ := forall_mem_cons.1 hk
      rw [hkeeps k hk, getElem?_set_ne hv]
    · have hlen : (initOps (v :: vars)).length = (initOps vars).length + 2 := rfl
      rw [hlen, Nat.add_comm _ 2, ← Nat.add_assoc]
      exact h3

variable {ds : List VarDecl}

theorem mirrors_defaults (hnames : vars.map (fun v => (v.1, v.2.ty)) = ds.map fun d =>
    (d.name, d.ty))
    (hvalues : ∀ v ∈ vars.map Prod.snd, values[v.slot.toNat]? = some (.default v.ty))
    (hallowed : ∀ d ∈ ds, d.ty.Allowed true) :
    Mirrors values vars (ds.map fun d => (d.name, ⟨d.ty, .default d.ty⟩)) := by
  induction vars generalizing ds with
  | nil =>
    cases ds with
    | nil => exact .nil
    | cons d ds => cases hnames
  | cons v vars ih =>
    cases ds with
    | nil => cases hnames
    | cons d ds =>
      obtain ⟨hv, hvars⟩ := cons.inj hnames
      obtain ⟨hname, hty⟩ := Prod.mk.inj hv
      obtain ⟨hvalue, hvalues⟩ := forall_mem_cons.1 hvalues
      obtain ⟨hd, hds⟩ := forall_mem_cons.1 hallowed
      refine .cons ⟨hname.symm, hty.symm, ?_, ?_⟩ (ih hvars hvalues hds)
      · rw [hty]; exact .default hd.1
      · rw [hvalue, hty]

omit hB in
theorem At.openScope (h : B.At pc scopes locals [] σ M w)
    (hvars : Slotted n (ds.map fun d => (d.name, d.ty)) vars)
    (hvalues : ∀ v ∈ vars.map Prod.snd, locals[v.slot.toNat]? = some (.default v.ty))
    (hallowed : ∀ d ∈ ds, d.ty.Allowed true) (block : Option Nat) :
    B.At pc ((Scope.empty block).extend false vars :: scopes) locals []
      { σ with scopes := ⟨[], ds.map fun d => (d.name, ⟨d.ty, .default d.ty⟩)⟩ :: σ.scopes } M w := by
  refine h.goto h.frames h.locals_length (.cons ⟨.nil, ?_⟩ h.shows) rfl rfl rfl rfl
  have hpending : ((Scope.empty block).extend false vars).pending.reverse = vars := by
    simp [Scope.extend, Scope.empty]
  rw [hpending]
  exact mirrors_defaults hvars.names hvalues hallowed

omit hB in
theorem At.enterBlock (block : Option Nat) (h : B.At pc scopes locals [] σ M w)
    (hapart : Apart scopes n) (hvars : Slotted n (ds.map fun d => (d.name, d.ty)) vars)
    (hallowed : ∀ d ∈ ds, d.ty.Allowed true) (hslots : n + vars.length ≤ B.slots)
    (hops : B.Has pc ((Scope.empty block).extend false vars).region.enterOps) :
    B.Leads (B.Placed (pc + ((Scope.empty block).extend false vars).region.enterOps.length)
      ((Scope.empty block).extend false vars :: scopes) []
      { σ with scopes := ⟨[], ds.map fun d => (d.name, ⟨d.ty, .default d.ty⟩)⟩ :: σ.scopes }) M w := by
  refine (h.idles hops.left ?_).bind fun M w h1 => ?_
  · split
    · exact forall_mem_cons.2 ⟨trivial, nofun⟩
    · exact nofun
  refine (h1.initVars hops.right hvars.nodup_slots fun v hv => ?_).mono ?_
  · obtain ⟨hlow, hhigh⟩ := hvars.slot_mem hv
    refine ⟨Nat.lt_of_lt_of_le hhigh hslots, fun hmem => ?_⟩
    have := hapart.below _ hmem
    omega
  rintro M w ⟨locals', hvalues, -, h2⟩
  have h3 := h2.openScope hvars hvalues hallowed block
  rw [Nat.add_assoc, ← length_append] at h3
  exact ⟨locals', h3⟩

omit hB in
theorem At.leaveBlock (h : B.At pc (scope :: scopes) locals [] σ M w) (hops : B.Has pc ops)
    (hidle : ∀ op ∈ ops, B.Idle op) :
    B.Leads (B.Placed (pc + ops.length) scopes [] { σ with scopes := σ.scopes.tail }) M w := by
  refine (h.idles hops hidle).mono fun M w h => ⟨locals,
    h.goto h.frames h.locals_length ?_ rfl rfl rfl rfl⟩
  obtain ⟨y, ys, -, hys, hscopes⟩ := forall₂_cons_left_iff.1 h.shows
  rw [hscopes]
  exact hys

theorem genBlock_performs {id : Nat} {span : Span} (ih : ∀ stmt ∈ stmts, B.StmtPerforms is stmt)
    (hreg : Stmt.ItemsRegular true is stmts false) (hjumps : Stmt.anyJumps stmts = false) :
    B.Performs scopes (genStmt (.block id stmts span)) (exec B.setting (.block id stmts span)) := by
  unfold genStmt exec
  refine .skip (.setPlace span) fun _ S hS => ?_
  rw [hS]
  intro s code s' hdone he hs hapart hfits
  obtain ⟨scope, _, s1, _, h1, h2, rfl⟩ := Gen.bind_done hdone
  have hle1 : s1.Le s' := Gen.Grows.of_done h2
  obtain ⟨vars, hvars, -, rfl, rfl, rfl⟩ := declareAll_done h1 (hle1.errors_eq_nil he)
  have hallowed := itemsRegular_allowed hreg
  have hentered := apart_enter hapart hvars (by simpa using hallowed) (some id) false
  have hw := hvars.waiting (some id)
  have hopen := fun σ M w locals (h : B.At s.pc scopes locals [] σ M w) =>
    h.enterBlock (some id) hapart hvars hallowed
  generalize hscope : (Scope.empty (some id)).extend false vars = scope at h2 hentered hw hopen
  obtain ⟨enter, _, rfl, henter, h3⟩ := enterScope_done (by rw [← hscope]; rfl) h2
  obtain ⟨_, h5, rfl⟩ := Gen.rest_done rfl h3
  obtain ⟨_, body, s3, _, h6, h7, rfl⟩ := Gen.bind_done h5
  have hle3 : s3.Le s' := Gen.Grows.of_done h7
  obtain ⟨_, h9, rfl⟩ := Gen.rest_done rfl h7
  obtain ⟨_, last, s5, _, h10, h11, rfl⟩ := Gen.bind_done h9
  cases h11
  simp only [nil_append, append_nil] at hfits ⊢
  have hlen : enter.length = scope.region.enterOps.length := by rw [← henter B.marks, length_opsOf]
  have hbody : B.Fits
      { s with
        localCount := s.localCount + vars.length
        pc := s.pc + scope.region.enterOps.length
        scopes := scope :: s.scopes } (body ++ last) _ :=
    hfits.second (congrArg (s.pc + ·) hlen.symm)
  obtain ⟨scope', howned, hapart', hmade, hrun⟩ := genStmts_follows ih hreg hjumps h6
    (hle3.errors_eq_nil he) (congrArg (scope :: ·) hs) hw hentered (hbody.first hle3)
  have hslots : s3.localCount ≤ B.slots := hle3.localCount.trans hfits.slots
  -- the end of the block
  obtain ⟨ops, hemits, hidle⟩ : B.Idles (scope' :: scopes) (Gen.leaveScope scope) :=
    leaveScope_idles mem_cons_self howned
  obtain ⟨⟨hscopes, hpc, hcount⟩, hops⟩ := Made.of_emits hemits h10 hmade.scopes
  have hall := hmade.trans (show Made (scope' :: scopes) s3 last s5 from ⟨hscopes, hpc, hcount⟩)
  refine ⟨⟨congrArg tail hscopes, ?_, (Nat.le_add_right _ _).trans hall.count⟩, ?_⟩
  · have := hall.pc
    rw [this, ← hlen, Nat.add_assoc, ← length_append]
  rintro σ M w ⟨locals, hat⟩
  have henterOps : B.Has s.pc scope.region.enterOps := by
    have := hfits.code
    rw [opsOf_append, henter] at this
    exact this.left
  refine (hopen σ M w locals hat (hmade.count.trans hslots) henterOps).bind fun M w h1 => ?_
  rw [bind_run_ok (show (Interp.enter (blockVars stmts)).run σ = .ok ((), _) from rfl)]
  refine Follows.bind (hrun h1) fun flow σ M w hflow => ?_
  cases flow with
  | returned v => exact .here ⟨hflow.1.move rfl rfl rfl rfl, hflow.2⟩
  | next =>
    obtain ⟨locals, hat⟩ := hflow
    have hlast := (hbody.second hmade.pc).code
    rw [hops] at hlast
    refine (hat.leaveBlock hlast (hidle hapart' hslots)).mono fun M w h => ?_
    rw [← hops B.marks, length_opsOf, ← hpc] at h
    exact h

end

/-! ## Statements -/

theorem genStmt_performs (is : Expr → Prop) (stmt : Stmt) : B.StmtPerforms is stmt := by
  -- the body of a branch or a loop, which is not a declaration
  have inner : ∀ {body : Stmt} {scopes : List Compile.Scope}, B.StmtPerforms is body →
      body.Regular true is none → body.jumps = false →
      B.Performs scopes (Gen.report (genStmt body)) (exec B.setting body) :=
    fun ih hreg hjumps => (ih none _ (declares?_of_regular hreg) hreg hjumps).report
  have placed : ∀ {span : Span} {scopes : List Compile.Scope} {x : Gen Unit} [Gen.Grows x]
      {i : Interp ω Flow}, B.Performs scopes x i →
      B.Performs scopes (Gen.setPlace span >>= fun _ => x) i :=
    fun hx => .skip (.setPlace _) fun _ S hS => hS ▸ hx
  induction stmt using Stmt.induct with
  | decl d => exact nofun
  | expr e =>
    intro place scopes _ hreg _
    exact placed (.of_computes (genDiscard_computes hreg) (fun _ _ => id) fun _ _ _ _ _ => id)
  | block id stmts span ih =>
    intro place scopes _ hreg hjumps
    exact genBlock_performs ih hreg hjumps
  | ifThen cond body span ih =>
    intro place scopes _ hreg hjumps
    exact placed (.branch (genCond_tests hreg.1) (inner ih hreg.2 hjumps) fun _ _ _ _ => id)
  | ifElse cond body other span ihb iho =>
    intro place scopes _ hreg hjumps
    obtain ⟨hcond, hbody, hother⟩ := hreg
    obtain ⟨hjb, hjo⟩ := Bool.or_eq_false_iff.1 hjumps
    exact placed (.choose (genCond_tests hcond) (inner ihb hbody hjb) (inner iho hother hjo))
  | whileDo cond body span ih =>
    intro place scopes _ hreg hjumps
    refine placed (.loop fun top => .branch (genCond_tests hreg.1) ?_ fun _ _ _ _ => id)
    exact .after (inner ih hreg.2 hjumps) (.jump rfl) fun v => ⟨_, rfl, fun _ _ _ _ => id⟩
  | doWhile body cond span ih =>
    intro place scopes _ hreg hjumps
    refine placed (.loop fun top => .after (inner ih hreg.1 hjumps) ?_
      fun v => ⟨_, rfl, fun _ _ _ _ => id⟩)
    exact .skip (.setPlace _) fun _ S hS => hS ▸ .jumpIfTrue rfl (genCond_tests hreg.2)
  | forDo init cond step body span ih =>
    intro place scopes _ hreg hjumps
    obtain ⟨hinit, hcond, hstep, hbody⟩ := hreg
    have hinits : B.Computes scopes (init.forM genDiscard) [] (init.forM (discard B.setting))
        fun _ _ S => S = [] := forM_computes fun e he => genDiscard_computes (hinit.of_mem he)
    cases cond with
    | some cond =>
      refine placed (.bind hinits fun _ _ S hS => hS ▸ .loop fun top =>
        .branch (genCond_tests (hcond cond rfl)) ?_ fun _ _ _ _ => id)
      exact .turn rfl (inner ih hbody hjumps) (genSteps_computes hstep)
    | none =>
      refine placed (.bind hinits fun _ _ S hS => hS ▸ .loop fun top => ?_)
      exact .turn rfl (inner ih hbody hjumps) (genSteps_computes hstep)
  | foreach key value array body span ih =>
    intro place scopes _ hreg _
    exact absurd hreg.1 (by decide)
  | jump label span =>
    intro place scopes _ _ hjumps
    cases hjumps
  | label name span =>
    intro place scopes _ _ _
    exact placed genLabel_performs
  | ret value span =>
    intro place scopes _ hreg _
    exact placed (genReturn_performs hreg)
  | state name span =>
    intro place scopes _ _ _
    exact placed genState_performs
  | null span =>
    intro place scopes _ _ _
    exact .of_computes (Passes.setPlace span) (fun _ _ => id)
      fun _ _ _ _ _ => id

end Bench

end EventScript.Interp
