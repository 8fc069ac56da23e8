import EventScript.Proofs.Code.Statements

/-!
# The code of functions and modules

`Module.ofScript_coded`: in the module of a script without an error, every function has the code of a
function (`FunctionCode`) and the initializer has the code of an initializer (`InitCode`).

1. Labels: in a function without an error each label has one place and one block.
2. Functions: a frame is entered, the body is structured code, and the frame is left.
3. The initializer gives each global variable its first value.
4. Modules: functions, handlers and the dispatch table.
-/

namespace EventScript

open List hiding all

namespace Compile

open Gen

set_option synthInstance.maxSize 1000

/-! ## Labels -/

/-- What is found, without its place in the text. -/
def Mention.brief : Mention → String × Option Nat
  | .label name block _ => (name, some block)
  | .jump name => (name, none)

/-- Labels and jumps that have numbers after a given one, in their order, and the last number. -/
structure Ascends (n : Nat) (found : List (Nat × Mention) × Nat) : Prop where
  last : n ≤ found.2
  range : ∀ m ∈ found.1, n < m.1 ∧ m.1 ≤ found.2
  sorted : found.1.Pairwise fun a b => a.1 < b.1

namespace Ascends

theorem none (h : n ≤ found.2) (hnil : found.1 = []) : Ascends n found := by
  refine ⟨h, ?_, ?_⟩
  · rw [hnil]; exact nofun
  · rw [hnil]; exact .nil

theorem one (n : Nat) (m : Mention) : Ascends n ([(n + 1, m)], n + 1) := by
  refine ⟨Nat.le_succ n, fun k hk => ?_, pairwise_singleton _ _⟩
  rw [mem_singleton.1 hk]
  exact ⟨Nat.lt_succ_self n, le_rfl⟩

theorem of_succ (h : Ascends (n + 1) found) : Ascends n found :=
  ⟨(Nat.le_succ n).trans h.last, fun m hm => ⟨Nat.lt_of_succ_lt (h.range m hm).1, (h.range m hm).2⟩,
    h.sorted⟩

theorem append (h : Ascends n found)
    (h' : Ascends found.2 found') : Ascends n (found.1 ++ found'.1, found'.2) where
  last := h.last.trans h'.last
  range m hm := by
    rcases mem_append.1 hm with hm | hm
    · exact ⟨(h.range m hm).1, (h.range m hm).2.trans h'.last⟩
    · exact ⟨h.last.trans_lt (h'.range m hm).1, (h'.range m hm).2⟩
  sorted := by
    refine pairwise_append.2 ⟨h.sorted, h'.sorted, fun a ha b hb => ?_⟩
    exact (h.range a ha).2.trans_lt (h'.range b hb).1

end Ascends

/-- The labels and jumps that are found in the statement are its own, numbered in their order. -/
def Finds (stmt : Stmt) : Prop := ∀ block n,
  (mentions block stmt n).1.map (fun m => m.2.brief) = stmt.mentions block ∧
    Ascends n (mentions block stmt n)

theorem mentionsAll_finds (ih : ∀ stmt ∈ stmts, Finds stmt) (block n : Nat) :
    (mentionsAll block stmts n).1.map (fun m => m.2.brief) = Stmt.mentionsAll block stmts ∧
      Ascends n (mentionsAll block stmts n) := by
  induction stmts generalizing n with
  | nil => exact ⟨rfl, .none (Nat.le_refl n) rfl⟩
  | cons stmt stmts ihs =>
    obtain ⟨hfirst, hascends⟩ := ih stmt mem_cons_self block n
    obtain ⟨hrest, hascends'⟩ := ihs (forall_mem_cons.1 ih).2
      (mentions block stmt n).2
    unfold mentionsAll Stmt.mentionsAll
    exact ⟨by rw [map_append, hfirst, hrest], hascends.append hascends'⟩

theorem mentions_finds : Finds stmt := by
  -- a statement whose labels and jumps are those of its only part
  have inner : ∀ {stmt body : Stmt} (block n : Nat), Finds body →
      mentions block stmt n = mentions block body (n + 1) →
      stmt.mentions block = body.mentions block →
      (mentions block stmt n).1.map (fun m => m.2.brief) = stmt.mentions block ∧
        Ascends n (mentions block stmt n) := by
    intro stmt body block n ih hfound hmentions
    rw [hfound, hmentions]
    exact ⟨(ih block (n + 1)).1, (ih block (n + 1)).2.of_succ⟩
  induction stmt using Stmt.induct with
  | block id stmts span ih =>
    intro block n
    obtain ⟨hmap, hascends⟩ := mentionsAll_finds ih id (n + 1)
    exact ⟨hmap, hascends.of_succ⟩
  | ifElse cond body other span ih1 ih2 =>
    intro block n
    obtain ⟨hfirst, hascends⟩ := ih1 block (n + 1)
    obtain ⟨hsecond, hascends'⟩ := ih2 block (mentions block body (n + 1)).2
    unfold mentions Stmt.mentions
    exact ⟨by rw [map_append, hfirst, hsecond], (hascends.append hascends').of_succ⟩
  | ifThen cond body span ih | whileDo cond body span ih | doWhile body cond span ih
  | forDo init cond step body span ih | foreach key value array body span ih =>
    exact fun block n => inner block n ih rfl rfl
  | label name span | jump name span => exact fun block n => ⟨rfl, .one n _⟩
  | _ => exact fun block n => ⟨rfl, .none (Nat.le_succ n) rfl⟩

theorem mentionsAll_body (body : Block) :
    (mentionsAll body.id body.stmts 0).1.map (fun m => m.2.brief) =
        Stmt.mentionsAll body.id body.stmts ∧
      Ascends 0 (mentionsAll body.id body.stmts 0) :=
  mentionsAll_finds (fun _ _ => mentions_finds) _ _

theorem mem_of_mem_labelsIn (h : l ∈ labelsIn ms) : (l.1, .label l.2.1 l.2.2.1 l.2.2.2) ∈ ms := by
  obtain ⟨⟨n, m⟩, hm, hl⟩ := mem_filterMap.1 h
  cases m <;> cases hl
  exact hm

theorem labelsIn_brief :
    (labelsIn ms).map (fun l => (l.2.1, l.2.2.1)) = Stmt.labelled (ms.map fun m => m.2.brief) := by
  unfold labelsIn Stmt.labelled
  rw [map_filterMap, filterMap_map]
  refine filterMap_congr fun m _ => ?_
  obtain ⟨n, _ | _⟩ := m <;> rfl

theorem labelsIn_body (body : Block) :
    (labelsIn (mentionsAll body.id body.stmts 0).1).map (fun l => (l.2.1, l.2.2.1)) =
      Stmt.labelled (Stmt.mentionsAll body.id body.stmts) := by
  rw [labelsIn_brief, (mentionsAll_body body).1]

theorem repeatedLabels_eq_nil (h : repeatedLabels seen found = []) :
    (found.map fun l => l.2.1).Nodup ∧ ∀ l ∈ found, l.2.1 ∉ seen := by
  induction found generalizing seen with
  | nil => exact ⟨nodup_nil, nofun⟩
  | cons l found ih =>
    unfold repeatedLabels at h
    split at h
    · cases h
    rename_i hnew
    obtain ⟨hnodup, hseen⟩ := ih h
    refine ⟨nodup_cons.2 ⟨fun hmem => ?_, hnodup⟩, fun k hk => ?_⟩
    · obtain ⟨k, hk, heq⟩ := mem_map.1 hmem
      exact hseen k hk (heq ▸ mem_cons_self)
    · rcases mem_cons.1 hk with rfl | hk
      · exact hnew
      · exact fun hmem => hseen k hk (mem_cons_of_mem _ hmem)

def blockOf? (body : Block) (name : String) : Option Nat :=
  ((labelsOf body).find? (·.name == name)).map Label.block

theorem blockOf?_eq : blockOf? body name =
      ((Stmt.labelled (Stmt.mentionsAll body.id body.stmts)).find? (·.1 == name)).map Prod.snd := by
  rw [← labelsIn_body]
  unfold blockOf? labelsOf
  dsimp only
  generalize labelsIn (mentionsAll body.id body.stmts 0).1 = found
  rw [find?_map, find?_map, Option.map_map, Option.map_map]
  cases hf : found.find? (fun l => l.2.1 == name) with
  | none =>
    have h1 : found.find? ((fun l : String × Nat => l.1 == name) ∘ fun l => (l.2.1, l.2.2.1)) = none :=
      hf
    rw [h1]
    exact congrArg (Option.map _) hf
  | some l =>
    have hname : l.2.1 = name := by simpa using find?_some hf
    have h1 : found.find? ((fun l : String × Nat => l.1 == name) ∘ fun l => (l.2.1, l.2.2.1)) =
      some l := hf
    rw [h1]
    refine (congrArg (Option.map _) hf).trans ?_
    simp only [Option.map_some, Function.comp_apply, hname, hf, Option.elim_some]

theorem labelErrors_eq_nil (h : labelErrors body = []) :
    ((Stmt.labelled (Stmt.mentionsAll body.id body.stmts)).map Prod.fst).Nodup := by
  rw [← labelsIn_body, map_map]
  exact (repeatedLabels_eq_nil (map_eq_nil_iff.1 h)).1

theorem checked_of_jump (h : labelErrors body = [])
    (heq : Stmt.mentionsAll body.id body.stmts = ms ++ (name, none) :: ns)
    (hmem : name ∈ (Stmt.labelled ms).map Prod.fst) :
    ((labelsOf body).any fun l => l.name == name && l.checkpoint) = true := by
  have hnodup := (repeatedLabels_eq_nil (map_eq_nil_iff.1 h)).1
  obtain ⟨hbrief, hascends⟩ := mentionsAll_body body
  unfold labelsOf
  have hsorted := hascends.sorted
  generalize (mentionsAll body.id body.stmts 0).1 = found at hnodup hbrief hsorted
  rw [heq] at hbrief
  obtain ⟨before, rest, rfl, rfl, hrest⟩ := map_eq_append_iff.1 hbrief
  obtain ⟨⟨jumpNumber, jump⟩, after, rfl, hjump, -⟩ := map_eq_cons_iff.1 hrest
  cases jump with
  | label => cases hjump
  | jump target =>
    cases hjump
    rw [← labelsIn_brief, map_map] at hmem
    obtain ⟨l, hl, hname⟩ := mem_map.1 hmem
    change l.2.1 = name at hname
    subst hname
    have hin : l ∈ labelsIn (before ++ (jumpNumber, .jump l.2.1) :: after) := by
      unfold labelsIn
      rw [filterMap_append]
      exact mem_append_left _ hl
    -- the label has its name for itself, so it is the last one of that name
    have hlast : (labelsIn (before ++ (jumpNumber, .jump l.2.1) :: after)).reverse.find?
        (·.2.1 == l.2.1) = some l := by
      refine find?_of_nodup (fun k : Nat × String × Nat × Span => k.2.1) ?_ (mem_reverse.2 hin)
      rw [map_reverse]
      exact nodup_reverse.2 hnodup
    have hlt : l.1 < jumpNumber :=
      (pairwise_append.1 hsorted).2.2 _ (mem_of_mem_labelsIn hl) _ mem_cons_self
    refine any_eq_true.2 ⟨_, mem_map_of_mem hin, ?_⟩
    simp only [hlast, Option.elim_some, beq_self_eq_true, Bool.true_and]
    refine any_eq_true.2 ⟨_, mem_append_right _ mem_cons_self, ?_⟩
    simpa using hlt

/-! ## Functions -/

variable {s s' : State}

theorem run_done (h : run c x s = (code, s')) (he : s'.errors = []) : x c s = .done () code s' := by
  unfold run at h
  split at h
  · rename_i hx
    cases h
    exact hx
  · cases h
    cases he

theorem run_le [hx : Grows x] : s.Le (run c x s).2 := by
  have hle := hx.le c s
  unfold run
  split
  · rename_i h
    rwa [h] at hle
  · rename_i h
    rw [h] at hle
    exact hle.trans ⟨suffix_cons _ _, prefix_rfl, suffix_rfl, le_rfl, id, id,
      le_rfl, fun _ => .inl⟩

theorem forM_record (ds : List Diagnostic) (c : Context) (s : State) :
    (ds.forM record) c s = .done () [] { s with errors := ds.reverse ++ s.errors } := by
  induction ds generalizing s with
  | nil => rfl
  | cons d ds ih =>
    have hd : record d c s = .done () [] { s with errors := d :: s.errors } := rfl
    have h := bind_of_done (f := fun _ => ds.forM record) hd (ih _)
    rw [reverse_cons, append_assoc]
    exact h

/-- The variables of a function have the first slots and are in scope, and there is no code yet. -/
structure Opened (f : FuncDecl) (ps bs : List (String × LocalVar)) (s : State) : Prop where
  labels : labelErrors f.body = []
  params : Slotted 0 (f.params.map fun p => (p.name, p.ty)) ps
  vars : Slotted ps.length ((Stmt.decls f.body.stmts).map fun d => (d.name, d.ty)) bs
  scopes : s.scopes =
    [(Scope.empty (some f.body.id)).extend false bs, (Scope.empty none).extend true ps]
  count : s.localCount = ps.length + bs.length
  pc : s.pc = 0
  marks : s.marks = []

theorem declareFrame_done (h : declareFrame f c s.fresh = .done () code s') (he : s'.errors = []) :
    ∃ ps bs, Opened f ps bs s' := by
  obtain ⟨_, _, s1, _, h1, h2, rfl⟩ := bind_done h
  obtain ⟨_, _, s2, _, h3, h4, rfl⟩ := bind_done h2
  obtain ⟨params, _, s3, _, h5, h6, rfl⟩ := bind_done h4
  obtain ⟨body, _, s4, _, h7, h8, rfl⟩ := bind_done h6
  cases h1
  cases h8
  rw [forM_record] at h3
  cases h3
  have he4 : s4.errors = [] := he
  have he3 : s3.errors = [] := (Grows.of_done h7).errors_eq_nil he4
  have he2 := (Grows.of_done h5).errors_eq_nil he3
  obtain ⟨ps, hps, -, -, rfl, rfl⟩ := declareParams_done h5 he3
  obtain ⟨bs, hbs, -, -, rfl, rfl⟩ := declareAll_done h7 he4
  have hnil := (append_eq_nil_iff.1 he2).1
  have hzero : s.fresh.localCount + ps.length = ps.length := Nat.zero_add _
  rw [hzero] at hbs
  exact ⟨ps, bs, reverse_eq_nil_iff.1 hnil, hps, hbs, rfl, congrArg (· + bs.length) hzero, rfl, rfl⟩

theorem Gen.Emits.of_done (hx : Emits c s.scopes x ops)
    (h : x c s = .done () code s') : (∀ marks, opsOf marks code = ops) ∧ code.length = ops.length ∧
      s' = { s with pc := s.pc + ops.length } := by
  obtain ⟨emitted, hemitted, hops⟩ := hx s rfl
  rw [h] at hemitted
  cases hemitted
  exact ⟨hops, by rw [← hops [], length_opsOf], rfl⟩

theorem enterFrame_emits (c : Context) (body outer : Scope) (frameStatic : Int32) :
    Emits c [body, outer]
      (emit (.memStatic frameStatic) >>= fun _ =>
        [outer].forM (fun params => params.dynamicSlots.forM fun slot =>
          emit (.memIncr (.localVar slot))) >>= fun _ =>
        [body].forM (fun body => initVars body.owned) >>= fun _ => emit .checkRun)
      (.memStatic frameStatic :: (outer.dynamicSlots.map fun slot => .memIncr (.localVar slot)) ++
        initOps body.owned ++ [.checkRun]) := by
  have hparams : Emits c [body, outer] ([outer].forM (fun params => params.dynamicSlots.forM fun slot =>
      emit (.memIncr (.localVar slot))))
        (outer.dynamicSlots.map fun slot => .memIncr (.localVar slot)) := by
    rw [← flatMap_singleton (fun params : Scope => params.dynamicSlots.map _) outer]
    refine .forM fun params _ => ?_
    rw [map_eq_flatMap]
    exact .forM fun slot _ => .emit _
  have hbody : Emits c [body, outer] ([body].forM fun body => initVars body.owned)
      (initOps body.owned) := by
    rw [← flatMap_singleton (fun body : Scope => initOps body.owned) body]
    exact .forM fun body _ => initVars_emits _ body.owned
  have h := Emits.bind (.emit (.memStatic frameStatic)) (.bind hparams (.bind hbody (.emit .checkRun)))
  simpa only [cons_append, nil_append, append_assoc] using h

structure Knows (Γ : Linkage) (names : Names) : Prop where
  globals : ∀ name g, names.globals.lookup name = some g →
    Γ.globals[g.index.toNat]? = some g.ty ∧ g.ty.Allowed Γ.core
  functions : ∀ name sig, names.functions.lookup name = some sig →
    Γ.functions[sig.index.toNat]? = some (sig.params, sig.ret) ∧
      (∀ ty ∈ sig.params, ty.Allowed Γ.core) ∧ (sig.ret = .void ∨ sig.ret.Allowed Γ.core)
  library : Γ.library = true
  states : ∀ name i, names.states.lookup name = some i → i.toNat < Γ.states

theorem Knows.describes (h : Knows Γ names) (hi : ∀ e, is e → Γ.tests = true ∨ ¬ names.NoValue e)
    (hret : Γ.ret = .void ∨ Γ.ret.Allowed Γ.core) :
    Describes Γ is ⟨names, Γ.ret, Γ.frameStatic, labels, none⟩ where
  ret := rfl
  frameStatic := rfl
  globals := fun name g hg => h.globals name g (Option.filter_eq_some_iff.1 hg).1
  functions := fun _ => h.functions
  library := fun _ => h.library
  tests := fun e he => (hi e he).imp_right fun hvalue hnone => hvalue hnone.2
  states := h.states
  ret_allowed := hret

theorem lookup_of_nodup {l : List (String × β)} (h : (l.map Prod.fst).Nodup) (hp : p ∈ l) : l.lookup
    p.1 = some p.2 := by
  induction l with
  | nil => cases hp
  | cons q l ih =>
    obtain ⟨hq, hl⟩ := nodup_cons.1 h
    rcases mem_cons.1 hp with rfl | hp
    · exact lookup_cons_self
    have hne : p.1 ≠ q.1 := fun heq => hq (heq ▸ mem_map_of_mem hp)
    rw [lookup_cons, beq_eq_false_iff_ne.2 hne]
    exact ih hl hp

def Linkage.withFrame (Γ : Linkage) (slots : Nat) (ret : Ty) (frameStatic : Int32) : Linkage :=
  { Γ with slots, ret, frameStatic }

theorem scoped_frame {f : FuncDecl} (hreg : f.Regular Γ.core is)
    (hps : Slotted 0 (f.params.map fun p => (p.name, p.ty)) ps)
    (hbs : Slotted ps.length ((Stmt.decls f.body.stmts).map fun d => (d.name, d.ty)) bs)
    (hbody : (Scope.empty (some f.body.id)).extend false bs = body)
    (houter : (Scope.empty none).extend true ps = outer) :
    Scoped Γ [outer.region] [] [outer] ps.length ∧
    Scoped Γ [body.region, outer.region] (leading (Stmt.decls f.body.stmts) bs) [body, outer]
      (ps.length + bs.length) := by
  have hs : Scoped Γ [outer.region] [] [outer] ps.length := by
    have howned : [outer.region].flatMap Region.vars = ps.map Prod.snd := by
      rw [flatMap_singleton, ← houter]; rfl
    refine ⟨rfl, fun scope hscope => ?_, fun scope hscope name v hv => ?_, fun v hv => ?_,
      fun v hv => ?_⟩
    · rw [mem_singleton.1 hscope, ← houter]; rfl
    · rw [mem_singleton.1 hscope, ← houter] at hv ⊢
      refine ⟨?_, nofun⟩
      have hmem : (name, v) ∈ ps := by simpa [Scope.extend, Scope.empty] using hv
      exact mem_map_of_mem hmem
    · rw [Chain.vars, howned] at hv
      simpa using (hps.slot_mem hv).2
    · rw [Chain.vars, howned] at hv
      exact hps.allowed (by simpa using hreg.params) v hv
  exact ⟨hs, hs.enter hbs hbody (itemsRegular_allowed hreg.body)⟩

/-- The parts of the code of a function: what comes before the body, the body, and the end. -/
theorem genFrame_done {body : Scope} (hscopes : s.scopes = [body, outer])
    (h : genFrame f c s = .done () code s') :
    ∃ enter stmts leave s1 place, code = enter ++ stmts ++ leave ∧
      (∀ marks, opsOf marks enter = .memStatic c.frameStatic ::
        (outer.dynamicSlots.map fun slot => .memIncr (.localVar slot)) ++ initOps body.owned ++
          [.checkRun]) ∧
      genStmts f.body.stmts c { s with pc := s.pc + enter.length } = .done () stmts s1 ∧
      returnDefault c { s1 with place } = .done () leave s' := by
  obtain ⟨_, h2, rfl⟩ := rest_done rfl h
  obtain ⟨_, h4, rfl⟩ := rest_done rfl h2
  rw [hscopes] at h4
  obtain ⟨_, a1, s1, _, h5, h6, rfl⟩ := bind_done h4
  obtain ⟨_, a2, s2, _, h7, h8, rfl⟩ := bind_done h6
  obtain ⟨_, a3, s3, _, h9, h10, rfl⟩ := bind_done h8
  obtain ⟨_, a4, s4, _, h11, h12, rfl⟩ := bind_done h10
  obtain ⟨_, stmts, s5, _, h13, h14, rfl⟩ := bind_done h12
  obtain ⟨_, a5, s6, leave, h15, h16, rfl⟩ := bind_done h14
  have hemits := enterFrame_emits c body outer c.frameStatic
  rw [← hscopes] at hemits
  obtain ⟨hops, hlen, rfl⟩ :=
    hemits.of_done (bind_of_done h5 (bind_of_done h7 (bind_of_done h9 h11)))
  cases h15
  rw [← hlen] at h13
  exact ⟨_, stmts, leave, s5, _, by simp only [nil_append, append_assoc], hops, h13, h16⟩

theorem blockOf?_of_mem (h : labelErrors body = [])
    (hp : p ∈ Stmt.labelled (Stmt.mentionsAll body.id body.stmts)) :
    blockOf? body p.1 = some p.2 := by
  rw [blockOf?_eq, find?_of_nodup Prod.fst (labelErrors_eq_nil h) hp]
  rfl

theorem mem_of_blockOf? (h : blockOf? body name = some b) :
    name ∈ (Stmt.labelled (Stmt.mentionsAll body.id body.stmts)).map Prod.fst := by
  rw [blockOf?_eq] at h
  obtain ⟨p, hp, -⟩ := Option.map_eq_some_iff.1 h
  have hname : p.1 = name := by simpa using find?_some hp
  exact hname ▸ mem_map_of_mem (mem_of_find?_eq_some hp)

/-- How a function without errors has been generated: its code is that of the frame with its
variables in scope. -/
structure Framed (names : Names) (f : FuncDecl) (ret : Ty) (g : Function)
    (ps bs : List (String × LocalVar)) (s s' : State) (code : Code) : Prop
    extends Opened f ps bs s where
  done : genFrame f ⟨names, ret, frameSize +
    ((Scope.empty (some f.body.id)).extend false bs).staticSize +
    ((Scope.empty none).extend true ps).staticSize, labelsOf f.body, none⟩ s = .done () code s'
  near : ∀ i ∈ code, tooFar s'.marks i = false
  slots : g.localCount.toNat = s'.localCount
  ops : g.ops.toList = opsOf s'.marks code

theorem genFrame_coded (hk : Knows Γ names) (hi : ∀ e, is e → Γ.tests = true ∨ ¬ names.NoValue e)
    (hret : Γ.ret = .void ∨ Γ.ret.Allowed Γ.core) (hreg : f.Regular Γ.core is)
    (hf : Framed names f Γ.ret g ps bs s s' code)
    (hstatic : Γ.frameStatic = frameSize +
      ((Scope.empty (some f.body.id)).extend false bs).staticSize +
      ((Scope.empty none).extend true ps).staticSize)
    (he : s'.errors = []) (hconst : s'.constants <+: Γ.constants) (hslots : s'.localCount ≤ Γ.slots) :
    ∃ Y, Y.frameStatic = Γ.frameStatic ∧
      FunctionCode Γ (f.params.map Param.ty) f.blocks Y (opsOf s'.marks code) := by
  obtain ⟨⟨hlabels, hps, hbs, hscopes, hcount, hpc, hmarks⟩, h, hnear, -, -⟩ := hf
  rw [← hstatic] at h
  generalize hbody : (Scope.empty (some f.body.id)).extend false bs = body at hscopes hstatic
  generalize houter : (Scope.empty none).extend true ps = outer at hscopes hstatic
  have hle : s.Le s' := Grows.of_done h
  have hdistinct := hle.distinct (by rw [hmarks]; exact nodup_nil)
  obtain ⟨hs0, hs⟩ := scoped_frame hreg hps hbs hbody houter
  obtain ⟨enter, stmts, leave, s1, place, rfl, henter, h1, h2⟩ := genFrame_done hscopes h
  let Λ : Labels := ⟨blockOf? f.body, fun name => s'.marks.lookup name,
    fun name => (labelsOf f.body).any fun l => l.name == name && l.checkpoint⟩
  have hp : Placed Γ is Λ s'.marks ⟨names, Γ.ret, Γ.frameStatic, labelsOf f.body, none⟩ :=
    ⟨hk.describes hi hret, fun _ => rfl, fun _ => rfl, fun _ => rfl⟩
  have hle0 : s1.Le { s1 with place } := .of_eq rfl rfl rfl rfl le_rfl
  have hle1 : s1.Le s' := hle0.trans (Grows.of_done h2)
  have hw := hbody ▸ hbs.waiting (some f.body.id)
  have hblock : [body.region, outer.region].head?.bind Region.block = some f.body.id := by
    rw [← hbody]; rfl
  have hcompletes : Completes Γ Λ s'.marks { s with pc := s.pc + enter.length } stmts s1
      (Stmt.mentionsAll f.body.id f.body.stmts) :=
    { constants := hle1.constants.trans hconst
      slots := hle1.localCount.trans hslots
      errors := hle1.errors_eq_nil he
      near := fun i hi => hnear i (mem_append_left _ (mem_append_right _ hi))
      marked := fun p hp => lookup_of_nodup hdistinct (hle1.marks.mem hp)
      nodup := labelErrors_eq_nil hlabels
      new := fun p _ hmem => by
        rw [hmarks] at hmem
        cases hmem
      blocks := fun p hp => blockOf?_of_mem hlabels hp
      later := fun name place hmark => by
        have hmem := mem_of_lookup hmark
        exact (hle1.placed _ hmem).imp mem_map_of_mem id
      ordered := fun ms name ns heq hmem => by
        refine checked_of_jump hlabels heq (hmem.resolve_left fun hmem => ?_)
        rw [hmarks] at hmem
        cases hmem }
  obtain ⟨scope', hscopes', hregion, hstatic', o, l, hb⟩ := genStmts_built hp
    (fun stmt _ => genStmt_builds hp stmt) hreg.body hblock h1 hscopes hw
    (by rw [hscopes]; exact hcount ▸ hs) hcompletes
  have hchain : [scope', outer].map Scope.region = [body.region, outer.region] := by
    rw [map_cons, hregion]; rfl
  have hsizes : ∀ scope ∈ [scope', outer], scope.staticSize = scope.region.staticSize := by
    intro scope hscope
    rcases mem_cons.1 hscope with rfl | hscope
    · rw [hstatic', hregion]
      exact hs.static body mem_cons_self
    · exact hs.static scope (mem_cons_of_mem _ hscope)
  obtain ⟨hleave, -, hs'⟩ := (by
    have hemits := returnDefault_emits hp.describes hchain hsizes
    rw [← hscopes'] at hemits
    exact Emits.of_done (s := { s1 with place }) hemits h2)
  have hmarks' : s'.marks = (l.map Site.mark).reverse := by
    rw [hs']
    exact hb.marks.trans (by rw [hmarks, append_nil])
  let Y : Layout := ⟨outer.region, body.region, o⟩
  have hsize : Γ.frameStatic = Y.frameStatic := by
    rw [hstatic, hs.static body mem_cons_self, hs0.static outer mem_cons_self]
    rfl
  have hY : opsOf s'.marks enter = Y.enterOps := by
    rw [henter, hsize]
    rfl
  have hlen : enter.length = Y.enterOps.length := by rw [← hY, length_opsOf]
  have hops : opsOf s'.marks (enter ++ stmts ++ leave) =
      Y.enterOps ++ opsOf s'.marks stmts ++ returnDefaultOps Γ Y.frame := by
    rw [opsOf_append, opsOf_append, hY, hleave]
    rfl
  have hstart := hcount ▸ hle.localCount.trans hslots
  subst hbody houter
  have hnew0 : Γ.NewRegion [] Y.outer :=
    hps.newRegion (by simpa using hreg.params) (by omega) (fun v hv => absurd hv not_mem_nil) none
  have hnew : Γ.NewRegion [Y.outer] Y.body :=
    hbs.newRegion (by simpa using itemsRegular_allowed hreg.body) hstart hs0.below (some f.body.id)
  have hparams : Y.outer.vars.map LocalVar.ty = f.params.map Param.ty :=
    hps.tys.trans (by rw [map_map]; rfl)
  have hnumbers : Y.outer.vars.map (·.slot.toNat) = range (f.params.map Param.ty).length := by
    have hcard : ps.length = (f.params.map Param.ty).length := by
      simpa using congrArg length hps.names
    rw [← hcard, range_eq_range', ← hps.slots]
    exact map_map
  have hfresh : (leading (Stmt.decls f.body.stmts) bs).Sublist Y.body.vars :=
    leading_sublist (by simpa using congrArg length hbs.names)
  have hstructured : Structured Γ Λ Y.frame (leading (Stmt.decls f.body.stmts) bs) Y.enterOps.length
      (opsOf s'.marks stmts) [] Y.extents l := by
    have hst := hb.structured
    rwa [hpc, Nat.zero_add, hlen] at hst
  have hblocks : f.blocks = (f.body.id, Y.body.vars.map LocalVar.ty) :: Y.extents.map Extent.shape := by
    have htys : Y.body.vars.map LocalVar.ty = (Stmt.decls f.body.stmts).map VarDecl.ty :=
      hbs.tys.trans (by rw [map_map]; rfl)
    rw [hb.extents, htys]
    rfl
  have hsites : ∀ name b, Λ.blockOf name = some b →
      ∃ site ∈ l, site.name = name ∧ Λ.mark name = some site.pc := by
    intro name b hname
    have hmem := mem_of_blockOf? hname
    rw [← hb.sites] at hmem
    obtain ⟨site, hsite, rfl⟩ := mem_map.1 hmem
    refine ⟨site, hsite, rfl, lookup_of_nodup hdistinct (p := site.mark) ?_⟩
    rw [hmarks']
    exact mem_reverse.2 (mem_map_of_mem hsite)
  refine ⟨Y, hsize.symm, ?_⟩
  rw [hops]
  exact .mk hsize hret rfl hnew0 hparams hnumbers rfl hnew hfresh hstructured hblocks hreg.blocks
    hsites

theorem genFunction_le (names : Names) (f : FuncDecl) (kind : FunctionKind) (name : String)
    (ret : Ty) (s : State) : s.errors <:+ (genFunction names f kind name ret s).2.errors ∧
      s.constants <+: (genFunction names f kind name ret s).2.constants := by
  unfold genFunction
  dsimp only
  generalize hr1 : run _ (declareFrame f) s.fresh = r1
  have hle1 : s.fresh.Le r1.2 := hr1 ▸ run_le
  generalize hr2 : run _ (genFrame f) r1.2 = r2
  have hle2 : r1.2.Le r2.2 := hr2 ▸ run_le
  have hle := hle1.trans hle2
  split
  · exact ⟨hle.errors.trans (suffix_cons _ _), hle.constants⟩
  · exact ⟨hle.errors, hle.constants⟩

theorem genFunction_framed
    (h : genFunction names f kind name ret s = (g, s')) (he : s'.errors = []) :
    ∃ ps bs s1 code, Framed names f ret g ps bs s1 s' code := by
  unfold genFunction at h
  dsimp only at h
  generalize hr1 : run _ (declareFrame f) s.fresh = r1 at h
  obtain ⟨code1, s1⟩ := r1
  generalize hr2 : run _ (genFrame f) s1 = r2 at h
  obtain ⟨code, s2⟩ := r2
  cases hfar : code.any (tooFar s2.marks) with
  | true =>
    rw [hfar] at h
    cases h
    cases he
  | false =>
    rw [hfar, if_neg (by decide)] at h
    cases h
    have h2 := run_done hr2 he
    have he1 := (Grows.of_done h2).errors_eq_nil he
    have h1 := run_done hr1 he1
    obtain ⟨ps, bs, hopened⟩ := declareFrame_done h1 he1
    rw [hopened.scopes] at h2
    have hbound := (Grows.of_done h2).bounded ((Grows.of_done h1).bounded (Nat.zero_le _))
    exact ⟨ps, bs, s1, code, {
      toOpened := hopened
      done := h2
      near := by simpa using hfar
      slots := UInt16.toNat_ofNat_of_lt' (Nat.lt_of_le_of_lt hbound (by decide))
      ops := map_map }⟩

theorem genFunction_coded (h : genFunction names f kind name ret s = (g, s')) (he : s'.errors = [])
    (hconst : s'.constants <+: Γ.constants) (hk : Knows Γ names)
    (hi : ∀ e, is e → Γ.tests = true ∨ ¬ names.NoValue e) (hreg : f.Regular Γ.core is)
    (hret : ret = .void ∨ ret.Allowed Γ.core) :
    ∃ Y, FunctionCode (Γ.withFrame g.localCount.toNat ret Y.frameStatic) (f.params.map Param.ty)
      f.blocks Y g.ops.toList := by
  obtain ⟨ps, bs, s1, code, hf⟩ := genFunction_framed h he
  have hk' : Knows (Γ.withFrame s'.localCount ret (frameSize +
      ((Scope.empty (some f.body.id)).extend false bs).staticSize +
      ((Scope.empty none).extend true ps).staticSize)) names :=
    ⟨hk.globals, hk.functions, hk.library, hk.states⟩
  obtain ⟨Y, hsize, hcoded⟩ := genFrame_coded hk' hi hret hreg hf rfl he hconst le_rfl
  refine ⟨Y, ?_⟩
  rw [hsize, hf.slots, hf.ops]
  exact hcoded

/-! ## The initializer -/

theorem Knows.describes_before (h : Knows Γ names) (hret : Γ.ret = .void)
    (hstatic : Γ.frameStatic = 0) : Describes (Γ.before i) is ⟨names, .void, 0, [], some i⟩ where
  ret := hret.symm
  frameStatic := hstatic.symm
  globals := fun name g hg => by
    obtain ⟨hlookup, hlt⟩ := Option.filter_eq_some_iff.1 hg
    obtain ⟨hty, hallowed⟩ := h.globals name g hlookup
    refine ⟨?_, hallowed⟩
    show (Γ.globals.take i)[g.index.toNat]? = _
    rw [getElem?_take_of_lt (by simpa using hlt), hty]
  functions := nofun
  library := nofun
  tests := fun _ _ => .inr fun hnone => nomatch hnone.1
  states := h.states
  ret_allowed := .inl hret

theorem genGlobal_done (hk : Knows Γ names) (hret : Γ.ret = .void)
    (hstatic : Γ.frameStatic = 0) (hd : d.ty.Allowed Γ.core ∧ ∀ e ∈ d.init, e.Regular Γ.core is)
    (hscopes : s.scopes = [])
    (h : genGlobal d index ⟨names, .void, 0, [], some index.toNat⟩ s = .done () code s')
    (he : s'.errors = []) (hconst : s'.constants <+: Γ.constants) (hslots : s'.localCount ≤ Γ.slots) :
    ∃ value, Straight (Γ.before index.toNat) [] [] (s.pc + 1) value [] [d.ty] ∧
      opsOf [] code = .memStatic d.ty.staticSize :: (value ++ .storeGlobal index ::
        if d.ty.hasDynamicSize then [.memIncr (.globalVar index)] else []) ∧
      s'.pc = s.pc + code.length ∧ s'.scopes = [] := by
  have hc : Describes (Γ.before index.toNat) is _ := hk.describes_before hret hstatic
  obtain ⟨_, h2, rfl⟩ := rest_done rfl h
  obtain ⟨_, h4, rfl⟩ := rest_done rfl h2
  obtain ⟨_, value, s3, _, h5, h6, rfl⟩ := bind_done h4
  obtain ⟨_, h8, rfl⟩ := rest_done rfl h6
  -- the account of the contents, if they have a cost
  have hlast : Emits ⟨names, .void, 0, [], some index.toNat⟩ s3.scopes
      (if d.ty.hasDynamicSize then emit (.memIncr (.globalVar index)) else pure ())
      (if d.ty.hasDynamicSize then [.memIncr (.globalVar index)] else []) :=
    .ite (fun _ => .emit _) fun _ => .pure
  obtain ⟨hops, hlen, rfl⟩ := Emits.of_done (s := { s3 with pc := s3.pc + 1 }) hlast h8
  have hvalue : Evaluates (Γ.before index.toNat) [] [] [] ⟨names, .void, 0, [], some index.toNat⟩
      (genFirst d) [] fun _ S' => S' = [d.ty] := by
    unfold genFirst
    cases hinit : d.init with
    | some e => exact genInitial_evaluates hc (hd.2 e (by rw [hinit]; rfl)) hd.1 []
    | none => exact .emit (.default hd.1)
  have hdone := report_done h5 he
  have hscoped : Scoped (Γ.before index.toNat) [] [] s.scopes s.localCount := by
    rw [hscopes]
    exact ⟨rfl, nofun, nofun, nofun, nofun⟩
  obtain ⟨_, rfl, hg⟩ := hvalue hdone hscoped hconst hslots
  refine ⟨opsOf [] value, hg.straight, ?_, ?_, hg.scopes.trans hscopes⟩
  · simp only [nil_append, opsOf_append, opsOf_op, cons_append, hops]
  have hpc := hg.pc
  dsimp only at hpc
  simp only [length_append, length_cons, length_nil, hlen]
  omega

theorem genGlobals_le (names : Names) (i : Nat) (ds : List VarDecl) (s : State) :
    s.Le (genGlobals names i ds s).2 := by
  induction ds generalizing i s with
  | nil => exact run_le
  | cons d ds ih =>
    unfold genGlobals
    split
    · split
      · exact (run_le).trans (ih _ _)
      · exact ih _ _
    · exact ih _ _

/-- The first global comes first, and it has the number that its name stands for. -/
theorem genGlobals_cons
    (hnames : ∀ k e, (d :: ds)[k]? = some e → ∃ g, names.globals.lookup e.name = some g ∧
      g.index.toNat = i + k) (h : genGlobals names i (d :: ds) s = (code, s'))
    (he : s'.errors = []) : ∃ index code₁ s₁ rest, index.toNat = i ∧
      genGlobal d index ⟨names, .void, 0, [], some i⟩ s = .done () code₁ s₁ ∧ s₁.errors = [] ∧
      s₁.Le s' ∧ genGlobals names (i + 1) ds s₁ = (rest, s') ∧ code = code₁ ++ rest ∧
      ∀ k e, ds[k]? = some e → ∃ g, names.globals.lookup e.name = some g ∧
        g.index.toNat = i + 1 + k := by
  obtain ⟨g, hg, hindex⟩ := hnames 0 d rfl
  rw [Nat.add_zero] at hindex
  unfold genGlobals at h
  rw [hg] at h
  dsimp only at h
  rw [if_pos hindex] at h
  cases h
  have hle := genGlobals_le names (i + 1) ds
    (run ⟨names, .void, 0, [], some i⟩ (genGlobal d g.index) s).2
  have he₁ := hle.errors_eq_nil he
  refine ⟨_, _, _, _, hindex, run_done rfl he₁, he₁, hle, rfl, rfl, fun k e hk => ?_⟩
  obtain ⟨g, hg, hk⟩ := hnames (k + 1) e hk
  exact ⟨g, hg, by omega⟩

theorem genGlobals_coded (hk : Knows Γ names) (hret : Γ.ret = .void) (hstatic : Γ.frameStatic = 0)
    (hds : ∀ d ∈ ds, d.ty.Allowed Γ.core ∧ ∀ e ∈ d.init, e.Regular Γ.core is)
    (hglobals : Γ.globals.drop i = ds.map VarDecl.ty) (hi : i ≤ Γ.globals.length)
    (hnames : ∀ k d, ds[k]? = some d → ∃ g, names.globals.lookup d.name = some g ∧
      g.index.toNat = i + k) (hscopes : s.scopes = []) (h : genGlobals names i ds s = (code, s'))
    (he : s'.errors = []) (hconst : s'.constants <+: Γ.constants) (hslots : s'.localCount ≤ Γ.slots) :
    InitCode Γ i s.pc (opsOf [] code) := by
  induction ds generalizing i s code with
  | nil =>
    have hlen : i = Γ.globals.length := by
      have := drop_eq_nil_iff.1 hglobals
      omega
    have hdone := run_done h he
    cases hdone
    rw [hlen]
    exact .nil
  | cons d ds ih =>
    have hty : Γ.globals[i]? = some d.ty := by
      have := congrArg (·[0]?) hglobals
      simpa using this
    have hlt : i < Γ.globals.length := (List.getElem?_eq_some_iff.1 hty).1
    obtain ⟨_, _, s1, _, hindex, h1, he1, hle, hr2, rfl, hnames⟩ := genGlobals_cons hnames h he
    rw [← hindex] at h1
    obtain ⟨value, hvalue, hops, hpc, hscopes1⟩ := genGlobal_done hk hret hstatic
      (hds d mem_cons_self) hscopes h1 he1 (hle.constants.trans hconst)
      (hle.localCount.trans hslots)
    rw [hindex] at hvalue
    have hrest : Γ.globals.drop (i + 1) = ds.map VarDecl.ty := by
      rw [← drop_drop, hglobals]; rfl
    have hcoded := ih (forall_mem_cons.1 hds).2 hrest hlt hnames hscopes1 hr2
    rw [opsOf_append, hops]
    refine .cons hty hindex hvalue ?_
    rw [← hops, length_opsOf, ← hpc]
    exact hcoded

theorem genInit_le (names : Names) (globals : List VarDecl) (s : State) :
    s.errors <:+ (genInit names globals s).2.errors ∧
      s.constants <+: (genInit names globals s).2.constants :=
  have hle := genGlobals_le names 0 globals s.fresh
  ⟨hle.errors, hle.constants⟩

/-! ## Names of the script -/

theorem mem_signatures (h : p ∈ (signatures i fs).1) :
    ∃ k f, fs[k]? = some f ∧ p.2.index.toNat = i + k ∧
      p.2.params = f.params.map Param.ty ∧ p.2.ret = f.ret := by
  induction fs generalizing i with
  | nil => cases h
  | cons f fs ih =>
    unfold signatures at h
    split at h
    · cases h
    rename_i hindex
    rcases mem_cons.1 h with rfl | h
    · exact ⟨0, f, rfl, toNat_of_index? hindex, rfl, rfl⟩
    · obtain ⟨k, f', hk, hp, hrest⟩ := ih h
      exact ⟨k + 1, f', hk, by omega, hrest⟩

/-- The name of a function stands for the first declaration with it. -/
theorem signatures_lookup (h : (signatures i fs).2 = []) :
    (∀ sig, (signatures i fs).1.lookup name = some sig →
      ∃ k f, fs.find? (·.name == name) = some f ∧ fs[k]? = some f ∧ sig.index.toNat = i + k ∧
        sig.params = f.params.map Param.ty ∧ sig.ret = f.ret) ∧
    ((signatures i fs).1.lookup name = none → fs.find? (·.name == name) = none) := by
  induction fs generalizing i with
  | nil => exact ⟨nofun, fun _ => rfl⟩
  | cons f fs ih =>
    unfold signatures at h ⊢
    split at h
    · cases h
    rename_i hindex
    obtain ⟨hsome, hnone⟩ := ih h
    rw [lookup_cons, find?_cons, BEq.comm (a := f.name)]
    cases name == f.name with
    | true =>
      refine ⟨fun sig hsig => ?_, nofun⟩
      cases hsig
      exact ⟨0, f, rfl, rfl, toNat_of_index? hindex, rfl, rfl⟩
    | false =>
      refine ⟨fun sig hsig => ?_, hnone⟩
      obtain ⟨k, f', hfind, hk, hi, hrest⟩ := hsome sig hsig
      exact ⟨k + 1, f', hfind, hk, by omega, hrest⟩

theorem globalVars_done
    (h : globalVars known ds = (all, [])) (hknown : (known.map Prod.fst).Nodup) :
    ∃ gs, all = known ++ gs ∧ gs.map (fun p => (p.1, p.2.ty)) = ds.map (fun d => (d.name, d.ty)) ∧
      (∀ k p, gs[k]? = some p → p.2.index.toNat = known.length + k) ∧ (all.map Prod.fst).Nodup := by
  induction ds generalizing known with
  | nil =>
    cases h
    exact ⟨[], (append_nil _).symm, rfl, nofun, hknown⟩
  | cons d ds ih =>
    unfold globalVars at h
    split at h
    · cases h
    rename_i hnew
    split at h
    · cases h
    rename_i index hindex
    have hname : d.name ∉ known.map Prod.fst := by
      intro hmem
      obtain ⟨p, hp, heq⟩ := mem_map.1 hmem
      exact hnew (any_eq_true.2 ⟨p, hp, by simpa using heq⟩)
    obtain ⟨gs, rfl, htys, hnumbers, hnodup⟩ := ih h (by
      rw [map_append]
      exact hknown.append (nodup_singleton _) (by simpa using hname))
    refine ⟨(d.name, ⟨index, d.ty⟩) :: gs, by rw [append_assoc]; rfl, ?_, ?_, hnodup⟩
    · rw [map_cons, htys]; rfl
    rintro (_ | k) p hp
    · cases hp
      exact toNat_of_index? hindex
    · rw [hnumbers k p hp, length_append, length_singleton]
      omega

/-! ## Functions of a module -/

/-- The function has been generated from a declaration, on the way to a state. -/
def Origin (names : Names) (st : State) (f : FuncDecl) (g : Function) : Prop :=
  ∃ s kind name, (genFunction names f kind name f.ret s).1 = g ∧
    (genFunction names f kind name f.ret s).2.errors <:+ st.errors ∧
    (genFunction names f kind name f.ret s).2.constants <+: st.constants

structure Build.Le (b b' : Build) : Prop where
  errors : b.state.errors <:+ b'.state.errors
  constants : b.state.constants <+: b'.state.constants
  functions : b.functions <+: b'.functions

namespace Build.Le

@[refl] theorem refl (b : Build) : b.Le b := ⟨suffix_rfl, prefix_rfl, prefix_rfl⟩

@[trans] theorem trans {b : Build} (h : b.Le b') (h' : b'.Le b'') : b.Le b'' :=
  ⟨h.errors.trans h'.errors, h.constants.trans h'.constants, h.functions.trans h'.functions⟩

theorem complain (b : Build) (e : SemanticError) (span : Span) : b.Le (b.complain e span) :=
  ⟨suffix_cons _ _, prefix_rfl, prefix_rfl⟩

theorem generate (names : Names) (b : Build) (f : FuncDecl) (kind : FunctionKind) (name : String)
    (ret : Ty) : b.Le ⟨b.functions ++ [(genFunction names f kind name ret b.state).1],
      (genFunction names f kind name ret b.state).2⟩ :=
  ⟨(genFunction_le names f kind name ret b.state).1, (genFunction_le names f kind name ret b.state).2,
    prefix_append _ _⟩

end Build.Le

/-- The functions of a build have been generated from the declarations, one from each. -/
def Build.Compiles (names : Names) (b : Build) (ds : List FuncDecl) : Prop :=
  List.Forall₂ (Origin names b.state) ds b.functions

theorem Origin.mono (he : st.errors <:+ st'.errors)
    (hc : st.constants <+: st'.constants) (h : Origin names st f g) : Origin names st' f g := by
  obtain ⟨s, kind, name, hg, hes, hcs⟩ := h
  exact ⟨s, kind, name, hg, hes.trans he, hcs.trans hc⟩

variable {b : Build}

theorem Build.Compiles.generate (h : b.Compiles names ds) (f : FuncDecl) (kind : FunctionKind)
    (name : String) :
    Build.Compiles names ⟨b.functions ++ [(genFunction names f kind name f.ret b.state).1],
      (genFunction names f kind name f.ret b.state).2⟩ (ds ++ [f]) := by
  have hle := genFunction_le names f kind name f.ret b.state
  refine rel_append (h.imp fun _ _ ho => ho.mono hle.1 hle.2) (.cons ?_ .nil)
  exact ⟨b.state, kind, name, rfl, suffix_rfl, prefix_rfl⟩

theorem addFunctions_le (names : Names) (fs : List FuncDecl) (b : Build) :
    b.Le (fs.foldl (addFunction names) b) := by
  induction fs generalizing b with
  | nil => exact .refl _
  | cons f fs ih => exact (Build.Le.generate names b f .script f.name f.ret).trans (ih _)

theorem addFunctions_compiles (fs : List FuncDecl) (h : b.Compiles names ds) :
    (fs.foldl (addFunction names) b).Compiles names (ds ++ fs) := by
  induction fs generalizing b ds with
  | nil => rwa [append_nil]
  | cons f fs ih =>
    rw [append_cons]
    exact ih (h.generate f .script f.name)

/-! ## Handlers -/

theorem column?_injective {e' : Event} (h : e.column? = some n)
    (h' : e'.column? = some n) : e = e' := by
  have hinverse : ∀ e : Event, Event.ofOrdinal? e.ordinal = some e := by
    intro e; cases e <;> rfl
  have hordinal : ∀ e : Event, e.column? = some n → e.ordinal.toInt = n := by
    intro e he
    unfold Event.column? at he
    dsimp only at he
    split at he
    · cases he
      omega
    · cases he
  have heq : e.ordinal = e'.ordinal := Int32.toInt_inj.1 ((hordinal e h).trans (hordinal e' h').symm)
  have := (hinverse e).symm.trans (heq ▸ hinverse e')
  exact Option.some.inj this

variable {event : Event} {state : StateDecl} {hs : List FuncDecl}

theorem column?_lt (h : event.column? = some column) : column < Event.tableWidth := by
  unfold Event.column? at h
  dsimp only at h
  split at h
  · cases h
    omega
  · cases h

theorem column?_of_name (h : Event.ofName? name = some event) :
    ∃ column, event.column? = some column := by
  have hall : ∀ event ∈ Event.handled, event.column?.isSome = true := by decide
  exact Option.isSome_iff_exists.1 (hall event (mem_of_find?_eq_some h))

/-- Each handler of a row takes the parameters of the event of its column. -/
def Serves (functions : List Function) (cells : List (Option UInt16)) : Prop :=
  ∀ (column : Nat) (index : UInt16), cells[column]? = some (some index) →
    ∃ (event : Event) (g : Function), event.column? = some column ∧
      functions[index.toNat]? = some g ∧ g.params = event.signature ∧ g.ret = .void

/-- The function with the number is the code of the handler of a state for an event, and the column
of the event has the number. -/
structure Build.Hosts (names : Names) (b : Build) (state : StateDecl) (i : Nat)
    (cells : List (Option UInt16)) (n : Nat) (h : FuncDecl) (event : Event) (column : Nat)
    (index : UInt16) (g : Function) : Prop where
  named : Event.ofName? h.name = some event
  standing : event.column? = some column
  cell : cells[column]? = some (some index)
  number : index.toNat = n
  function : b.functions[n]? = some g
  params : h.params.map Param.ty = event.signature
  code : ∃ s s', genFunction names h (.handler (stateIndex i) event)
    (state.name ++ " " ++ event.name) .void s = (g, s') ∧ s'.errors <:+ b.state.errors ∧
    s'.constants <+: b.state.constants

section

variable (h : b.Hosts names state i cells n f event column index g)

include h

theorem Build.Hosts.mono (hle : b.Le b') :
    b'.Hosts names state i cells n f event column index g where
  __ := h
  function := getElem?_of_prefix hle.functions h.function
  code := by
    obtain ⟨s, s', hg, he, hc⟩ := h.code
    exact ⟨s, s', hg, he.trans hle.errors, hc.trans hle.constants⟩

theorem Build.Hosts.origin (hret : f.ret = .void) : Origin names b.state f g := by
  obtain ⟨s, s', hg, he, hc⟩ := h.code
  rw [← hret] at hg
  exact ⟨s, _, _, congrArg Prod.fst hg, hg ▸ he, hg ▸ hc⟩

theorem Build.Hosts.assembled :
    g.name = state.name ++ " " ++ event.name ∧ g.params = event.signature ∧ g.ret = .void := by
  obtain ⟨s, s', hg, -⟩ := h.code
  obtain rfl := congrArg Prod.fst hg
  exact ⟨rfl, h.params, rfl⟩

end

/-- The row has the handlers of a state, whose functions are numbered from `n` on, and nothing
else. -/
structure Build.Keeps (names : Names) (b : Build) (state : StateDecl) (i n : Nat)
    (hs : List FuncDecl) (cells : List (Option UInt16)) : Prop where
  width : cells.length = Event.tableWidth
  hosts : ∀ k h, hs[k]? = some h → ∃ event column index g,
    b.Hosts names state i cells (n + k) h event column index g
  only : ∀ column index, cells[column]? = some (some index) →
    ∃ h ∈ hs, ∃ event, Event.ofName? h.name = some event ∧ event.column? = some column

/-- Handlers have been generated after other declarations, and their events have been seen. -/
structure Row.Holds (names : Names) (ds : List FuncDecl) (state : StateDecl) (i : Nat) (r : Row)
    (hs : List FuncDecl) : Prop where
  compiles : r.build.Compiles names (ds ++ hs)
  seen : ∀ h ∈ hs, ∀ event, Event.ofName? h.name = some event → event ∈ r.seen
  keeps : r.build.Keeps names state i ds.length hs r.cells

theorem addHandler_le (names : Names) (state : StateDecl) (i : Nat) (r : Row) (h : FuncDecl) :
    r.build.Le (addHandler names state i r h).build := by
  unfold addHandler
  split
  · exact .complain _ _ _
  split
  · exact .complain _ _ _
  dsimp only
  split
  · exact .complain _ _ _
  split
  · exact .complain _ _ _
  · exact .generate ..

/-- A handler that is taken is for a new event and has its parameters. -/
theorem addHandler_done (he : (addHandler names state i r h).build.state.errors = []) :
    ∃ event column index, Event.ofName? h.name = some event ∧ event.column? = some column ∧
      event ∉ r.seen ∧ h.params.map Param.ty = event.signature ∧
      index.toNat = r.build.functions.length ∧
      addHandler names state i r h = ⟨⟨r.build.functions ++ [(genFunction names h
          (.handler (stateIndex i) event) (state.name ++ " " ++ event.name) .void r.build.state).1],
        (genFunction names h (.handler (stateIndex i) event) (state.name ++ " " ++ event.name) .void
          r.build.state).2⟩, r.cells.set column (some index), event :: r.seen⟩ := by
  unfold addHandler at he ⊢
  split at he
  · cases he
  rename_i event hevent
  split at he
  · cases he
  rename_i hseen
  dsimp only at he ⊢
  split at he
  · cases he
  rename_i hsignature
  split at he
  · cases he
  rename_i index hindex
  obtain ⟨column, hcolumn⟩ := column?_of_name hevent
  simp only [if_neg hseen, if_neg hsignature, hcolumn]
  exact ⟨event, column, index, hevent, hcolumn, hseen, not_not.1 hsignature, toNat_of_index? hindex,
    rfl⟩

theorem addHandler_holds (hr : r.Holds names ds state i hs) (hret : h.ret = .void)
    (he : (addHandler names state i r h).build.state.errors = []) :
    (addHandler names state i r h).Holds names ds state i (hs ++ [h]) := by
  have hle := addHandler_le names state i r h
  obtain ⟨event, column, index, hevent, hcolumn, hnew, hparams, hindex, heq⟩ := addHandler_done he
  have hcompiles := hr.compiles.generate h (.handler (stateIndex i) event)
    (state.name ++ " " ++ event.name)
  rw [hret] at hcompiles
  rw [heq] at hle ⊢
  generalize hg : genFunction names h (.handler (stateIndex i) event)
    (state.name ++ " " ++ event.name) .void r.build.state = gs at hle hcompiles ⊢
  have hlength : r.build.functions.length = ds.length + hs.length := by
    rw [← hr.compiles.length_eq, length_append]
  have hcell : (r.cells.set column (some index))[column]? = some (some index) :=
    getElem?_set_self (hr.keeps.width ▸ column?_lt hcolumn)
  refine ⟨by rwa [← append_assoc], fun f hf event' h' => ?_,
    (List.length_set ..).trans hr.keeps.width, fun k f hf => ?_, fun column' index' hc => ?_⟩
  · obtain hf | hf := mem_append.1 hf
    · exact mem_cons_of_mem _ (hr.seen f hf event' h')
    rw [mem_singleton.1 hf, hevent] at h'
    cases h'
    exact mem_cons_self
  · rw [getElem?_append] at hf
    split at hf
    · obtain ⟨event', column', index', g, hosts⟩ := hr.keeps.hosts k f hf
      refine ⟨event', column', index', g, { hosts.mono hle with cell := ?_ }⟩
      -- the event is another one, and so is its column
      refine (getElem?_set_ne fun hcols => hnew ?_).trans hosts.cell
      have := column?_injective (hcols ▸ hcolumn) hosts.standing
      exact this ▸ hr.seen f (mem_of_getElem? hf) event' hosts.named
    · obtain rfl : k = hs.length := by
        have := (List.getElem?_eq_some_iff.1 hf).1
        rw [length_singleton] at this
        omega
      rw [Nat.sub_self] at hf
      cases hf
      rw [← hlength]
      exact ⟨event, column, index, gs.1, hevent, hcolumn, hcell, hindex, getElem?_concat_length,
        hparams, _, _, hg, suffix_rfl, prefix_rfl⟩
  · by_cases hcols : column = column'
    · subst hcols
      exact ⟨h, mem_append_right _ mem_cons_self, event, hevent, hcolumn⟩
    · obtain ⟨f, hf, hrest⟩ := hr.keeps.only column' index' ((getElem?_set_ne hcols).symm.trans hc)
      exact ⟨f, mem_append_left _ hf, hrest⟩

theorem addHandlers_le (state : StateDecl) (i : Nat) (hs : List FuncDecl) (r : Row) :
    r.build.Le (hs.foldl (addHandler names state i) r).build := by
  induction hs generalizing r with
  | nil => exact .refl _
  | cons h hs ih => exact (addHandler_le names state i r h).trans (ih _)

theorem addHandlers_holds (hr : r.Holds names ds state i fs) (hret : ∀ h ∈ hs, h.ret = .void)
    (he : (hs.foldl (addHandler names state i) r).build.state.errors = []) :
    (hs.foldl (addHandler names state i) r).Holds names ds state i (fs ++ hs) := by
  induction hs generalizing r fs with
  | nil => rwa [append_nil]
  | cons h hs ih =>
    have he1 : (addHandler names state i r h).build.state.errors = [] :=
      suffix_nil.1 (he ▸ (addHandlers_le state i hs _).errors)
    rw [append_cons]
    exact ih (addHandler_holds hr (hret h mem_cons_self) he1)
      (forall_mem_cons.1 hret).2 he

theorem Build.Compiles.row (h : b.Compiles names ds) :
    Row.Holds names ds state i ⟨b, replicate Event.tableWidth none, []⟩ [] where
  compiles := (append_nil ds).symm ▸ h
  seen := forall_mem_nil _
  keeps.width := length_replicate
  keeps.hosts k f hf := by cases hf
  keeps.only column index hc := by cases (mem_replicate.1 (mem_of_getElem? hc)).2

theorem genStates_le (names : Names) (i : Nat) (states : List StateDecl) (b : Build) :
    b.Le (genStates names i states b).2 := by
  induction states generalizing i b with
  | nil => exact .refl _
  | cons state states ih =>
    exact (addHandlers_le state i state.handlers
      ⟨b, replicate Event.tableWidth none, []⟩).trans (ih (i + 1) _)

/-- The handlers of states are generated in order, and every state has a row with its own. -/
theorem genStates_holds (hb : b.Compiles names ds)
    (hret : ∀ state ∈ states, ∀ h ∈ state.handlers, h.ret = .void)
    (he : (genStates names i states b).2.state.errors = []) :
    (genStates names i states b).2.Compiles names (ds ++ states.flatMap StateDecl.handlers) ∧
      (genStates names i states b).1.length = states.length ∧
      ∀ n state, states[n]? = some state → ∃ row, (genStates names i states b).1[n]? = some row ∧
        (genStates names i states b).2.Keeps names state (i + n)
          (ds.length + ((states.take n).flatMap StateDecl.handlers).length) state.handlers row := by
  induction states generalizing i b ds with
  | nil => exact ⟨by rwa [flatMap_nil, append_nil], rfl, nofun⟩
  | cons state states ih =>
    have hle := genStates_le names (i + 1) states (state.handlers.foldl (addHandler names state i)
        ⟨b, replicate Event.tableWidth none, []⟩).build
    have hr := addHandlers_holds hb.row (hret state mem_cons_self) (suffix_nil.1 (he ▸ hle.errors))
    obtain ⟨hcompiles, hlength, hrows⟩ := ih hr.compiles
      (forall_mem_cons.1 hret).2 he
    refine ⟨?_, congrArg (· + 1) hlength, fun n st hn => ?_⟩
    · rwa [flatMap_cons, ← append_assoc]
    cases n with
    | zero =>
      cases hn
      refine ⟨_, rfl, hr.keeps.width, fun k h hk => ?_, hr.keeps.only⟩
      obtain ⟨event, column, index, g, hosts⟩ := hr.keeps.hosts k h hk
      exact ⟨event, column, index, g, hosts.mono hle⟩
    | succ n =>
      obtain ⟨row, hrow, hkeeps⟩ := hrows n st hn
      refine ⟨row, hrow, ?_⟩
      rw [length_append, Nat.add_assoc ds.length, ← length_append] at hkeeps
      rwa [take_succ_cons, flatMap_cons, Nat.add_comm n, ← Nat.add_assoc]

theorem Build.Keeps.serves (h : b.Keeps names state i n hs cells) : Serves b.functions cells := by
  intro column index hcell
  obtain ⟨f, hf, event, hevent, hcolumn⟩ := h.only column index hcell
  obtain ⟨k, hk⟩ := getElem?_of_mem hf
  obtain ⟨event', column', index', g, hosts⟩ := h.hosts k f hk
  obtain rfl := Option.some.inj (hevent.symm.trans hosts.named)
  obtain rfl := Option.some.inj (hcolumn.symm.trans hosts.standing)
  obtain rfl := Option.some.inj (Option.some.inj (hcell.symm.trans hosts.cell))
  exact ⟨event, g, hcolumn, hosts.number ▸ hosts.function, hosts.assembled.2⟩

/-! ## Modules -/

end Compile

open Compile

/-- What the code of a module refers to outside a function. The initializer is the last function
and is not called by others. -/
def Module.linkage (m : Module) (tests : Bool) : Linkage where
  globals := m.globals.map GlobalSlot.ty
  constants := m.constants.toList
  functions := (m.functions.toList.take m.init.toNat).map fun g => (g.params, g.ret)
  states := m.states.length
  slots := Gen.maxLocals
  ret := .void
  frameStatic := 0
  core := !m.arrays
  tests
  library := true

/-- A function of the module has the code of a declaration. -/
def Module.Codes (m : Module) (tests : Bool) (f : FuncDecl) (g : Function) : Prop :=
  g.params = f.params.map Param.ty ∧ g.ret = f.ret ∧ ∃ Y, FunctionCode
    ((m.linkage tests).withFrame g.localCount.toNat g.ret Y.frameStatic) g.params f.blocks Y
    g.ops.toList

/-- The module has the tables of the script. -/
structure Module.Tabled (m : Module) (script : Script) : Prop where
  globals : m.globals.map GlobalSlot.ty = script.globals.map VarDecl.ty
  states : m.states.length = script.states.length
  dispatch : m.dispatch.length = script.states.length
  handlers : ∀ row ∈ m.dispatch, Serves (m.functions.toList.take m.init.toNat) row ∧
    row.length = Event.tableWidth
  arrays : m.arrays = script.arrays

/-- The module has the code of the script. -/
structure Module.Coded (m : Module) (script : Script) (tests : Bool) : Prop
    extends m.Tabled script where
  functions : List.Forall₂ (m.Codes tests) script.decls (m.functions.toList.take m.init.toNat)
  init : ∃ g, m.functions.toList.drop m.init.toNat = [g] ∧ g.params = [] ∧ g.ret = .void ∧
    InitCode (m.linkage tests) 0 0 g.ops.toList

variable {script : Script} {source name : String} {m : Module}

/-- The stages of the compilation of a script without an error. -/
theorem Module.ofScript_ok (h : Module.ofScript script source name = .ok m) :
    ∃ names b s init, namesOf script source = (names, []) ∧
      (genStates names 0 script.states (script.functions.foldl (addFunction names)
        ⟨[], ⟨[], 0, [], ⟨1, 1⟩, 0, [], []⟩⟩)) = (m.dispatch, b) ∧
      m.init.toNat = b.functions.length ∧ genInit names script.globals b.state = (init, s) ∧
      s.errors = [] ∧ m.arrays = script.arrays ∧ m.constants = s.constants.toArray ∧
      m.globals = names.globals.map (fun p => ⟨p.1, p.2.ty⟩) ∧
      m.functions = (b.functions ++ [init]).toArray ∧ m.states = names.states.map Prod.fst := by
  unfold Module.ofScript at h
  generalize hnames : namesOf script source = r1 at h
  obtain ⟨names, errors⟩ := r1
  dsimp only at h
  generalize hstates : genStates names 0 script.states (script.functions.foldl (addFunction names)
    ⟨[], ⟨[], 0, [], ⟨1, 1⟩, 0, [], errors.reverse⟩⟩) = r2 at h
  obtain ⟨dispatch, b⟩ := r2
  generalize hb : (if (Word.index? b.functions.length).isNone = true then
    b.complain .tooManyFunctions ⟨0, 0⟩ else b) = b' at h
  generalize hinit : genInit names script.globals b'.state = r3 at h
  obtain ⟨init, s⟩ := r3
  cases he : s.errors with
  | cons e es => rw [he] at h; cases h
  | nil =>
    rw [he] at h
    have hle : b'.state.errors <:+ s.errors := by
      have := (genInit_le names script.globals b'.state).1
      rwa [hinit] at this
    have he' : b'.state.errors = [] := suffix_nil.1 (he ▸ hle)
    cases hindex : Word.index? b.functions.length with
    | none =>
      rw [hindex] at hb
      subst hb
      cases he'
    | some index =>
      rw [hindex] at hb h
      obtain rfl : b = b' := hb
      have hgrows : (⟨[], ⟨[], 0, [], ⟨1, 1⟩, 0, [], errors.reverse⟩⟩ : Build).Le b := by
        have := (addFunctions_le names script.functions
          ⟨[], ⟨[], 0, [], ⟨1, 1⟩, 0, [], errors.reverse⟩⟩).trans (genStates_le names 0 script.states _)
        rwa [hstates] at this
      obtain rfl : errors = [] := reverse_eq_nil_iff.1 (suffix_nil.1 (he' ▸ hgrows.errors))
      cases h
      exact ⟨names, b, s, init, rfl, hstates, toNat_of_index? hindex, hinit, he, rfl, rfl, rfl, rfl,
        rfl⟩

theorem genFunction_params :
     (genFunction names f kind name ret s).1.params = f.params.map Param.ty ∧
      (genFunction names f kind name ret s).1.ret = ret := ⟨rfl, rfl⟩

theorem Origin.signature (h : Origin names st f g) :
    g.params = f.params.map Param.ty ∧ g.ret = f.ret := by
  obtain ⟨s, kind, name, rfl, -, -⟩ := h
  exact genFunction_params

theorem signatures_of_origin (h : List.Forall₂ (Origin names st) ds gs) :
    ds.map (fun f => (f.params.map Param.ty, f.ret)) = gs.map fun g => (g.params, g.ret) := by
  induction h with
  | nil => rfl
  | cons ho _ ih =>
    obtain ⟨hparams, hret⟩ := Origin.signature ho
    rw [map_cons, map_cons, ih, hparams, hret]

theorem stateIndex_toNat : (stateIndex k).toNat = min k 65535 :=
  UInt16.toNat_ofNat_of_lt' (Nat.lt_of_le_of_lt (Nat.min_le_right _ _) (by decide))

theorem stateIndex_lt {states : List StateDecl} (h : (name, i) ∈ states.zipIdx.map fun p =>
    (p.1.name, stateIndex p.2)) : i.toNat < states.length := by
  obtain ⟨⟨st, k⟩, hp, heq⟩ := mem_map.1 h
  have hi : i = stateIndex k := (Prod.mk.inj heq).2.symm
  have hk : k < states.length := by simpa using (mem_zipIdx hp).2.1
  rw [hi, stateIndex_toNat]
  omega

theorem namesOf_done (h : namesOf script source = (names, [])) :
    (names.globals.map (fun p => (p.1, p.2.ty)) = script.globals.map (fun d => (d.name, d.ty)) ∧
      (∀ (k : Nat) (p : String × GlobalVar), names.globals[k]? = some p → p.2.index.toNat = k) ∧
      (names.globals.map Prod.fst).Nodup) ∧ names.functions = (signatures 0 script.functions).1 ∧
    names.states = script.states.zipIdx.map fun p => (p.1.name, stateIndex p.2) := by
  obtain ⟨rfl, herrors⟩ := Prod.mk.inj h
  refine ⟨?_, rfl, rfl⟩
  have hg : globalVars [] script.globals = ((globalVars [] script.globals).1, []) := by
    rw [← (append_eq_nil_iff.1 herrors).2]
  obtain ⟨gs, hgs, htys, hnumbers, hnodup⟩ := globalVars_done hg nodup_nil
  rw [hgs] at hnodup ⊢
  exact ⟨htys, fun k p hp => (hnumbers k p hp).trans (Nat.zero_add k), hnodup⟩

theorem namesOf_signatures (h : namesOf script source = (names, [])) :
    (signatures 0 script.functions).2 = [] := by
  exact (append_eq_nil_iff.1 (Prod.mk.inj h).2).1

theorem Module.linkage_knows {tests : Bool} (hreg : script.Regular is)
    (hnames : namesOf script source = (names, [])) (harrays : m.arrays = script.arrays)
    (hglobals : m.globals = names.globals.map (fun p => ⟨p.1, p.2.ty⟩))
    (hstates : m.states = names.states.map Prod.fst)
    (hcompiles : List.Forall₂ (Origin names st) script.decls
      (m.functions.toList.take m.init.toNat)) : Knows (m.linkage tests) names := by
  obtain ⟨⟨htys, hnumbers, -⟩, hfunctions, hstates'⟩ := namesOf_done hnames
  have hcore : (m.linkage tests).core = !script.arrays := congrArg (!·) harrays
  refine ⟨fun name g hg => ?_, fun name sig hsig => ?_, rfl, fun name i hi => ?_⟩
  · obtain ⟨k, hk⟩ := mem_iff_getElem?.1 (mem_of_lookup hg)
    constructor
    · rw [hnumbers k _ hk]
      show (m.globals.map GlobalSlot.ty)[k]? = _
      rw [hglobals, map_map, getElem?_map, hk]
      rfl
    · have hmem : (name, g.ty) ∈ script.globals.map fun d => (d.name, d.ty) := by
        rw [← htys]
        exact mem_map.2 ⟨_, mem_of_lookup hg, rfl⟩
      obtain ⟨d, hd, heq⟩ := mem_map.1 hmem
      rw [hcore, ← (Prod.mk.inj heq).2]
      exact (hreg.globals d hd).1
  · rw [hfunctions] at hsig
    obtain ⟨k, f, hf, hindex, hparams, hret⟩ := mem_signatures (mem_of_lookup hsig)
    have hdecl : script.decls[k]? = some f := by
      unfold Script.decls
      rw [getElem?_append_left (List.getElem?_eq_some_iff.1 hf).1, hf]
    have hregular := hreg.functions f (mem_of_getElem? hf)
    rw [hindex, Nat.zero_add, hparams, hret, hcore]
    refine ⟨?_, fun ty hty => ?_, hregular.ret⟩
    · show ((m.functions.toList.take m.init.toNat).map fun g => (g.params, g.ret))[k]? = _
      rw [← signatures_of_origin hcompiles, getElem?_map, hdecl]
      rfl
    · obtain ⟨p, hp, rfl⟩ := mem_map.1 hty
      exact hregular.params p hp
  · rw [hstates'] at hi
    have hlt := stateIndex_lt (mem_of_lookup hi)
    show _ < m.states.length
    rw [hstates, hstates', length_map, length_map, length_zipIdx]
    exact hlt

theorem Origin.coded (h : Origin names st f g) (he : st.errors = [])
    (hconst : st.constants <+: Γ.constants) (hk : Knows Γ names)
    (hi : ∀ e, is e → Γ.tests = true ∨ ¬ names.NoValue e) (hreg : f.Regular Γ.core is) :
    ∃ Y, FunctionCode (Γ.withFrame g.localCount.toNat g.ret Y.frameStatic) g.params f.blocks Y
      g.ops.toList := by
  obtain ⟨s, kind, name, rfl, hes, hcs⟩ := h
  exact genFunction_coded rfl (suffix_nil.1 (he ▸ hes)) (hcs.trans hconst) hk hi hreg hreg.ret

theorem genInit_coded
    (h : genInit names ds s = (g, s')) (he : s'.errors = []) (hconst : s'.constants <+: Γ.constants)
    (hk : Knows Γ names) (hret : Γ.ret = .void) (hstatic : Γ.frameStatic = 0)
    (hslots : s'.localCount ≤ Γ.slots) (hglobals : Γ.globals = ds.map VarDecl.ty)
    (hds : ∀ d ∈ ds, d.ty.Allowed Γ.core ∧ ∀ e ∈ d.init, e.Regular Γ.core is)
    (hnames : ∀ (k : Nat) (d : VarDecl), ds[k]? = some d →
      ∃ g, names.globals.lookup d.name = some g ∧ g.index.toNat = k) :
    g.params = [] ∧ g.ret = .void ∧ InitCode Γ 0 0 g.ops.toList := by
  unfold genInit at h
  generalize hr : genGlobals names 0 ds s.fresh = r at h
  obtain ⟨code, s1⟩ := r
  obtain ⟨rfl, rfl⟩ := Prod.mk.inj h
  have hcoded := genGlobals_coded hk hret hstatic hds
    (by rw [drop_zero]; exact hglobals) (Nat.zero_le _)
    (fun k d hd => by simpa using hnames k d hd) rfl hr he hconst hslots
  refine ⟨rfl, rfl, ?_⟩
  show InitCode Γ 0 0 ((code.map (resolve [])).map Prod.fst)
  rw [map_map]
  exact hcoded

/-! ## Scripts -/

/-- The expression has a value: it is not a call of a function that gives none. -/
def Script.hasValue (script : Script) : Expr → Bool
  | .call name _ _ =>
    match script.functions.find? (·.name == name) with
    | some f => f.ret ≠ .void
    | none => (ApiFunction.find? name).all (·.2.ret ≠ .void)
  | _ => true

/-- Types are tested of expressions with values only. -/
def Script.valued (script : Script) : Bool :=
  script.exprs.all fun e => e.parts.all fun p => p.tested?.all script.hasValue

theorem Script.Regular.valued (h : script.Regular is)
    (hv : script.arrays = true → script.valued = true) :
    script.Regular (script.hasValue · = true) := by
  refine h.imp fun e he hreg => hreg.restrict fun hc p hp operand hop => ?_
  have hall := all_eq_true.1 (all_eq_true.1 (hv (by simpa using hc)) e he) p hp
  rwa [Option.mem_def.1 hop] at hall

theorem Script.valued_of_tests (h : script.tests = false) : script.valued = true := by
  rw [Script.tests_eq] at h
  refine all_eq_true.2 fun e he => all_eq_true.2 fun p hp => ?_
  cases hop : p.tested? with
  | none => rfl
  | some operand =>
    refine absurd ((Expr.tests_iff e).2 ⟨p, hp, ?_⟩) (any_eq_false.1 h e he)
    rw [hop]
    rfl

theorem Compile.noValue_of_hasValue (hnames : namesOf script source = (names, []))
    (he : script.hasValue e = true) : ¬ names.NoValue e := by
  cases e with
  | call name args span =>
    have hlookup := @signatures_lookup _ _ name (namesOf_signatures hnames)
    rw [← (namesOf_done hnames).2.1] at hlookup
    simp only [Names.NoValue]
    simp only [Script.hasValue] at he
    split
    · rename_i sig hsig
      obtain ⟨k, f, hfind, -, -, -, hret⟩ := hlookup.1 sig hsig
      rw [hfind] at he
      rw [hret]
      simpa using he
    · rename_i hnone
      rintro ⟨i, f, hf, hret⟩
      rw [hlookup.2 hnone, hf] at he
      simp [hret] at he
  | _ => exact id

/-- A script and the module that it is compiled to: the names, the functions and handlers, and the
initializer that is generated after them. -/
structure Compile.Compilation (script : Script) (source : String) (m : Module) (names : Names)
    (b : Build) (init : Function) (s : State) : Prop extends m.Tabled script where
  named : namesOf script source = (names, [])
  compiles : List.Forall₂ (Origin names b.state) script.decls (m.functions.toList.take m.init.toNat)
  last : m.functions.toList.drop m.init.toNat = [init]
  generated : genInit names script.globals b.state = (init, s)
  errors : s.errors = []
  constants : s.constants <+: m.constants.toList
  knows : ∀ tests, Knows (m.linkage tests) names

/-- The module has the functions of a build of the script and a row for each state, without an
error. -/
structure Compile.Assembled (script : Script) (source : String) (m : Module) (names : Names)
    (b : Build) : Prop where
  named : namesOf script source = (names, [])
  errors : b.state.errors = []
  constants : b.state.constants <+: m.constants.toList
  globals : m.globals = names.globals.map fun p => ⟨p.1, p.2.ty⟩
  states : m.states = names.states.map Prod.fst
  arrays : m.arrays = script.arrays
  functions : m.functions.toList.take m.init.toNat = b.functions
  compiles : List.Forall₂ (Origin names b.state) script.decls b.functions
  void : ∀ state ∈ script.states, ∀ f ∈ state.handlers, f.ret = .void
  height : m.dispatch.length = script.states.length
  rows : ∀ (n : Nat) (state : StateDecl), script.states[n]? = some state →
    ∃ row, m.dispatch[n]? = some row ∧ b.Keeps names state n
      (script.functions.length + ((script.states.take n).flatMap StateDecl.handlers).length)
      state.handlers row

section

variable (h : Module.ofScript script source name = .ok m)

include h

theorem Module.ofScript_built
    (hreg : script.Regular is) : ∃ names b init s, Assembled script source m names b ∧
      m.functions.toList.drop m.init.toNat = [init] ∧
      genInit names script.globals b.state = (init, s) ∧ s.errors = [] ∧
      s.constants = m.constants.toList := by
  obtain ⟨names, b, s, init, hnames, hstates, hindex, hinit, he, harrays, hconstants, hglobals,
    hfunctions, hnamed⟩ := Module.ofScript_ok h
  have hle := genInit_le names script.globals b.state
  rw [hinit] at hle
  have hb : b.state.errors = [] := suffix_nil.1 (he ▸ hle.1)
  have hret : ∀ state ∈ script.states, ∀ f ∈ state.handlers, f.ret = .void :=
    fun state hs f hf => (hreg.handlers state hs f hf).2
  have hstart : Build.Compiles names ⟨[], ⟨[], 0, [], ⟨1, 1⟩, 0, [], []⟩⟩ [] := .nil
  obtain ⟨hcompiles, hlength, hrows⟩ := genStates_holds
    (addFunctions_compiles script.functions hstart) hret (by rw [hstates]; exact hb)
  rw [hstates] at hcompiles hlength hrows
  refine ⟨names, b, init, s, ⟨hnames, hb, ?_, hglobals, hnamed, harrays, ?_, hcompiles, hret,
    hlength, fun n state hn => ?_⟩, ?_, hinit, he, ?_⟩
  · rw [hconstants]; exact hle.2
  · rw [hfunctions, hindex]; exact take_left
  · have := hrows n state hn
    rwa [Nat.zero_add] at this
  · rw [hfunctions, hindex]; exact drop_left
  · rw [hconstants]

theorem Module.ofScript_assembled
    (hreg : script.Regular is) : ∃ names b, Assembled script source m names b := by
  obtain ⟨names, b, _, _, hassembled, -⟩ := Module.ofScript_built h hreg
  exact ⟨names, b, hassembled⟩

theorem Module.ofScript_compilation
    (hreg : script.Regular is) : ∃ names b init s, Compilation script source m names b init s := by
  obtain ⟨names, b, init, s, h, hlast, hinit, he, hconstants⟩ := Module.ofScript_built h hreg
  obtain ⟨⟨htys, -, -⟩, -, hstates⟩ := namesOf_done h.named
  have hcompiles := h.functions.symm ▸ h.compiles
  refine ⟨names, b, init, s, ?_⟩
  exact
    { named := h.named
      compiles := hcompiles
      last := hlast
      generated := hinit
      errors := he
      constants := by rw [hconstants]
      knows := fun tests =>
        Module.linkage_knows hreg h.named h.arrays h.globals h.states hcompiles
      globals := by
        have := congrArg (List.map Prod.snd) htys
        rw [map_map, map_map] at this
        rw [h.globals, map_map]
        exact this
      states := by rw [h.states, hstates, length_map, length_map, length_zipIdx]
      dispatch := h.height
      handlers := fun row hrow => by
        obtain ⟨n, hn⟩ := getElem?_of_mem hrow
        obtain ⟨state, hstate⟩ : ∃ state, script.states[n]? = some state :=
          ⟨_, getElem?_eq_getElem (h.height ▸ (List.getElem?_eq_some_iff.1 hn).1)⟩
        obtain ⟨row', hrow', hkeeps⟩ := h.rows n state hstate
        obtain rfl := Option.some.inj (hn.symm.trans hrow')
        exact ⟨h.functions ▸ hkeeps.serves, hkeeps.width⟩
      arrays := h.arrays }

end

namespace Compile.Compilation

variable (h : Compilation script source m names b init s)

include h

theorem core_eq : (!script.arrays) = (m.linkage tests).core := congrArg (!·) h.arrays.symm

theorem init_le : b.state.errors <:+ s.errors ∧ b.state.constants <+: s.constants := by
  have := genInit_le names script.globals b.state
  rwa [h.generated] at this

theorem functions_coded
    (hreg : script.Regular is) (hi : ∀ e, is e → tests = true ∨ script.hasValue e = true) :
    List.Forall₂ (m.Codes tests) script.decls (m.functions.toList.take m.init.toNat) := by
  have hregular : ∀ f ∈ script.decls, f.Regular (m.linkage tests).core is := by
    intro f hf
    rw [← h.core_eq]
    rcases mem_append.1 hf with hf | hf
    · exact hreg.functions f hf
    · obtain ⟨state, hs, hf⟩ := mem_flatMap.1 hf
      exact (hreg.handlers state hs f hf).1
  have hvalued : ∀ e, is e → (m.linkage tests).tests = true ∨ ¬ names.NoValue e :=
    fun e he => (hi e he).imp_right (noValue_of_hasValue h.named)
  refine ((forall₂_and_left _ _).2 ⟨hregular, h.compiles⟩).imp fun f g hfg => ?_
  exact ⟨(Origin.signature hfg.2).1, (Origin.signature hfg.2).2,
    Origin.coded hfg.2 (suffix_nil.1 (h.errors ▸ h.init_le.1))
      (h.init_le.2.trans h.constants) (h.knows tests) hvalued hfg.1⟩

theorem global_index (k : Nat) (d : VarDecl) (hd : script.globals[k]? = some d) :
    ∃ g, names.globals.lookup d.name = some g ∧ g.index.toNat = k := by
  obtain ⟨⟨htys, hnumbers, hnodup⟩, -⟩ := namesOf_done h.named
  have hpair := congrArg (·[k]?) htys
  simp only [getElem?_map, hd] at hpair
  obtain ⟨p, hp, heq⟩ := Option.map_eq_some_iff.1 hpair
  have hname : p.1 = d.name := (Prod.mk.inj heq).1
  exact ⟨p.2, hname ▸ lookup_of_nodup hnodup (mem_of_getElem? hp), hnumbers k p hp⟩

/-- The initializer, with as many slots as it uses. First values have no calls, so no operands are
missing in it. -/
theorem init_coded (hreg : script.Regular is)
    (hslots : s.localCount ≤ slots) : init.params = [] ∧ init.ret = .void ∧
      InitCode { m.linkage tests with slots } 0 0 init.ops.toList := by
  have hk := h.knows tests
  have hcore : (!script.arrays) = (m.linkage tests).core := h.core_eq
  exact genInit_coded h.generated h.errors h.constants
    ⟨hk.globals, hk.functions, hk.library, hk.states⟩ rfl rfl hslots h.globals
    (fun d hd => hcore ▸ hreg.globals d hd) h.global_index

theorem localCount_le : s.localCount ≤ Gen.maxLocals := by
  have hle := genGlobals_le names 0 script.globals b.state.fresh
  have hs : s = (genGlobals names 0 script.globals b.state.fresh).2 :=
    (congrArg Prod.snd h.generated).symm
  rw [hs]
  exact hle.bounded (Nat.zero_le _)

end Compile.Compilation

/-- Compiled modules have the code of their scripts. Without `tests`, the operands whose types are
tested are to have values. -/
theorem Module.ofScript_coded (h : Module.ofScript script source name = .ok m)
    (hreg : script.Regular is) (hi : ∀ e, is e → tests = true ∨ script.hasValue e = true) :
    m.Coded script tests := by
  obtain ⟨names, b, init, s, hc⟩ := Module.ofScript_compilation h hreg
  exact
    { hc.toTabled with
      functions := hc.functions_coded hreg hi
      init := ⟨init, hc.last, hc.init_coded hreg hc.localCount_le⟩ }

end EventScript
