import EventScript.Proofs.Interpretation.Statements

/-!
# Calls of functions follow the interpretation

`calls_follow`: a machine that has entered a function of a compiled script does what the
interpretation of the call does, and is then about to return with its value. The depth of calls is
bounded, and the argument goes by induction on the bound: a call in the body of a function has a
lower one, and the first instruction of a function is the step that makes up for it.
-/

namespace EventScript.Interp

open List

open Compile Machine

variable {ω : Type} {env : Env ω}

theorem inScopes_follows (h : Follows calling env m n (x.run { σ with scopes }) P s w) :
    Follows calling env m n ((inScopes scopes x).run σ)
      (fun a σ' s w => ∃ σ1, P a σ1 s w ∧ σ' = { σ1 with scopes := σ.scopes }) s w := by
  change Follows calling env m n (x.run { σ with scopes } >>= _) _ s w
  cases hr : x.run { σ with scopes } with
  | ok p =>
    rw [hr] at h
    exact Leads.mono h fun s w hs => ⟨p.2, hs, rfl⟩
  | error e =>
    rw [hr] at h
    refine Leads.mono h fun s w hs => ?_
    cases e <;> exact hs

theorem mirrors_params (hnames : ps.map (fun v => (v.1, v.2.ty)) = params.map fun p =>
    (p.name, p.ty)) (hslots : ps.map (fun v => v.2.slot.toNat) = range' k ps.length)
    (hargs : Ty.AdmitAll (params.map Param.ty) args)
    (hvalues : ∀ i v, args[i]? = some v → values[k + i]? = some v) :
    Mirrors values ps (zipWith (fun (p : Param) v =>
      (p.name, (⟨p.ty, v⟩ : Cell))) params args) := by
  induction params generalizing ps args k with
  | nil =>
    cases ps with
    | nil => exact .nil
    | cons p ps => cases hnames
  | cons p params ih =>
    cases ps with
    | nil => cases hnames
    | cons q ps =>
      cases hargs with
      | @cons _ v _ args hv hargs =>
        obtain ⟨hq, hnames⟩ := cons.inj hnames
        obtain ⟨hname, hty⟩ := Prod.mk.inj hq
        obtain ⟨hslot, hslots⟩ := cons.inj hslots
        refine .cons ⟨hname.symm, hty.symm, hty ▸ hv, ?_⟩ (ih hnames hslots hargs fun i u hu => ?_)
        · rw [show q.2.slot.toNat = k from hslot]
          exact hvalues 0 v rfl
        · rw [Nat.add_assoc, Nat.add_comm 1 i]
          exact hvalues (i + 1) u hu

namespace Bench

variable {B : Bench ω}

theorem at_start (hps : Slotted 0 (f.params.map fun p => (p.name, p.ty)) ps)
    (hslots : ps.length ≤ B.slots) (hargs : Ty.AdmitAll (f.params.map Param.ty) args)
    (hagrees : Agrees B.names σ M w) :
    B.At 0 [(Scope.empty none).extend true ps] (fillLocals B.slots args) []
      { σ with scopes := [⟨paramVars f args, []⟩] }
      { M with frames := ⟨.script, B.index, 0, fillLocals B.slots args, []⟩ :: B.callers } w := by
  have hlength : args.length ≤ B.slots := by
    have h1 := hargs.length_eq
    have h2 := congrArg List.length hps.names
    simp only [length_map] at h1 h2
    omega
  have hmirrors : Mirrors (fillLocals B.slots args) ps
      (List.zipWith (fun (p : Param) v => (p.name, (⟨p.ty, v⟩ : Cell))) f.params args) := by
    refine mirrors_params hps.names hps.slots hargs fun i v hv => ?_
    rw [Nat.zero_add, fillLocals, take_of_length_le hlength,
      getElem?_append_left (List.getElem?_eq_some_iff.1 hv).1, hv]
  have hvisible : ((Scope.empty none).extend true ps).visible = ps.reverse := append_nil _
  exact {
    hagrees.move rfl rfl rfl rfl with
    frames := rfl
    locals_length := fillLocals_length _ _
    shows := .cons ⟨hvisible ▸ rel_reverse hmirrors, .nil⟩ .nil }

variable [hB : Fact B.calling]

theorem At.enterFrame {ds : List VarDecl} (h : B.At 0 [(Scope.empty none).extend true ps] locals []
    σ M w) (houter : Apart [(Scope.empty none).extend true ps] ps.length)
    (hbs : Slotted ps.length (ds.map fun d => (d.name, d.ty)) bs)
    (hallowed : ∀ d ∈ ds, d.ty.Allowed true) (hslots : ps.length + bs.length ≤ B.slots)
    (hops : B.Has 0 ops) (heq : ops = .memStatic cost ::
      (((Scope.empty none).extend true ps).dynamicSlots.map fun slot => .memIncr (.localVar slot)) ++
        initOps ((Scope.empty block).extend false bs).owned ++ [.checkRun]) :
    ∃ M', step B.setting.env B.module M w = .next M' w ∧
      B.Leads (B.Placed ops.length
        [(Scope.empty block).extend false bs, (Scope.empty none).extend true ps] []
        { σ with scopes := ⟨[], ds.map fun d =>
          (d.name, ⟨d.ty, .default d.ty⟩)⟩ :: σ.scopes }) M' w := by
  subst heq
  refine ⟨_, h.step_does hops.left.left.head .memStatic, ?_⟩
  have h1 : B.At 1 _ locals [] σ ((M.setTop ⟨.script, B.index, 1, locals, []⟩).charge cost) w :=
    (h.moved 1 []).charged _
  refine (h1.idles hops.left.left.tail fun op hop => ?_).bind fun M w h2 => ?_
  · obtain ⟨slot, hslot, rfl⟩ := mem_map.1 hop
    obtain ⟨v, hv, rfl⟩ := mem_map.1 hslot
    have hlt := houter.owned _ mem_cons_self v (mem_of_mem_filter hv)
    exact Nat.lt_of_lt_of_le hlt ((Nat.le_add_right _ _).trans hslots)
  have hinit := hops.left.right
  rw [length_cons, Nat.zero_add, Nat.add_comm _ 1] at hinit
  refine (h2.initVars hinit hbs.nodup_slots fun v hv => ?_).bind ?_
  · obtain ⟨hlow, hhigh⟩ := hbs.slot_mem hv
    refine ⟨Nat.lt_of_lt_of_le hhigh hslots, fun hmem => ?_⟩
    have := houter.below _ hmem
    omega
  rintro M w ⟨locals', hvalues, -, h3⟩
  have h4 := h3.openScope hbs hvalues hallowed block
  have hcheck := hops.right
  rw [length_append, length_cons, Nat.zero_add, Nat.add_comm _ 1] at hcheck
  refine (h4.idle hcheck.head hB.out).mono fun M w h5 => ⟨locals', ?_⟩
  rw [length_append, length_append, length_cons, Nat.add_comm (length _) 1]
  exact h5

/-- A function is run from its start to its end, of which the first instruction is a step of its
own. -/
theorem frame_follows (hreg : f.Regular true is) (hjumps : Stmt.anyJumps f.body.stmts = false)
    (hf : Opened f ps bs s) (hdone : genFrame f B.context s = .done () code s')
    (he : s'.errors = [])
    (hfits : B.Fits s code s') (hat : B.At 0 [(Scope.empty none).extend true ps] locals [] σ M w) :
    ∃ M', step B.setting.env B.module M w = .next M' w ∧
      B.Follows ((execAll B.setting f.body.stmts).run
          { σ with scopes := ⟨[], blockVars f.body.stmts⟩ :: σ.scopes })
        (fun flow σ' M' w' => Agrees B.names σ' M' w' ∧
          Leaving B.module B.callers B.context.ret (result B.context.ret flow) M') M' w := by
  obtain ⟨-, hps, hbs, hscopes, hcount, hpc, -⟩ := hf
  have hallowed := itemsRegular_allowed hreg.body
  have hnone : Apart [] 0 := ⟨nodup_nil, nofun, nofun, nofun⟩
  have houter := apart_enter hnone hps (by simpa using hreg.params) none true
  rw [Nat.zero_add] at houter
  have hbody := apart_enter houter hbs (by simpa using hallowed) (some f.body.id) false
  obtain ⟨enter, stmts, leave, s1, place, rfl, henter, h1, h2⟩ := genFrame_done hscopes hdone
  rw [append_assoc] at hfits
  have hle1 : s1.Le s' := (State.Le.of_eq rfl rfl rfl rfl le_rfl :
    s1.Le { s1 with place }).trans (Gen.Grows.of_done h2)
  have hfits1 : B.Fits { s with pc := s.pc + enter.length } (stmts ++ leave) s' := hfits.second rfl
  obtain ⟨scope', -, hapart', hmade, hrun⟩ := genStmts_follows
    (fun stmt _ => genStmt_performs is stmt) hreg.body hjumps h1 (hle1.errors_eq_nil he) hscopes
    (hbs.waiting (some f.body.id)) (hcount ▸ hbody) (hfits1.first hle1)
  obtain ⟨-, hend⟩ := returnDefault_performs h2 he hmade.scopes hapart'
    ⟨hfits1.constants, hfits1.slots, (hfits1.second hmade.pc).code⟩
  -- the instructions before the body
  have hslots := hcount ▸ hmade.count.trans (hle1.localCount.trans hfits.slots)
  have hcode := hfits.code
  rw [opsOf_append, hpc] at hcode
  obtain ⟨M', hstep, hentered⟩ := hat.enterFrame houter hbs hallowed hslots hcode.left (henter B.marks)
  refine ⟨M', hstep, hentered.bind fun M w hM => ?_⟩
  rw [length_opsOf, ← Nat.zero_add enter.length, ← hpc] at hM
  refine (hrun hM).bind_post fun flow σ M w hflow => ?_
  cases flow with
  | next => exact hend hflow
  | returned v => exact .here hflow

end Bench

/-! ## Calls -/

/-- A function of the module has been generated from a declaration without jumps. -/
structure Compiled (m : Module) (names : Names) (f : FuncDecl) (index : UInt16) : Prop where
  regular : ∃ is, f.Regular true is
  jumps : Stmt.anyJumps f.body.stmts = false
  framed : ∃ g ps bs s s' code, m.function? index = some g ∧ g.ret = f.ret ∧
    Framed names f f.ret g ps bs s s' code ∧ s'.errors = [] ∧ s'.constants <+: m.constants.toList

theorem call_follows (hf : Compiled m names f index)
    (hreflects : Reflects script m names) (htyped : env.Typed) (hpolls : ∀ w, (env.poll w).2 = w)
    (hcalls : Calls env script m names n (call env script n)) (hagrees : Agrees names σ s w)
    (hargs : Ty.AdmitAll (f.params.map Param.ty) args)
    (henter : s.enter m index args = .ok s0) :
    Follows True env m (n + 1) ((call env script (n + 1) f args).run σ) (fun v σ' s' w' =>
      σ'.scopes = σ.scopes ∧ Agrees names σ' s' w' ∧ Leaving m s.frames f.ret v s') s0 w := by
  obtain ⟨⟨is, hreg⟩, hjumps, g, ps, bs, st, st', code, hg, hret, hframed, he, hconst⟩ := hf
  obtain ⟨g', hg', -, rfl⟩ := enter_ok henter
  obtain rfl := Option.some.inj (hg.symm.trans hg')
  have hdone := hframed.done
  generalize frameSize + _ + _ = cost at hdone
  let B : Bench ω := {
    setting := ⟨env, script, f.ret, n, call env script n⟩
    module := m
    context := ⟨names, f.ret, cost, labelsOf f.body, none⟩
    marks := st'.marks
    index
    function := g
    callers := s.frames
    found := hg
    ordered := hreflects.toNumbered
    calling := True
    linked := fun _ => ⟨rfl, hret, rfl, hreg.ret, hreflects, hpolls, htyped, hcalls⟩ }
  have hB : Fact B.calling := ⟨trivial⟩
  have hfits : B.Fits st code st' := by
    refine ⟨hconst, hframed.slots.ge, fun k op hk => ?_⟩
    rw [hframed.pc, Nat.zero_add, ← Array.getElem?_toList]
    exact hframed.ops ▸ hk
  have hslots : ps.length ≤ B.slots := by
    have hle := (Gen.Grows.of_done hdone).localCount
    rw [hframed.count] at hle
    exact (Nat.le_add_right _ _).trans (hle.trans hfits.slots)
  obtain ⟨M', hstep, hrun⟩ := Bench.frame_follows hreg hjumps hframed.toOpened hdone he
    hfits (B.at_start hframed.params hslots hargs hagrees)
  refine Follows.later hstep (Follows.bind (inScopes_follows hrun) ?_)
  rintro flow σ' s' w' ⟨σ1, ⟨hagrees', hleaving⟩, rfl⟩
  exact .here ⟨rfl, hagrees'.move rfl rfl rfl rfl, hleaving⟩

/-- Calls of functions of a compiled script follow the interpretation. -/
theorem calls_follow (hreflects : Reflects script m names) (htyped : env.Typed)
    (hpolls : ∀ w, (env.poll w).2 = w)
    (hfunctions : ∀ name sig f, names.functions.lookup name = some sig →
      script.functions.find? (·.name == name) = some f → Compiled m names f sig.index) (n : Nat) :
    Calls env script m names n (call env script n) := by
  induction n with
  | zero => exact fun _ _ _ _ _ _ _ _ _ _ _ _ _ => Leads.here ⟨trivial, .zero⟩
  | succ n ih =>
    intro name sig f hsig hf σ s w s0 args hagrees hargs henter
    obtain ⟨f', g, hf', hparams, hret, -⟩ := hreflects.function name sig hsig
    obtain rfl := Option.some.inj (hf.symm.trans hf')
    rw [hparams] at hargs
    rw [hret]
    exact call_follows (hfunctions name sig f hsig hf) hreflects htyped hpolls ih hagrees hargs henter

end EventScript.Interp
