import EventScript.Proofs.Accounting

/-!
# Changes of state

A function that asks for another state ends the handler. It returns at once, and so does every caller
(`Machine.unwinding_silent`): nothing is called or assigned on the way, no checkpoint is passed, and
nothing can fault, until the outermost call has returned.

It is so because the code behind each call tests for a change of state, and the code behind the test
and behind each `setState` does nothing but leave the function (`Guards`, `Exits`). Compiled code has
this shape everywhere (`Module.Coded.tidy`).
-/

namespace EventScript

open List Option

/-- The instruction gives back memory of a frame with the given number of slots, or pushes a default
value. -/
def Op.Leaves (slots : Nat) : Op → Prop
  | .memStatic _ | .pushDefault _ => True
  | .memDecr (.localVar slot) => slot.toNat < slots
  | _ => False

/-- The instruction takes part in a change of state. -/
def Op.unwinds : Op → Bool
  | .memStatic _ | .pushDefault _ | .memDecr _ | .ret | .jumpIfNoStateChange _ => true
  | _ => false

/-- The instruction calls a function of the script or asks for a state. -/
def Op.changes : Op → Bool
  | .call _ | .setState _ => true
  | _ => false

/-- The instruction does not only work with the operands and the variables of its call: it jumps,
calls, asks for something or is a checkpoint. -/
def Op.departs : Op → Bool
  | .jump _ | .jumpIfFalse _ | .jumpIfTrue _ | .jumpIfNoStateChange _ | .call _ | .callApi _
  | .checkRun | .setState _ => true
  | _ => false

theorem Op.changes_of_departs {op : Op} (h : op.departs = false) : op.changes = false := by
  cases op with
  | call | setState => cases h
  | _ => rfl

namespace Compile

/-! ## Code -/

/-- The code leaves a function that has the given operands and returns a value of the given type. -/
def Exits (slots : Nat) (ret : Ty) (operands : List Value) (code : List Op) : Prop :=
  ∃ ops rest, code = ops ++ .ret :: rest ∧ (∀ op ∈ ops, op.Leaves slots) ∧
    (ret = .void ∨ operands ≠ [] ∨ ∃ ty, .pushDefault ty ∈ ops)

/-- The code leaves a function if a change of state has been asked for. -/
def Guards (slots : Nat) (ret : Ty) (code : List Op) : Prop :=
  ∃ target rest, code = .jumpIfNoStateChange target :: rest ∧ Exits slots ret [] rest

/-- What has to follow an instruction. -/
def Follow (slots : Nat) (ret : Ty) (code : List Op) : Op → Prop
  | .call _ => Guards slots ret code
  | .setState _ => Exits slots ret [] code
  | _ => True

/-- Behind every call there is a test for a change of state, and a function that asks for one is
left. -/
def Tidy (slots : Nat) (ret : Ty) : List Op → Prop
  | [] => True
  | op :: code => Follow slots ret code op ∧ Tidy slots ret code

theorem Exits.append (h : Exits slots ret operands a) (b : List Op) :
    Exits slots ret operands (a ++ b) := by
  obtain ⟨ops, rest, rfl, hops, hret⟩ := h
  exact ⟨ops, rest ++ b, by rw [append_assoc]; rfl, hops, hret⟩

theorem Guards.append (h : Guards slots ret a) (b : List Op) : Guards slots ret (a ++ b) := by
  obtain ⟨target, rest, rfl, hrest⟩ := h
  exact ⟨target, rest ++ b, rfl, hrest.append b⟩

theorem Follow.append (h : Follow slots ret a op) (b : List Op) : Follow slots ret (a ++ b) op := by
  cases op with
  | call i => exact Guards.append h b
  | setState n => exact Exits.append h b
  | _ => trivial

theorem Tidy.append (ha : Tidy slots ret a) (hb : Tidy slots ret b) : Tidy slots ret (a ++ b) := by
  induction a with
  | nil => exact hb
  | cons op a ih => exact ⟨ha.1.append b, ih ha.2⟩

theorem Tidy.of_forall (h : ∀ op ∈ code, op.changes = false) : Tidy slots ret code := by
  induction code with
  | nil => trivial
  | cons op code ih =>
    refine ⟨?_, ih (forall_mem_cons.1 h).2⟩
    have hop := h op mem_cons_self
    cases op <;> trivial

theorem Tidy.op {op : Op} (h : op.changes = false) : Tidy slots ret [op] :=
  .of_forall fun _ hop => mem_singleton.1 hop ▸ h

theorem Tidy.drop (h : Tidy slots ret code) (n : Nat) : Tidy slots ret (code.drop n) := by
  induction n generalizing code with
  | zero => exact h
  | succ n ih =>
    cases code with
    | nil => trivial
    | cons op code => exact ih h.2

/-- What follows the instruction at a place. -/
theorem Tidy.follow {op : Op} (h : Tidy slots ret code) (hop : code[pc]? = some op) :
    Follow slots ret (code.drop (pc + 1)) op := by
  obtain ⟨hlt, rfl⟩ := List.getElem?_eq_some_iff.1 hop
  have hdrop := h.drop pc
  rw [drop_eq_getElem_cons hlt] at hdrop
  exact hdrop.1

/-! ## Compiled code -/

variable {Γ : Linkage}

/-- The variables in scope have slots of the frame. -/
def Linkage.Bounds (Γ : Linkage) (χ : Chain) : Prop := ∀ v ∈ χ.vars, v.slot.toNat < Γ.slots

variable {r : Region}

theorem dynamicSlots_lt (hr : ∀ v ∈ r.vars, v.slot.toNat < Γ.slots) :
    ∀ slot ∈ r.dynamicSlots, slot.toNat < Γ.slots := by
  intro slot hslot
  obtain ⟨v, hv, rfl⟩ := mem_map.1 hslot
  exact hr v (mem_of_mem_filter hv)

theorem Linkage.Bounds.region (h : Γ.Bounds χ) (hr : r ∈ χ) :
    ∀ v ∈ r.vars, v.slot.toNat < Γ.slots := fun v hv => h v (mem_flatMap.2 ⟨r, hr, hv⟩)

theorem leaves_leaveFrameOps (h : Γ.Bounds χ) :
    ∀ op ∈ leaveFrameOps Γ.frameStatic χ, op.Leaves Γ.slots :=
  forall_mem_leaveFrameOps (fun _ => trivial) fun _ hr => dynamicSlots_lt (h.region hr)

theorem exits_returnDefaultOps (h : Γ.Bounds χ) : Exits Γ.slots Γ.ret [] (returnDefaultOps Γ χ) :=
    by
  refine ⟨(if Γ.ret ≠ .void then [.pushDefault Γ.ret] else []) ++ leaveFrameOps Γ.frameStatic χ, [],
    by rw [returnDefaultOps, returnOps, append_assoc], ?_, ?_⟩
  · exact forall_mem_append.2 ⟨forall_mem_ite trivial, leaves_leaveFrameOps h⟩
  · by_cases hret : Γ.ret = .void
    · exact .inl hret
    · rw [if_pos hret]
      exact .inr (.inr ⟨Γ.ret, mem_append_left _ (mem_singleton_self _)⟩)

theorem tidy_returnOps : Tidy slots ret (returnOps Γ χ) :=
  .append (.of_forall (forall_mem_leaveFrameOps (fun _ => rfl) fun _ _ _ _ => rfl)) (.op rfl)

theorem tidy_returnDefaultOps : Tidy slots ret (returnDefaultOps Γ χ) :=
  .append (.of_forall (forall_mem_ite rfl)) tidy_returnOps

theorem Plain.changes (h : Plain Γ χ fresh op S S') : op.changes = false := by
  cases h with
  | @load var _ _ _ => cases var <;> rfl
  | _ => rfl

theorem Plain.departs (h : Plain Γ χ fresh op S S') (hlibrary : Γ.library = false) :
    op.departs = false := by
  cases h with
  | callApi hl _ | checkRun hl => rw [hlibrary] at hl; cases hl
  | @load var _ _ _ => cases var <;> rfl
  | _ => rfl

theorem departs_storeOps : ∀ op ∈ storeOps var ty, op.departs = false :=
  forall_mem_storeOps (by cases var <;> rfl) rfl rfl

theorem departs_componentOps : ∀ op ∈ componentOps var ty c k, op.departs = false :=
  forall_mem_componentOps departs_storeOps (by cases var <;> rfl) rfl rfl rfl

theorem Straight.tidy (h : Straight Γ χ fresh pc code S S') (hχ : Γ.Bounds χ) :
    Tidy Γ.slots Γ.ret code := by
  induction h with
  | nil => trivial
  | append _ _ ih1 ih2 => exact ih1.append ih2
  | plain h => exact .op h.changes
  | store _ =>
    exact .of_forall fun op hop => Op.changes_of_departs (departs_storeOps op hop)
  | component _ _ _ =>
    exact .of_forall fun op hop => Op.changes_of_departs (departs_componentOps op hop)
  | arraySet _ _ | spill _ _ | reload _ _ => exact .op rfl
  | call _ _ =>
    exact ⟨⟨_, _, rfl, exits_returnDefaultOps hχ⟩, trivial, tidy_returnDefaultOps⟩

theorem tidy_initOps : Tidy slots ret (initOps vars) :=
  .of_forall (forall_mem_initOps (fun _ => rfl) fun _ _ => rfl)

theorem Structured.tidy (h : Structured Γ Λ χ fresh pc code fresh' o l) (hχ : Γ.Bounds χ) :
    Tidy Γ.slots Γ.ret code := by
  induction h with
  | nil | declareDefault => trivial
  | append _ _ ih1 ih2 => exact (ih1 hχ).append (ih2 hχ)
  | straight h => exact h.tidy hχ
  | declare h =>
    exact (h.tidy hχ).append (.of_forall (forall_mem_cons.2 ⟨rfl, forall_mem_ite rfl⟩))
  | block r _ hr _ _ ih =>
    refine .append (.append (.append (.of_forall (forall_mem_ite rfl)) tidy_initOps) (ih ?_))
      (.of_forall (forall_mem_leaveOps (fun _ => rfl) fun _ _ => rfl))
    exact fun v hv => (mem_append.1 hv).elim (fun hv => (hr.spare v hv).1) (hχ v)
  | ifThen h _ _ ih =>
    exact (h.tidy hχ).append (.append (.op rfl) (ih hχ))
  | ifElse h _ _ _ _ ih1 ih2 =>
    refine (h.tidy hχ).append (.append (.op rfl) ?_)
    exact (ih1 hχ).append (.append (.op rfl) (ih2 hχ))
  | loop h _ _ _ ih =>
    refine .append (.op rfl) ((h.tidy hχ).append ?_)
    exact .append (.op rfl) ((ih hχ).append (.op rfl))
  | forever _ _ ih => exact .append (.op rfl) ((ih hχ).append (.op rfl))
  | doWhile _ h _ ih =>
    exact .append (.op rfl) ((ih hχ).append ((h.tidy hχ).append (.op rfl)))
  | label _ _ _ => exact .of_forall (forall_mem_ite rfl)
  | jump _ _ _ _ =>
    exact .append (.of_forall (forall_mem_flatMap_leaveOps (fun _ => rfl) fun _ _ _ _ => rfl))
      (.op rfl)
  | ret h => exact (h.tidy hχ).append tidy_returnOps
  | state _ => exact ⟨exits_returnDefaultOps hχ, tidy_returnDefaultOps⟩

theorem FunctionCode.tidy (h : FunctionCode Γ params blocks Y ops) : Tidy Γ.slots Γ.ret ops := by
  obtain @⟨Λ, id, fresh, code, l, hstatic, -, -, houter, hparams, hslots, -, hbody, hfresh, hcode,
    -, -, -⟩ := h
  have hχ : Γ.Bounds Y.frame :=
    ((Layout.Frames.mk hstatic houter hbody hparams hslots).fits hfresh).below
  refine .append (.append ?_ (hcode.tidy hχ)) tidy_returnDefaultOps
  refine .append (.append (.of_forall ?_) tidy_initOps) (.op rfl)
  exact forall_mem_cons.2 ⟨rfl, forall_mem_map.2 fun _ _ => rfl⟩

theorem Straight.departs (h : Straight Γ χ fresh pc code S S') (hlibrary : Γ.library = false)
    (hf : Γ.functions = []) : ∀ op ∈ code, op.departs = false := by
  induction h with
  | nil => nofun
  | append _ _ ih1 ih2 => exact forall_mem_append.2 ⟨ih1, ih2⟩
  | plain h => exact forall_mem_singleton.2 (h.departs hlibrary)
  | store _ => exact departs_storeOps
  | component _ _ _ => exact departs_componentOps
  | call hi _ => rw [hf] at hi; cases hi
  | arraySet _ _ | spill _ _ | reload _ _ => exact forall_mem_singleton.2 rfl

/-- The initializer only works with its operands and variables. -/
theorem InitCode.departs (h : InitCode Γ i pc code) : ∀ op ∈ code, op.departs = false := by
  induction h with
  | nil => exact forall_mem_singleton.2 rfl
  | cons _ _ hcode _ ih =>
    refine forall_mem_append.2 ⟨forall_mem_cons.2 ⟨rfl, forall_mem_append.2 ⟨?_, ?_⟩⟩, ih⟩
    · exact hcode.departs rfl rfl
    · exact forall_mem_cons.2 ⟨rfl, forall_mem_ite rfl⟩

end Compile

open Compile

def Module.Tidy (m : Module) : Prop :=
  ∀ i g, m.function? i = some g → Compile.Tidy g.localCount.toNat g.ret g.ops.toList

variable {m : Module} {script : Script}

theorem Module.Coded.init_of_ge (hcoded : m.Coded script tests) (hg : m.function? i = some g)
    (hi : ¬ i.toNat < m.init.toNat) :
    g.ret = .void ∧ InitCode (m.linkage tests) 0 0 g.ops.toList := by
  obtain ⟨g', hdrop, -, hret, hcode⟩ := hcoded.init
  have hget : [g'][i.toNat - m.init.toNat]? = some g := by
    rw [← hdrop, getElem?_drop, Nat.add_sub_cancel' (Nat.not_lt.1 hi), Array.getElem?_toList]
    exact hg
  obtain rfl : g' = g := by
    have := mem_of_getElem? hget
    rw [mem_singleton] at this
    exact this.symm
  exact ⟨hret, hcode⟩

theorem Module.Coded.tidy (hcoded : m.Coded script tests) : m.Tidy := by
  intro i g hg
  by_cases hi : i.toNat < m.init.toNat
  · obtain ⟨Y, hlaid⟩ := hcoded.exists_laid
    obtain ⟨f, -, -, -, hcode⟩ := hlaid i g hg hi
    exact hcode.tidy
  · exact .of_forall fun op hop =>
      Op.changes_of_departs ((hcoded.init_of_ge hg hi).2.departs op hop)

/-! ## Machines -/

structure Frame.IsOf (m : Module) (f : Frame) (g : Function) : Prop where
  receiver : f.receiver = .script
  function : m.function? f.function = some g
  locals : f.locals.length = g.localCount.toNat

/-- The frame goes on with a test for a change of state. -/
def Frame.Guarded (m : Module) (f : Frame) : Prop :=
  ∃ g, f.IsOf m g ∧ Guards g.localCount.toNat g.ret (g.ops.toList.drop f.pc)

/-- Every caller goes on with a test for a change of state. If one has been asked for, the innermost
call goes on with the test or leaves its function. -/
inductive Poised (m : Module) (pending : Option UInt16) : List Frame → Prop
  | script {fs : List Frame} {g : Function} : f.IsOf m g →
      (∀ t, pending = some t → Guards g.localCount.toNat g.ret (g.ops.toList.drop f.pc) ∨
        Exits g.localCount.toNat g.ret f.operands (g.ops.toList.drop f.pc)) →
      (∀ c ∈ fs, c.Guarded m) → Poised m pending (f :: fs)
  | api {cs : List Frame} {g : Function} : f.receiver = .api → pending = none →
      c.IsOf m g → (∀ c ∈ cs, c.Guarded m) → Poised m pending (f :: c :: cs)

theorem drop_eq_cons {l : List α} (h : l.drop n = a :: rest) :
    l[n]? = some a ∧ l.drop (n + 1) = rest := by
  constructor
  · rw [← Nat.add_zero n, ← getElem?_drop, h]
    rfl
  · rw [← drop_drop, h]
    rfl

theorem Compile.Exits.of_nil (h : Exits slots ret [] code) : Exits slots ret operands code := by
  obtain ⟨ops, rest, hcode, hops, hret⟩ := h
  refine ⟨ops, rest, hcode, hops, ?_⟩
  rcases hret with hret | hret | hret
  · exact .inl hret
  · exact absurd rfl hret
  · exact .inr (.inr hret)

namespace Machine

variable {ω : Type} {s s' : Machine}

/-- Nothing has changed but the memory in use, and calls may have returned. -/
structure Quiet (s s' : Machine) : Prop where
  pending : s'.pending = s.pending
  globals : s'.globals = s.globals
  locals : s'.frames.map Frame.locals <:+ s.frames.map Frame.locals

theorem Quiet.refl (s : Machine) : s.Quiet s := ⟨rfl, rfl, suffix_refl _⟩

theorem Quiet.trans {s1 : Machine} (h : s1.Quiet s2) (h' : s2.Quiet s3) : s1.Quiet s3 :=
  ⟨h'.pending.trans h.pending, h'.globals.trans h.globals, h'.locals.trans h.locals⟩

def remaining (m : Module) (s : Machine) : Nat :=
  (s.frames.map fun f => (m.function? f.function).elim 0 fun g => g.ops.size - f.pc).sum

theorem remaining_of_frames (h : s.frames = f :: fs) (hg : m.function? f.function = some g) :
    s.remaining m = (g.ops.size - f.pc) + ({ s with frames := fs } : Machine).remaining m := by
  unfold remaining
  rw [h, map_cons, sum_cons, hg]
  rfl

/-- How a machine goes on after a change of state has been asked for: quietly and towards the ends of
the functions, or the outermost call returns. -/
inductive Unwinds (env : Env ω) (m : Module) (s : Machine) (w : ω) : Prop
  | next {s' : Machine} : step env m s w = .next s' w → Poised m s'.pending s'.frames →
      s.Quiet s' → s'.remaining m < s.remaining m → Unwinds env m s w
  | completed {s' : Machine} {v : Value} : step env m s w = .halt (.completed v) s' w →
      s.Quiet s' → s'.frames = [] → Unwinds env m s w

theorem unwinds_of_next (hframes : s.frames = f :: fs) (hf : f.IsOf m g) (hlt : f.pc < g.ops.size)
    (hstep : step env m s w = .next { s.setTop { f with pc := f.pc + 1, operands } with
      memUsage := n } w)
    (hexits : Exits g.localCount.toNat g.ret operands (g.ops.toList.drop (f.pc + 1)))
    (hcallers : ∀ c ∈ fs, c.Guarded m) : Unwinds env m s w := by
  have htail : s.frames.tail = fs := by rw [hframes]; rfl
  refine .next hstep ?_ ⟨rfl, rfl, ?_⟩ ?_
  · show Poised m s.pending (_ :: s.frames.tail)
    rw [htail]
    exact .script ⟨hf.receiver, hf.function, hf.locals⟩ (fun _ _ => .inr hexits) hcallers
  · show (_ :: s.frames.tail).map Frame.locals <:+ _
    rw [htail, hframes]
    exact suffix_refl _
  · have hframes' : ({ s.setTop { f with pc := f.pc + 1, operands } with memUsage := n } :
        Machine).frames = { f with pc := f.pc + 1, operands } :: fs := congrArg (_ :: ·) htail
    rw [remaining_of_frames hframes hf.function, remaining_of_frames hframes' hf.function]
    exact Nat.add_lt_add_right (Nat.sub_succ_lt_self _ _ hlt) _

theorem unwinds_of_ret (hframes : s.frames = f :: fs) (hf : f.IsOf m g)
    (hop : g.ops[f.pc]? = some .ret) (hret : g.ret = .void ∨ f.operands ≠ [])
    (hcallers : ∀ c ∈ fs, c.Guarded m) : Unwinds env m s w := by
  have htail : s.frames.tail = fs := by rw [hframes]; rfl
  have hlt := (Array.getElem?_eq_some_iff.1 hop).1
  obtain ⟨v, hv⟩ : ∃ v, (if g.ret = .void then some .undefined else f.operands.head?) = some v := by
    rcases hret with hret | hret
    · exact ⟨_, if_pos hret⟩
    by_cases hvoid : g.ret = .void
    · exact ⟨_, if_pos hvoid⟩
    · obtain ⟨v, rest, heq⟩ := exists_cons_of_ne_nil hret
      exact ⟨v, by rw [if_neg hvoid, heq]; rfl⟩
  have hstep : step env m s w = _ := step_script hframes hf.receiver hf.function hop
  simp only [exec, leave, setTop_frames, tail_cons, htail, hv] at hstep
  cases fs with
  | nil =>
    refine .completed hstep ⟨rfl, rfl, ?_⟩ rfl
    exact nil_suffix
  | cons c cs =>
    obtain ⟨gc, hc, hguards⟩ := hcallers c mem_cons_self
    -- the caller is the same but for the value that it gets
    have hcaller {c' : Frame} (h : c' = if g.ret = .void then c else c.push v) :
        c'.IsOf m gc ∧ c'.pc = c.pc ∧ c'.locals = c.locals := by
      rw [h]
      split
      · exact ⟨hc, rfl, rfl⟩
      · exact ⟨⟨hc.receiver, hc.function, hc.locals⟩, rfl, rfl⟩
    obtain ⟨hof, hpc, hlocals⟩ := hcaller rfl
    refine .next hstep ?_ ⟨rfl, rfl, ?_⟩ ?_
    · refine .script hof (fun _ _ => .inl ?_) (forall_mem_cons.1 hcallers).2
      rw [hpc]
      exact hguards
    · show (_ :: cs).map Frame.locals <:+ _
      rw [hframes, map_cons, hlocals]
      exact suffix_cons _ _
    · rw [remaining_of_frames hframes hf.function,
        remaining_of_frames (s := { s with frames := c :: cs }) rfl hc.function,
        remaining_of_frames rfl hof.function, hpc]
      exact Nat.lt_add_of_pos_left (Nat.sub_pos_of_lt hlt)

theorem unwinds_of_exits (hframes : s.frames = f :: fs) (hf : f.IsOf m g)
    (hexits : Exits g.localCount.toNat g.ret f.operands (g.ops.toList.drop f.pc))
    (hcallers : ∀ c ∈ fs, c.Guarded m) :
    ∃ op, g.ops[f.pc]? = some op ∧ op.unwinds = true ∧ Unwinds env m s w := by
  obtain ⟨ops, rest, hcode, hops, hret⟩ := hexits
  cases ops with
  | nil =>
    have hop := (drop_eq_cons hcode).1
    rw [Array.getElem?_toList] at hop
    refine ⟨_, hop, rfl, unwinds_of_ret hframes hf hop ?_ hcallers⟩
    rcases hret with hret | hret | ⟨ty, hty⟩
    · exact .inl hret
    · exact .inr hret
    · cases hty
  | cons op ops =>
    obtain ⟨hop, hdrop⟩ := drop_eq_cons hcode
    rw [Array.getElem?_toList] at hop
    have hlt := (Array.getElem?_eq_some_iff.1 hop).1
    have hstep : step env m s w = _ := step_script hframes hf.receiver hf.function hop
    have hleaves := hops op mem_cons_self
    have hops' : ∀ op ∈ ops, op.Leaves g.localCount.toNat :=
      (forall_mem_cons.1 hops).2
    -- the value is there or is pushed by what follows, unless it is pushed here
    have hrest (h : ∀ ty, op ≠ .pushDefault ty) :
        Exits g.localCount.toNat g.ret f.operands (g.ops.toList.drop (f.pc + 1)) := by
      refine ⟨ops, rest, hdrop, hops', ?_⟩
      rcases hret with hret | hret | ⟨ty, hty⟩
      · exact .inl hret
      · exact .inr (.inl hret)
      rcases mem_cons.1 hty with heq | hty
      · exact absurd heq.symm (h ty)
      · exact .inr (.inr ⟨ty, hty⟩)
    refine ⟨op, hop, ?_⟩
    cases op with
    | memStatic n =>
      exact ⟨rfl, unwinds_of_next hframes hf hlt hstep (hrest nofun) hcallers⟩
    | pushDefault ty =>
      refine ⟨rfl, unwinds_of_next hframes hf hlt hstep ?_ hcallers⟩
      exact ⟨ops, rest, hdrop, hops', .inr (.inl (cons_ne_nil _ _))⟩
    | memDecr var =>
      cases var with
      | globalVar i => exact hleaves.elim
      | localVar slot =>
        have hslot : slot.toNat < f.locals.length := by rw [hf.locals]; exact hleaves
        simp only [exec, var?, getElem?_eq_getElem hslot] at hstep
        exact ⟨rfl, unwinds_of_next hframes hf hlt hstep (hrest nofun) hcallers⟩
    | _ => exact hleaves.elim

/-- After a change of state has been asked for, nothing is done but to leave functions. -/
theorem unwinds_of_poised (env : Env ω) (w : ω) (h : Poised m s.pending s.frames)
    (ht : s.pending = some t) :
    ∃ f op, s.nextOp? m = some (f, op) ∧ op.unwinds = true ∧ Unwinds env m s w := by
  generalize hframes : s.frames = frames at h
  cases h with
  | api _ hnone _ _ => rw [ht] at hnone; cases hnone
  | @script f fs g hf hnext hcallers =>
    have hop? {op : Op} (hop : g.ops[f.pc]? = some op) : s.nextOp? m = some (f, op) := by
      simp only [nextOp?, hframes, hf.receiver, hf.function, hop, bind_some, map_some]
    rcases hnext t ht with ⟨target, rest, hcode, hexits⟩ | hexits
    · obtain ⟨hop, hdrop⟩ := drop_eq_cons hcode
      rw [Array.getElem?_toList] at hop
      have hlt := (Array.getElem?_eq_some_iff.1 hop).1
      have hstep : step env m s w = _ := step_script hframes hf.receiver hf.function hop
      simp only [exec, ht, isNone_some] at hstep
      refine ⟨f, _, hop? hop, rfl, ?_⟩
      refine unwinds_of_next hframes hf hlt hstep ?_ hcallers
      rw [hdrop]
      exact hexits.of_nil
    · obtain ⟨op, hop, hunwinds, h⟩ := unwinds_of_exits hframes hf hexits hcallers
      exact ⟨f, op, hop? hop, hunwinds, h⟩

/-! ## Steps -/

theorem poised_next (hm : m.Tidy) (h : Poised m s.pending s.frames)
    (hstep : step env m s w = .next s' w') : Poised m s'.pending s'.frames := by
  cases hpending : s.pending with
  | some t =>
    obtain ⟨-, -, -, -, hu⟩ := unwinds_of_poised env w h hpending
    cases hu with
    | next hs hp _ _ => rw [hstep] at hs; cases hs; exact hp
    | completed hs _ _ => rw [hstep] at hs; cases hs
  | none =>
    cases step_goes hstep with
    | @runs f fs g op s' w' hframes hr hg hop hdoes =>
      rw [hframes] at h
      cases h with
      | api hr' _ _ _ => rw [hr] at hr'; cases hr'
      | script hf _ hcallers =>
        have hg' := hf.function
        rw [hg] at hg'
        cases hg'
        have htail : s.frames.tail = fs := by rw [hframes]; rfl
        have hfollow := (hm f.function g hg).follow (by rw [Array.getElem?_toList]; exact hop)
        -- no state has been asked for, so the frame may be anywhere in its function
        have keep {f' : Frame} {s' : Machine} (hs' : s'.pending = none)
            (hframes' : s'.frames = f' :: s.frames.tail) (hr' : f'.receiver = f.receiver)
            (hf' : f'.function = f.function) (hl : f'.locals.length = f.locals.length) :
            Poised m s'.pending s'.frames := by
          rw [hs', hframes', htail]
          exact .script ⟨hr'.trans hr, hf' ▸ hg, hl.trans hf.locals⟩ nofun hcallers
        cases hdoes with
        | store var _ _ | @arraySet var _ _ _ _ _ _ _ _ =>
          cases var with
          | localVar slot => exact keep hpending rfl rfl rfl (length_set ..)
          | globalVar index => exact keep hpending rfl rfl rfl rfl
        | jumpIfNoStateChange =>
          refine keep hpending rfl ?_ ?_ ?_ <;> split <;> rfl
        | call _ _ he =>
          obtain ⟨g', hg', -, rfl⟩ := enter_ok he
          refine .script (g := g') ⟨rfl, hg', fillLocals_length ..⟩
            (fun t ht => absurd (hpending.symm.trans ht) nofun) ?_
          intro c hc
          rcases mem_cons.1 hc with rfl | hc
          · exact ⟨g, ⟨hr, hg, hf.locals⟩, hfollow⟩
          · rw [htail] at hc
            exact hcallers c hc
        | callApi _ _ _ =>
          refine keep hpending rfl ?_ ?_ ?_ <;> unfold answered <;> split <;> rfl
        | @ret v caller callers _ hcallers' =>
          rw [htail] at hcallers'
          subst hcallers'
          obtain ⟨gc, hc, -⟩ := hcallers caller mem_cons_self
          refine .script (g := gc) ?_ (fun t ht => absurd (hpending.symm.trans ht) nofun)
            (forall_mem_cons.1 hcallers).2
          split
          · exact hc
          · exact ⟨hc.receiver, hc.function, hc.locals⟩
        | setState =>
          refine .script (g := g) ⟨hr, hg, hf.locals⟩ (fun t _ => .inr ?_) (htail ▸ hcallers)
          exact Exits.of_nil hfollow
        | _ => exact keep hpending rfl rfl rfl rfl
    | @answers f caller fs g v w' hframes hr _ _ =>
      rw [hframes] at h
      cases h with
      | script hf _ _ => rw [hf.receiver] at hr; cases hr
      | @api _ _ _ g hr _ hc hcallers =>
        refine .script (g := g) ?_ (fun t ht => absurd (hpending.symm.trans ht) nofun) hcallers
        unfold answered
        split
        · exact hc
        · exact ⟨hc.receiver, hc.function, hc.locals⟩

theorem poised_suspended (h : Poised m s.pending s.frames)
    (hstep : step env m s w = .halt .suspended s' w') : Poised m s'.pending s'.frames := by
  have hpending : s.pending = none := by
    cases hpending : s.pending with
    | none => rfl
    | some t =>
      obtain ⟨-, -, -, -, hu⟩ := unwinds_of_poised env w h hpending
      cases hu with
      | next hs _ _ _ | completed hs _ _ => rw [hstep] at hs; cases hs
  cases step_pauses hstep with
  | @checkpoint f fs g w' hframes hr hg hop =>
    rw [hframes] at h
    cases h with
    | api hr' _ _ _ => rw [hr] at hr'; cases hr'
    | @script _ _ g hf _ hcallers =>
      have htail : s.frames.tail = fs := by rw [hframes]; rfl
      refine .script (g := g) ⟨hf.receiver, hf.function, hf.locals⟩
        (fun t ht => absurd (hpending.symm.trans ht) nofun) (htail ▸ hcallers)
  | asks hframes hr hg hop hi hs =>
    rw [hframes] at h
    cases h with
    | api hr' _ _ _ => rw [hr] at hr'; cases hr'
    | script hf _ hcallers =>
      exact .api rfl hpending ⟨hf.receiver, hf.function, hf.locals⟩ hcallers
  | waits hframes hr hg =>
    rw [hframes] at h
    cases h with
    | script hf _ _ => rw [hf.receiver] at hr; cases hr
    | api _ _ hc hcallers => exact .api rfl hpending hc hcallers

theorem Executed.poised (hm : m.Tidy) (h : s.Executed m) : Poised m s.pending s.frames := by
  induction h with
  | enter hframes hpending he =>
    obtain ⟨g, hg, -, rfl⟩ := enter_ok he
    refine .script ⟨rfl, hg, fillLocals_length ..⟩
      (fun t ht => absurd (hpending.symm.trans ht) nofun) ?_
    rw [hframes]
    nofun
  | next _ hstep ih => exact poised_next hm ih hstep
  | resume _ hstep ih => exact poised_suspended ih hstep

/-! ## Runs -/

theorem reaches_of_poised (h : Reaches env m s w s' w') (hs : Poised m s.pending s.frames)
    {t : UInt16} (ht : s.pending = some t) :
    w' = w ∧ s.Quiet s' ∧ Poised m s'.pending s'.frames := by
  induction h with
  | refl => exact ⟨rfl, .refl _, hs⟩
  | next hstep _ ih =>
    obtain ⟨-, -, -, -, hu⟩ := unwinds_of_poised env _ hs ht
    cases hu with
    | completed hs' _ _ => rw [hstep] at hs'; cases hs'
    | next hs' hp hquiet _ =>
      rw [hstep] at hs'
      cases hs'
      obtain ⟨hw, hquiet', hp'⟩ := ih hp (hquiet.pending.trans ht)
      exact ⟨hw, hquiet.trans hquiet', hp'⟩

theorem run_of_poised (env : Env ω) (w : ω) (hs : Poised m s.pending s.frames) {t : UInt16}
    (ht : s.pending = some t) : ∃ fuel v s',
      run env m fuel s w = some (.completed v, s', w) ∧ s.Quiet s' ∧ s'.frames = [] := by
  induction hn : s.remaining m using Nat.strongRecOn generalizing s with
  | _ n ih =>
    obtain ⟨-, -, -, -, hu⟩ := unwinds_of_poised env w hs ht
    cases hu with
    | @completed s' v hstep hquiet hframes =>
      exact ⟨1, v, s', by rw [run, hstep]; rfl, hquiet, hframes⟩
    | next hstep hp hquiet hlt =>
      obtain ⟨fuel, v, s', hrun, hquiet', hframes⟩ :=
        ih _ (hn ▸ hlt) hp (hquiet.pending.trans ht) rfl
      exact ⟨fuel + 1, v, s', by rw [run, hstep]; exact hrun, hquiet.trans hquiet', hframes⟩

end Machine

/-! ## Compiled modules -/

theorem Instance.Executes.executed (hs : Script.ofSource source = .ok script)
    (hm : Module.ofSource source name = .ok m) (hi : i.module = m)
    (hidle : i.status = .idle) (hframes : i.machine.frames = [])
    (hpending : i.machine.pending = none) (hfollows : Follows (fun _ _ _ => True) i j)
    (hk : j.Executes env input w k v) : k.machine.Executed m := by
  have hcoded := Module.ofSource_coded hs hm
  have hU := Machine.executed_upkeep hcoded.boot_pending
  have hj := hU.follows ⟨hi, fun _ => ⟨hframes, hpending⟩,
    fun h => absurd (hidle.symm.trans h) (by decide)⟩ hfollows
  exact (hU.executes hj (fun _ _ _ => trivial) hk).2

/-- A change of state ends the handler and has no effects on the way: when one has been asked for,
nothing is done but to leave functions, until the outermost call has returned. At a checkpoint and at
a call of the library none has been asked for. -/
theorem Machine.unwinding_silent {source name : String} {script : Script} {m : Module}
    (hs : Script.ofSource source = .ok script) (hm : Module.ofSource source name = .ok m)
    {s : Machine} (h : s.Executed m) :
    (∀ f op, s.nextOp? m = some (f, op) → op = .checkRun ∨ (∃ i, op = .callApi i) →
      s.pending = none) ∧
    (∀ f fs, s.frames = f :: fs → f.receiver = .api → s.pending = none) ∧
    (∀ f t, s.nextOp? m = some (f, .setState t) → ∀ {ω : Type} (env : Env ω) (w : ω),
      ∃ s', step env m s w = .next s' w ∧ s'.pending = some t ∧ s'.globals = s.globals ∧
        s'.frames.map Frame.locals = s.frames.map Frame.locals) ∧
    ∀ t, s.pending = some t → ∀ {ω : Type} (env : Env ω) (w : ω),
      (∀ s' w', Reaches env m s w s' w' → w' = w ∧ s.Quiet s' ∧
        (∃ f op, s'.nextOp? m = some (f, op) ∧ op.unwinds = true) ∧
        ∀ why s'' w'', step env m s' w' = .halt why s'' w'' →
          w'' = w ∧ s.Quiet s'' ∧ ∃ v, why = .completed v) ∧
      ∃ fuel v s', run env m fuel s w = some (.completed v, s', w) ∧ s.Quiet s' ∧
        s'.frames = [] := by
  have hcoded := Module.ofSource_coded hs hm
  have hp := h.poised hcoded.tidy
  refine ⟨fun f op hop hop' => ?_, fun f fs hframes hr => ?_, fun f t hop ω env w => ?_,
    fun t ht ω env w => ⟨fun s' w' hreach => ?_, run_of_poised env w hp ht⟩⟩
  · cases ht : s.pending with
    | none => rfl
    | some t =>
      obtain ⟨f', op', hop'', hunwinds, -⟩ := unwinds_of_poised Host.null.bareEnv () hp ht
      rw [hop] at hop''
      cases hop''
      rcases hop' with rfl | ⟨i, rfl⟩ <;> cases hunwinds
  · rw [hframes] at hp
    cases hp with
    | script hf _ _ => rw [hf.receiver] at hr; cases hr
    | api _ hpending _ _ => exact hpending
  · obtain ⟨fs, g, hframes, hr, hg, hop⟩ := nextOp?_eq_some hop
    refine ⟨_, step_script hframes hr hg hop, rfl, rfl, ?_⟩
    show (_ :: s.frames.tail).map Frame.locals = _
    rw [hframes]
    rfl
  · obtain ⟨rfl, hquiet, hp'⟩ := reaches_of_poised hreach hp ht
    obtain ⟨f, op, hop, hunwinds, hu⟩ := unwinds_of_poised env w' hp' (hquiet.pending.trans ht)
    refine ⟨rfl, hquiet, ⟨f, op, hop, hunwinds⟩, fun why s'' w'' hstep => ?_⟩
    cases hu with
    | next hs _ _ _ => rw [hstep] at hs; cases hs
    | completed hs hquiet' _ =>
      rw [hstep] at hs
      cases hs
      exact ⟨rfl, hquiet.trans hquiet', _, rfl⟩

def deserter : String :=
  "integer seen;
   integer deep(integer n) \x7b if (n > 0) return 1 + deep(n - 1); leave(); return 7; \x7d
   leave() \x7b string s = \"bye\"; if (seen == 0) state rest; llSay(0, s); \x7d
   default \x7b touch_start(integer c) \x7b seen = 2 * deep(c); llSay(0, \"here\"); \x7d \x7d
   state rest \x7b state_entry() \x7b \x7d \x7d"

set_option maxRecDepth 10000 in
/-- When the deserter has asked for the other state, the four active calls return. -/
theorem deserter_silent :
    Script.Sample deserter "deserter" 100 fun _ m i =>
      ∃ k v, i.Executes (Host.recording.env false) (.start .touchStart [.integer 1]) {} k v ∧
      k.machine.pending = some 1 ∧ k.machine.frames.length = 4 ∧
      ∃ fuel value s', k.machine.run (Host.recording.env false) m fuel ⟨v, k.requests⟩ =
          some (.completed value, s', ⟨v, k.requests⟩) ∧ k.machine.Quiet s' ∧ s'.frames = [] := by
  refine .of_test (fun _ m i =>
      ∃ i₀ ∈ i.begun? (.start .touchStart [.integer 1]),
      ∃ x ∈ i₀.machine.after? (Host.recording.env false) m 33 ⟨{}, i₀.requests⟩,
        i.machine.pending = none ∧ x.1.pending = some 1 ∧ x.1.frames.length = 4) ?_
  rintro script m i hs hm hmade ⟨i₀, hbegun, ⟨s, ws⟩, hafter, hnone, hpending, hframes⟩
  obtain ⟨hmodule, hidle, hempty⟩ := Instance.new_rests hmade
  have hbegins := Instance.begins_iff.2 hbegun
  have hm₀ : i₀.module = m := by cases hbegins; exact hmodule
  have hk : i.Executes (Host.recording.env false) (.start .touchStart [.integer 1]) {}
      (i₀.ran s ws.requests) ws.host :=
    ⟨i₀, hbegins, Instance.passes_of_reaches hm₀ (Machine.reaches_of_after? hafter)⟩
  have hexecuted := hk.executed hs hm hmodule hidle hempty hnone .refl
  obtain ⟨-, -, -, hsilent⟩ := Machine.unwinding_silent hs hm hexecuted
  exact ⟨_, _, hk, hpending, hframes,
    (hsilent 1 hpending (Host.recording.env false) _).2⟩

end EventScript
