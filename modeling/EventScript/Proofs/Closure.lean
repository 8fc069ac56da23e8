import EventScript.Proofs.Code.Slots
import EventScript.Proofs.Responsiveness

/-!
# Closed code

Compiled code refers only to what there is (`Module.code_closed`): slots of the frame, variables,
constants, functions, states and places of the code. It ends with a return, and each instruction
has its line.

The initializer is the exception. It has a frame without slots, and an assignment to a component in
a first value takes one. Without such assignments it is closed as well, and no instance fails to be
made because its code is wrong.
-/

namespace EventScript

open List Option

/-! ## Functions -/

namespace Compile

theorem FunctionCode.getLast?
    (hf : FunctionCode Γ params blocks Y code) : code.getLast? = some .ret := by
  cases hf
  rw [getLast?_append, getLast?_returnDefaultOps]
  rfl

theorem InitCode.getLast? (hi : InitCode Γ i pc code) : code.getLast? = some .ret := by
  induction hi with
  | nil => rfl
  | cons _ _ _ _ ih => rw [getLast?_append, ih]; rfl

end Compile

open Compile

/-- What the instructions of a function can refer to. -/
def Module.ranges (m : Module) (g : Function) : Ranges where
  slots := g.localCount.toNat
  globals := m.globals.length
  constants := m.constants.size
  functions := m.functions.size
  states := m.states.length
  size := g.ops.size

/-- The function refers to nothing that is not there; `slots` is the number of slots that it can
use. -/
structure Function.Closed (m : Module) (slots : Nat) (g : Function) : Prop where
  within : ∀ op ∈ g.ops.toList, op.within { m.ranges g with slots } = true
  last : g.ops.toList.getLast? = some .ret
  lines : g.lines.size = g.ops.size

theorem Module.linkage_within {m : Module} {tests : Bool} {slots : Nat} {ret : Ty}
    {frameStatic : Int32} (g : Function) :
    ((m.linkage tests).withFrame slots ret frameStatic).Within { m.ranges g with slots } where
  slots := le_rfl
  globals := (length_map _).le
  constants := le_rfl
  functions := by
    show (map _ _).length ≤ _
    rw [length_map, length_take]
    exact Nat.min_le_right _ _
  states := le_rfl

theorem Compile.Origin.lines (h : Origin names st f g) : g.lines.size = g.ops.size := by
  obtain ⟨s, kind, name, rfl, -, -⟩ := h
  simp [genFunction, assemble]

namespace Compile.Compilation

theorem function_closed (h : Compilation script source m names b init s) (hreg : script.Regular is)
    (hg : m.function? i = some g) (hi : i.toNat < m.init.toNat) :
    g.Closed m g.localCount.toNat := by
  have hget : (m.functions.toList.take m.init.toNat)[i.toNat]? = some g := by
    rw [getElem?_take_of_lt hi, Array.getElem?_toList]
    exact hg
  obtain ⟨f, hf⟩ : ∃ f, script.decls[i.toNat]? = some f := by
    have hlen := (List.getElem?_eq_some_iff.1 hget).1
    rw [← h.compiles.length_eq] at hlen
    exact ⟨_, getElem?_eq_getElem hlen⟩
  have hcoded := @functions_coded _ _ _ _ _ _ _ h is true hreg fun _ _ => .inl rfl
  obtain ⟨-, -, Y, hcode⟩ := forall₂_getElem? hcoded hf hget
  have hproper := hcode.proper (Module.linkage_within g) rfl
    (.of_forall fun _ _ _ _ => trivial)
  exact ⟨hproper.within, hcode.getLast?, (forall₂_getElem? h.compiles hf hget).lines⟩

theorem init_closed (h : Compilation script source m names b init s) (hreg : script.Regular is) :
    init.Closed m script.componentSets := by
  obtain ⟨-, hslots, -⟩ := h.init_slots
  obtain ⟨-, -, hcode⟩ :=
    @init_coded _ _ _ _ _ _ _ h is script.componentSets true hreg hslots.le
  have hproper := hcode.proper (C := fun _ => True)
    (@Module.linkage_within m true script.componentSets .void 0 init) (Nat.zero_add _).le
  refine ⟨hproper.within, hcode.getLast?, ?_⟩
  · have hgen := h.generated
    rw [← (Prod.mk.inj hgen).1]
    simp [assemble]

end Compile.Compilation

/-! ## The initializer -/

/-- The machine comes to a state with a property, unless a fault stops it that does not blame the
code. The environment is not asked for anything. -/
inductive Machine.Arrives {ω : Type} (env : Env ω) (m : Module) (w : ω) (P : Machine → Prop) :
    Machine → Prop
  | here : P s → Arrives env m w P s
  | next : s.step env m w = .next s' w → Arrives env m w P s' → Arrives env m w P s
  | faults {e : Fault} : s.step env m w = .halt (.fault e) s' w →
      e.isCorrupt = false → Arrives env m w P s

namespace Machine.Arrives

variable {ω : Type}

theorem trans (h : Arrives env m w P s) (hP : ∀ s, P s → Arrives env m w Q s) :
    Arrives env m w Q s := by
  induction h with
  | here hs => exact hP _ hs
  | next hstep _ ih => exact .next hstep ih
  | faults hstep he => exact .faults hstep he

theorem run_ends (h : Arrives env m w P s) {e : Exit → Prop}
    (hP : ∀ s, P s → ∃ why s', s.step env m w = .halt why s' w ∧ e (exit m s' why))
    (hfault : ∀ f : PlacedFault, f.fault.isCorrupt = false → e (.fault f)) :
    ∃ fuel r s', s.run env m fuel w = some (r, s', w) ∧ e r := by
  induction h with
  | here hs =>
    obtain ⟨why, s', hstep, he⟩ := hP _ hs
    exact ⟨1, _, s', by rw [run_succ, hstep], he⟩
  | next hstep _ ih =>
    obtain ⟨fuel, r, s', hrun, he⟩ := ih
    exact ⟨fuel + 1, r, s', by rw [run_succ, hstep]; exact hrun, he⟩
  | @faults s s' f hstep hf =>
    exact ⟨1, _, s', by rw [run_succ, hstep]; rfl, hfault ⟨f, s'.place? m⟩ hf⟩

end Machine.Arrives

/-- The initializer is at a place with operands of the given types, and the global variables hold
values of their types. -/
structure Machine.AtInit (m : Module) (pc : Nat) (S : List Ty) (s : Machine) : Prop where
  frames : ∃ locals vs, s.frames = [⟨.script, m.init, pc, locals, vs⟩] ∧ Ty.AdmitAll S vs
  globals : m.Admits s.globals

theorem Machine.AtInit.global? {pc : Nat} {S : List Ty} {s : Machine}
    (hs : s.AtInit m pc S) {index : UInt16} (hty : (m.globals.map GlobalSlot.ty)[index.toNat]? =
    some ty) : ∃ v, s.globals[index.toNat]? = some v ∧ ty.Admits v := by
  have hlt : index.toNat < s.globals.length := by
    rw [← hs.globals.length_eq]
    exact (List.getElem?_eq_some_iff.1 hty).1
  exact ⟨_, getElem?_eq_getElem hlt, forall₂_getElem? hs.globals hty (getElem?_eq_getElem hlt)⟩

/-! ### Parts of its code -/

theorem IsPart.left (h : IsPart pc (a ++ b) pc' ops) : IsPart pc a pc' ops := fun p op hp =>
  h p op (isPart_append_left pc a b p op hp)

theorem IsPart.right (h : IsPart pc (a ++ b) pc' ops) : IsPart (pc + a.length) b pc' ops :=
  fun p op hp => h p op (isPart_append_right pc a b p op hp)

theorem IsPart.head (h : IsPart pc (op :: a) pc' ops) : Sits pc' ops pc op :=
  h pc op ⟨le_rfl, by rw [Nat.sub_self]; rfl⟩

theorem IsPart.tail (h : IsPart pc (op :: a) pc' ops) : IsPart (pc + 1) a pc' ops :=
  IsPart.right (a := [op]) h

namespace Compile

/-- The linkage of first values in a frame without slots. -/
structure Linkage.Initial (Γ : Linkage) (m : Module) : Prop where
  tests : Γ.tests = false
  slots : Γ.slots = 0
  functions : Γ.functions = []
  library : Γ.library = false
  constants : Γ.constants = m.constants.toList
  globals : Γ.globals <+: m.globals.map GlobalSlot.ty

open Machine Operands

variable {Γ : Linkage}

variable {ω : Type}

theorem arrives_of_does (hg : m.function? m.init = some g) (hop : Sits 0 g.ops.toList pc op)
    (hframes : s.frames = [⟨.script, m.init, pc, locals, vs⟩])
    (h : Does env m g.ret ⟨.script, m.init, pc + 1, locals, vs⟩ s w op s' w)
    (hframes' : s'.frames = ⟨.script, m.init, pc + 1, locals', vs'⟩ :: s.frames.tail)
    (hvs : Ty.AdmitAll S vs')
    (hglobals : m.Admits s'.globals) :
    Arrives env m w (AtInit m (pc + 1) S) s := by
  have hop : g.ops[pc]? = some op := by rw [← Array.getElem?_toList]; exact hop.2
  rw [hframes] at hframes'
  refine .next ?_ (.here ⟨⟨locals', vs', hframes', hvs⟩, hglobals⟩)
  rw [step_script hframes rfl hg hop]
  exact exec_of_does h

theorem arrives_of_stop (hg : m.function? m.init = some g) (hop : Sits 0 g.ops.toList pc op)
    (hframes : s.frames = [⟨.script, m.init, pc, locals, vs⟩])
    (h : exec env m g.ret op ⟨.script, m.init, pc + 1, locals, vs⟩ s w = stop s f e w)
    (he : e.isCorrupt = false) : Arrives env m w P s := by
  have hop : g.ops[pc]? = some op := by rw [← Array.getElem?_toList]; exact hop.2
  have hstep : s.step env m w = .halt (.fault e) (s.setTop f) w := by
    rw [step_script hframes rfl hg hop]
    exact h
  exact .faults hstep he

theorem Linkage.Initial.var (hΓ : Γ.Initial m) {var : VarRef} {ty : Ty}
    (hvar : Γ.HasVar [] fresh var ty) : ∃ index, var = .globalVar index ∧
      (m.globals.map GlobalSlot.ty)[index.toNat]? = some ty := by
  cases var with
  | localVar slot => exact absurd hvar.1 not_mem_nil
  | globalVar index =>
    obtain ⟨rest, hrest⟩ := hΓ.globals
    refine ⟨index, rfl, ?_⟩
    rw [← hrest, getElem?_append_left (List.getElem?_eq_some_iff.1 hvar).1]
    exact hvar

theorem Plain.arrives (hp : Plain Γ [] fresh op S S') (hΓ : Γ.Initial m)
    (hg : m.function? m.init = some g) (hop : Sits 0 g.ops.toList pc op) (hs : s.AtInit m pc S) :
    Arrives env m w (AtInit m (pc + 1) S') s := by
  obtain ⟨locals, vs, hframes, hvs⟩ := hs.frames
  cases hoperate : op.operate? with
  | some f =>
    cases hr : f vs with
    | ok stack =>
      exact arrives_of_does hg hop hframes (.operands hoperate hr) rfl
        (hp.operands_admit hΓ.tests hoperate hvs hr) hs.globals
    | error p =>
      refine arrives_of_stop (f := ⟨.script, m.init, pc + 1, locals, p.2⟩) hg hop hframes ?_
        (hp.operands_fault (.inr hΓ.tests) hoperate hvs hr).1
      rw [exec_operate hoperate, hr]
      rfl
  | none =>
    cases hp with
    | const hc =>
      rw [hΓ.constants, Array.getElem?_toList] at hc
      exact arrives_of_does hg hop hframes (.pushConst hc) rfl (.cons (.ofConstant _) hvs)
        hs.globals
    | load hvar =>
      obtain ⟨index, rfl, hty⟩ := hΓ.var hvar
      obtain ⟨v, hv, hadmits⟩ := hs.global? hty
      exact arrives_of_does hg hop hframes (.load (.globalVar index) hv) rfl (.cons hadmits hvs)
        hs.globals
    | callApi h _ | checkRun h => rw [hΓ.library] at h; cases h
    | _ => cases hoperate

theorem account_arrives {s' : Frame → Machine} (hg : m.function? m.init = some g)
    (hop : Sits 0 g.ops.toList pc op) (hs : s.AtInit m pc S)
    (h : ∀ f : Frame, Does env m g.ret f s w op (s' f) w)
    (hs' : ∀ f, (s' f).frames = f :: s.frames.tail ∧ (s' f).globals = s.globals) :
    Arrives env m w (AtInit m (pc + 1) S) s := by
  obtain ⟨locals, vs, hframes, hvs⟩ := hs.frames
  exact arrives_of_does hg hop hframes (h _) (hs' _).1 hvs ((hs' _).2 ▸ hs.globals)

theorem storeGlobal_arrives {ty : Ty} (hg : m.function? m.init = some g)
    (hop : Sits 0 g.ops.toList pc (.storeGlobal index))
    (hty : (m.globals.map GlobalSlot.ty)[index.toNat]? = some ty) (hs : s.AtInit m pc (ty :: S)) :
    Arrives env m w (AtInit m (pc + 1) S) s := by
  obtain ⟨locals, _, hframes, _ | ⟨hv, hvs⟩⟩ := hs.frames
  obtain ⟨old, hold, -⟩ := hs.global? hty
  exact arrives_of_does hg hop hframes (.store (.globalVar index) rfl hold) rfl hvs
    (forall2_set hs.globals hty hv)

theorem store_arrives {index : UInt16} {ty : Ty} (hg : m.function? m.init = some g)
    (hcode : IsPart pc (storeOps (.globalVar index) ty) 0 g.ops.toList)
    (hty : (m.globals.map GlobalSlot.ty)[index.toNat]? = some ty) (hs : s.AtInit m pc (ty :: S)) :
    Arrives env m w (AtInit m (pc + (storeOps (.globalVar index) ty).length) S) s := by
  unfold storeOps at hcode ⊢
  split
  · rename_i hdynamic
    rw [if_pos hdynamic] at hcode
    obtain ⟨old, hold, -⟩ := hs.global? hty
    refine (account_arrives hg hcode.head hs (fun f => .memDecr hold)
      fun _ => ⟨rfl, rfl⟩).trans fun s1 hs1 => ?_
    refine (storeGlobal_arrives hg hcode.tail.head hty hs1).trans fun s2 hs2 => ?_
    obtain ⟨v, hv, -⟩ := hs2.global? hty
    exact account_arrives hg hcode.tail.tail.head hs2
      (fun f => .memIncr hv) fun _ => ⟨rfl, rfl⟩
  · rename_i hdynamic
    rw [if_neg hdynamic] at hcode
    exact storeGlobal_arrives hg hcode.head hty hs

theorem arraySet_arrives {t k : Ty} (hg : m.function? m.init = some g)
    (hop : Sits 0 g.ops.toList pc (.arraySet (.globalVar index)))
    (hty : (m.globals.map GlobalSlot.ty)[index.toNat]? = some .array)
    (hs : s.AtInit m pc (t :: k :: S)) : Arrives env m w (AtInit m (pc + 1) (t :: S)) s := by
  obtain ⟨locals, _, hframes, _ | @⟨_, v, _, _, hv, _ | @⟨_, key, _, vs, hkey, hvs⟩⟩⟩ := hs.frames
  obtain ⟨a, ha, hadmits⟩ := hs.global? hty
  have harray := hadmits.ty_eq (by decide)
  cases a <;> cases harray
  rename_i es
  cases hset : Entries.setValue es key v with
  | ok new =>
    exact arrives_of_does hg hop hframes (.arraySet rfl ha hset) rfl (.cons hv hvs)
      (forall2_set hs.globals hty (.inr rfl))
  | error e =>
    refine arrives_of_stop (f := ⟨.script, m.init, pc + 1, locals, v :: vs⟩) (e := e) hg hop hframes
      ?_ ?_
    · have hentries : (do (← (Value.array es).entries).setValue key v) = .error e := hset
      simp only [exec, storeElement, var?, ha, hentries]
    · simp only [Entries.setValue, ArrayKey.ofValue, bind, Except.bind] at hset
      split at hset
      · rename_i he
        split at he <;> cases he
        cases hset
        rfl
      · cases hset

theorem Straight.arrives (hst : Straight Γ [] [] pc code S S') (hΓ : Γ.Initial m)
    (hg : m.function? m.init = some g) (hcode : IsPart pc code 0 g.ops.toList)
    (hs : s.AtInit m pc S) : Arrives env m w (AtInit m (pc + code.length) S') s := by
  have spare {k : UInt16} (h : Γ.Spare [] k) : False := Nat.not_lt_zero _ (hΓ.slots ▸ h.1)
  induction hst generalizing s with
  | nil => exact .here hs
  | append _ _ ih1 ih2 =>
    rw [length_append, ← Nat.add_assoc]
    exact (ih1 hcode.left hs).trans fun s1 hs1 => ih2 hcode.right hs1
  | plain hp => exact hp.arrives hΓ hg hcode.head hs
  | store hvar =>
    obtain ⟨index, rfl, hty⟩ := hΓ.var hvar
    exact store_arrives hg hcode hty hs
  | component _ _ hk | spill _ hk | reload _ hk => exact (spare hk).elim
  | arraySet _ hvar =>
    obtain ⟨index, rfl, hty⟩ := hΓ.var hvar
    exact arraySet_arrives hg hcode.head hty hs
  | call hf _ => rw [hΓ.functions] at hf; cases hf

/-- The initializer comes to its end. -/
theorem InitCode.arrives (hi : InitCode Γ i pc code) (htests : Γ.tests = false)
    (hslots : Γ.slots = 0) (hconstants : Γ.constants = m.constants.toList)
    (hglobals : Γ.globals = m.globals.map GlobalSlot.ty) (hg : m.function? m.init = some g)
    (hcode : IsPart pc code 0 g.ops.toList) (hs : s.AtInit m pc []) :
    Arrives env m w (fun s => ∃ pc, s.AtInit m pc [] ∧ g.ops[pc]? = some .ret) s := by
  induction hi generalizing s with
  | @nil pc => exact .here ⟨pc, hs, by rw [← Array.getElem?_toList]; exact hcode.head.2⟩
  | @cons i pc ty index value rest hty hindex hvalue _ ih =>
    have hΓ : (Γ.before i).Initial m :=
      ⟨htests, hslots, rfl, rfl, hconstants, by rw [← hglobals]; exact take_prefix _ _⟩
    have hty : (m.globals.map GlobalSlot.ty)[index.toNat]? = some ty := by
      rw [← hglobals, hindex, hty]
    -- the cost of the variable, its value, and the cost of the value
    have hparts := hcode.left
    refine (account_arrives hg hparts.head hs (fun f => .memStatic) fun _ => ⟨rfl, rfl⟩).trans
      fun s1 hs1 => ?_
    refine (hvalue.arrives hΓ hg hparts.tail.left hs1).trans fun s2 hs2 => ?_
    refine (storeGlobal_arrives hg hparts.tail.right.head hty hs2).trans fun s3 hs3 => ?_
    refine Arrives.trans ?_ fun s4 hs4 => ih hcode.right hs4
    have hlast := hparts.tail.right.tail
    have hlen (code : List Op) :
        pc + (Op.memStatic ty.staticSize :: (value ++ Op.storeGlobal index :: code)).length =
          pc + 1 + value.length + 1 + code.length := by
      simp only [length_cons, length_append]
      omega
    rw [hlen]
    split
    · rename_i hdynamic
      rw [if_pos hdynamic] at hlast
      obtain ⟨v, hv, -⟩ := hs3.global? hty
      exact account_arrives hg hlast.head hs3 (fun f => .memIncr hv) fun _ => ⟨rfl, rfl⟩
    · exact .here hs3

end Compile

/-! ## Modules -/

namespace Compile.Compilation

variable (h : Compilation script source m names b init s)

include h

theorem function?_init : m.function? m.init = some init := by
  have hget : (m.functions.toList.drop m.init.toNat)[0]? = some init := by rw [h.last]; rfl
  rwa [getElem?_drop, Nat.add_zero, Array.getElem?_toList] at hget

theorem lt_of_function?
    (hg : m.function? i = some g) (hi : i ≠ m.init) : i.toNat < m.init.toNat := by
  have hlen := congrArg length h.last
  rw [length_drop, Array.length_toList, length_singleton] at hlen
  have hlt := (Array.getElem?_eq_some_iff.1 hg).1
  have hne : i.toNat ≠ m.init.toNat := fun heq => hi (UInt16.toNat_inj.1 heq)
  omega

theorem boot_sound (hreg : script.Regular is)
    (hsets : script.componentSets = 0) (machine : Machine) : ∃ fuel r s',
      machine.boot Host.null.bareEnv m fuel () = some (r, s', ()) ∧
        ∀ e, r = .error e → e.toFault.fault.isCorrupt = false := by
  obtain ⟨-, hslots, -⟩ := h.init_slots
  obtain ⟨-, hret, hcode⟩ :=
    @init_coded _ _ _ _ _ _ _ h is 0 false hreg (hslots.trans hsets).le
  have hinit := h.function?_init
  unfold Machine.boot
  dsimp only
  cases he : (machine.rewound m).enter m m.init [] with
  | error f =>
    refine ⟨0, .error (.fault f), machine.rewound m, rfl, ?_⟩
    rintro e ⟨⟩
    unfold Machine.enter at he
    rw [hinit] at he
    dsimp only at he
    split at he <;> cases he
    rfl
  | ok s0 =>
    have hat : s0.AtInit m 0 [] := by
      obtain ⟨g, -, -, rfl⟩ := Machine.enter_ok he
      refine ⟨⟨_, [], rfl, .nil⟩, Module.Coded.admits_defaults fun g hg => ?_⟩
      have hmem : g.ty ∈ script.globals.map VarDecl.ty := by
        rw [← h.globals]
        exact mem_map_of_mem hg
      obtain ⟨d, hd, heq⟩ := mem_map.1 hmem
      rw [← heq]
      exact (hreg.globals d hd).1.1
    have harrives : Machine.Arrives Host.null.bareEnv.unpolled m ()
        (fun s => ∃ pc, s.AtInit m pc [] ∧ init.ops[pc]? = some .ret) s0 :=
      hcode.arrives rfl rfl rfl rfl hinit (fun _ _ => id) hat
    have hend : ∀ s1 : Machine, (∃ pc, s1.AtInit m pc [] ∧ init.ops[pc]? = some .ret) →
        s1.step Host.null.bareEnv.unpolled m () =
          .halt (.completed .undefined) { s1 with frames := [] } () := by
      rintro s1 ⟨pc, hs1, hop⟩
      obtain ⟨locals, vs, hframes, -⟩ := hs1.frames
      rw [Machine.step_script hframes rfl hinit hop]
      simp only [Machine.exec, Machine.leave, hret, Machine.setTop_frames, hframes, tail_cons]
      rfl
    obtain ⟨fuel, r, s', hrun, hr⟩ := harrives.run_ends
      (e := fun r => ∀ e, Machine.bootResult r = .error e → e.toFault.fault.isCorrupt = false)
      (fun s1 hs1 => ⟨.completed .undefined, { s1 with frames := [] }, hend s1 hs1,
        by rintro e ⟨⟩⟩)
      (fun f hf e he => by cases he; exact hf)
    refine ⟨fuel, Machine.bootResult r, s', ?_, hr⟩
    dsimp only
    rw [hrun]
    rfl

end Compile.Compilation

/-- Compiled code is closed. It refers only to slots of its frame and to variables, constants,
functions and states that there are, jumps to places of its own, and ends with a return; each
instruction has its line. The initializer has a frame without slots, so for it this is so just if no
first value assigns to a component. Then no instance fails to be made because its code is wrong. -/
theorem Module.code_closed {source name : String} {script : Script} {m : Module}
    (hs : Script.ofSource source = .ok script) (hm : Module.ofSource source name = .ok m) :
    ∃ init, m.function? m.init = some init ∧
      (∀ i g, m.function? i = some g → i ≠ m.init → g.Closed m g.localCount.toNat) ∧
      init.Closed m script.componentSets ∧
      (init.Closed m init.localCount.toNat ↔ script.componentSets = 0) ∧
      (script.componentSets = 0 → ∀ settings,
        (∃ fuel r, Instance.new m settings fuel = some r) ∧
        ∀ fuel f, Instance.new m settings fuel = some (.error f) → f.fault.isCorrupt = false) := by
  have hreg := Script.ofSource_regular hs
  obtain ⟨names, b, init, s, h⟩ :=
    Module.ofScript_compilation (Module.ofScript_of_source hs hm) hreg
  have hclosed := h.init_closed hreg
  obtain ⟨hcount, -, hstores⟩ := h.init_slots
  refine ⟨init, h.function?_init,
    fun i g hg hi => h.function_closed hreg hg (h.lt_of_function? hg hi), hclosed,
    ⟨fun hinit => ?_, fun hsets => ?_⟩, fun hsets settings => ?_⟩
  · -- a frame without slots has none for the temporary of an assignment
    by_contra hsets
    obtain ⟨slot, hslot⟩ := hstores (Nat.pos_of_ne_zero hsets)
    have hlt := of_decide_eq_true (hinit.within _ hslot)
    rw [hcount] at hlt
    exact Nat.not_lt_zero _ hlt
  · rw [hsets] at hclosed
    rwa [hcount]
  · obtain ⟨fuel, r, s', hboot, hr⟩ := h.boot_sound hreg hsets (settings.machine m)
    refine ⟨⟨fuel, _, by rw [Instance.new, hboot]; rfl⟩, fun fuel' f hf => ?_⟩
    obtain ⟨⟨r', s'', u⟩, hboot', hf⟩ := map_eq_some_iff.1 hf
    have heq := (Machine.boot_mono hboot (Nat.le_max_left fuel fuel')).symm.trans
      (Machine.boot_mono hboot' (Nat.le_max_right fuel fuel'))
    cases heq
    cases r with
    | ok u => cases hf
    | error e => cases hf; exact hr e rfl

def compass : String :=
  "vector north = <1, 2, 3>; list marks = [\"n\", north.y];
   float turn(vector v) \x7b
     @again; v.x = v.x - 1.0;
     if (v.x > 0.0) jump again; else \x7b string s = (string)v; marks += s; \x7d
     return north.z = v.x; \x7d
   default \x7b touch_start(integer n) \x7b while (n) \x7b turn(north); --n; \x7d state rest; \x7d \x7d
   state rest \x7b state_entry() \x7b north.x = 0.0; \x7d \x7d"

set_option maxRecDepth 10000 in
/-- All functions of the compass are closed, and an instance is made. -/
theorem compass_closed :
    Script.Sample compass "compass" 100 fun script m _ =>
      ∃ g init, script.componentSets = 0 ∧ m.function? 0 = some g ∧ g.localCount = 4 ∧
      g.Closed m 4 ∧ m.function? m.init = some init ∧ init.Closed m 0 ∧
      ∀ fuel f, Instance.new m { memoryLimit := 0 } fuel = some (.error f) →
        f.fault.isCorrupt = false := by
  refine .of_test (fun script m i =>
      ∃ g ∈ m.function? 0,
      script.componentSets = 0 ∧ g.localCount = 4 ∧ m.init = 3) ?_
  rintro script m i hs hm hmade ⟨g, hg, hsets, hcount, hinit⟩
  obtain ⟨init, hlast, hclosed, hslots, -, hnew⟩ := Module.code_closed hs hm
  have hg' := hclosed 0 g hg (by rw [hinit]; decide)
  rw [hcount] at hg'
  rw [hsets] at hslots
  exact ⟨g, init, hsets, hg, hcount, hg', hlast, hslots,
    (hnew hsets _).2⟩

def leaning : String :=
  "vector v; float f = v.x = 1.0; default \x7b state_entry() \x7b \x7d \x7d"

/-- The temporary of the assignment has no slot, so no instance can be made. -/
theorem leaning_open :
    ∃ script m init, Script.ofSource leaning = .ok script ∧
      Module.ofSource leaning "leaning" = .ok m ∧ script.componentSets = 1 ∧
      m.function? m.init = some init ∧ init.localCount = 0 ∧
      .storeLocal 0 ∈ init.ops.toList ∧ ¬ init.Closed m init.localCount.toNat ∧
      ∃ f, Instance.new m {} 100 = some (.error f) ∧ f.fault = .corrupt (.localRange 0) := by
  have ht : ∃ script ∈ (Script.ofSource leaning).toOption,
      ∃ m ∈ (Module.ofSource leaning "leaning").toOption, ∃ init ∈ m.function? m.init,
      ∃ made ∈ Instance.new m {} 100, script.componentSets = 1 ∧ init.localCount = 0 ∧
        .storeLocal 0 ∈ init.ops.toList ∧ (match made with
          | .ok _ => none
          | .error f => some f.fault) = some (.corrupt (.localRange 0)) := by decide +kernel
  obtain ⟨script, hs, m, hm, init, hinit, made, hmade, hsets, hcount, hstore, hfault⟩ := ht
  cases made with
  | ok i => cases hfault
  | error f =>
    refine ⟨script, m, init, eq_ok_of_toOption hs, eq_ok_of_toOption hm, hsets, hinit, hcount,
      hstore, fun hclosed => ?_, f, hmade, some.inj hfault⟩
    have hlt := of_decide_eq_true (hclosed.within _ hstore)
    rw [hcount] at hlt
    exact Nat.not_lt_zero _ hlt

end EventScript
