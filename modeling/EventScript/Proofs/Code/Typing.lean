import EventScript.Proofs.Code.Annotations
import EventScript.Proofs.Code.Values

/-!
# Types of variables and operands

In compiled code every variable in scope holds a value of its type, and so do the operands. This is
an assertion that follows the laws of structured code (`Typing.laws`, `Typing.initLaws`), so compiled
modules have it everywhere (`Module.Laid.typing`, `Module.Coded.initTyping`). Without the array
extension the instructions then find what they need, in all functions but the initializer: that one
has no slots for temporary values.
-/

namespace EventScript

open List

namespace Compile

def Held (vars : List LocalVar) (locals : List Value) : Prop :=
  ∀ v ∈ vars, ∀ a, locals[v.slot.toNat]? = some a → v.ty.Admits a

/-- The global variables, the given variables of the function and the operands have their types. -/
structure Typed (K : Contract) (slots : Nat) (vars : List LocalVar) (S : List Ty) (x : Local) :
    Prop where
  globals : Ty.AdmitAll K.globals x.globals
  held : Held vars x.locals
  operands : Ty.AdmitAll S x.operands
  slots : K.strict = true → slots ≤ x.locals.length

/-- The contract is about types only, and is for code with the linkage. -/
structure Typing (K : Contract) (Γ : Linkage) (lay : Nat → Chain) : Prop where
  shared : K.Shared = Ty.AdmitAll K.globals
  passed : K.Passed = Ty.Admits
  unbalanced : K.balanced = false
  check : K.Check = fun p locals _ => Held (lay p).vars locals
  constants : K.constants = Γ.constants
  functions : K.functions = Γ.functions
  ret : K.ret = Γ.ret
  globals : ∀ {i : Nat} {ty : Ty}, Γ.globals[i]? = some ty → K.globals[i]? = some ty
  strict : K.strict = true → Γ.core = true
  tests : Γ.tests = false
  here : ∀ p locals, Held (lay p).vars locals → K.Here p locals

variable {Γ : Linkage} {χ : Chain}

/-- What is so of the variables at a place is so as soon as some of them hold values of their types. -/
def Settles (K : Contract) (vars : List LocalVar) (p : Nat) : Prop :=
  ∀ locals, Held vars locals → K.Here p locals

theorem Typing.settles (hK : Typing K Γ lay) (h : (lay p).vars ⊆ χ.vars) : Settles K χ.vars p :=
  fun locals hl => hK.here p locals fun v hv => hl v (h hv)

theorem Settles.subset (h : Settles K vars p) (hs : vars ⊆ vars') : Settles K vars' p :=
  fun locals hl => h locals fun v hv => hl v (hs hv)

namespace Typed

theorem subset (h : Typed K Γ.slots vars S x) (hsub : vars' ⊆ vars) : Typed K Γ.slots vars' S x :=
  ⟨h.globals, fun v hv => h.held v (hsub hv), h.operands, h.slots⟩

theorem stands (hK : Typing K Γ lay) (h : Typed K Γ.slots vars S x) (hp : Settles K vars pc) :
    x.Stands K pc := ⟨by rw [hK.shared]; exact h.globals, hp _ h.held⟩

theorem var_admits (hK : Typing K Γ lay) (h : Typed K Γ.slots χ.vars S x)
    (hvar : Γ.HasVar χ fresh var ty) (ha : x.var? var = some a) : ty.Admits a := by
  cases var with
  | localVar slot => exact h.held _ hvar.1 a ha
  | globalVar index => exact forall₂_getElem? h.globals (hK.globals hvar) ha

theorem slot_isSome (h : Typed K Γ.slots vars S x) (hstrict : K.strict = true)
    (hslot : slot.toNat < Γ.slots) : (x.var? (.localVar slot)).isSome := by
  have := h.slots hstrict
  show (x.locals[slot.toNat]?).isSome = true
  rw [getElem?_eq_getElem (by omega)]
  rfl

theorem var_isSome (hK : Typing K Γ lay) (hfits : Γ.Fits χ fresh) (h : Typed K Γ.slots χ.vars S x)
    (hstrict : K.strict = true) (hvar : Γ.HasVar χ fresh var ty) : (x.var? var).isSome := by
  cases var with
  | localVar slot => exact h.slot_isSome hstrict (hfits.below _ hvar.1)
  | globalVar index =>
    have hlen := (List.getElem?_eq_some_iff.1 (hK.globals hvar)).1
    rw [h.globals.length_eq] at hlen
    show (x.globals[index.toNat]?).isSome = true
    rw [getElem?_eq_getElem hlen]
    rfl

theorem setVar (hK : Typing K Γ lay) (hfits : Γ.Fits χ fresh) (h : Typed K Γ.slots χ.vars S x)
    (hvar : Γ.HasVar χ fresh var ty) (ha : ty.Admits a) :
    Typed K Γ.slots χ.vars S (x.setVar var a) := by
  cases var with
  | localVar slot =>
    refine ⟨h.globals, fun v hv b hb => ?_, h.operands, fun hstrict => ?_⟩
    · change (x.locals.set slot.toNat a)[v.slot.toNat]? = some b at hb
      by_cases hslot : v.slot = slot
      · have heq : v = ⟨slot, ty⟩ := inj_on_of_nodup_map hfits.nodup hv hvar.1 hslot
        have hlt : slot.toNat < x.locals.length := by
          have := (List.getElem?_eq_some_iff.1 hb).1
          rwa [List.length_set, hslot] at this
        rw [hslot, getElem?_set_self hlt] at hb
        cases hb
        rw [heq]
        exact ha
      · rw [getElem?_set_ne (fun h => hslot (UInt16.toNat_inj.1 h.symm))] at hb
        exact h.held v hv b hb
    · have := h.slots hstrict
      show _ ≤ (x.locals.set slot.toNat a).length
      rwa [List.length_set]
  | globalVar index =>
    exact ⟨forall2_set h.globals (hK.globals hvar) ha, h.held, h.operands, h.slots⟩

theorem setSlot (h : Typed K Γ.slots vars S x) (hspare : ∀ u ∈ vars, u.slot ≠ v.slot)
    (ha : v.ty.Admits a) : Typed K Γ.slots (v :: vars) S (x.setVar (.localVar v.slot) a) := by
  refine ⟨h.globals, fun u hu b hb => ?_, h.operands, fun hstrict => ?_⟩
  · change (x.locals.set v.slot.toNat a)[u.slot.toNat]? = some b at hb
    rcases mem_cons.1 hu with rfl | hu
    · have hlt := (List.getElem?_eq_some_iff.1 hb).1
      rw [List.length_set] at hlt
      rw [getElem?_set_self hlt] at hb
      cases hb
      exact ha
    · rw [getElem?_set_ne (fun h => hspare u hu (UInt16.toNat_inj.1 h.symm))] at hb
      exact h.held u hu b hb
  · have := h.slots hstrict
    show _ ≤ (x.locals.set v.slot.toNat a).length
    rwa [List.length_set]

theorem setSpare (h : Typed K Γ.slots vars S x) (hspare : ∀ u ∈ vars, u.slot ≠ slot)
    (a : Value) : Typed K Γ.slots vars S (x.setVar (.localVar slot) a) :=
  (h.setSlot (v := ⟨slot, .object⟩) hspare (.inl rfl)).subset (subset_cons_self _ _)

theorem pop (h : Typed K Γ.slots vars (t :: S) x) (ho : x.operands = a :: rest) :
    t.Admits a ∧ Typed K Γ.slots vars S { x with operands := rest } := by
  have hoperands := h.operands
  rw [ho] at hoperands
  obtain _ | ⟨ha, hrest⟩ := hoperands
  exact ⟨ha, h.globals, h.held, hrest, h.slots⟩

theorem push (h : Typed K Γ.slots vars S x) (ha : t.Admits a) :
    Typed K Γ.slots vars (t :: S) (x.push a) :=
  ⟨h.globals, h.held, .cons ha h.operands, h.slots⟩

theorem operands_ne (h : Typed K Γ.slots vars (t :: S) x) : x.operands ≠ [] := by
  intro hnil
  have := h.operands
  rw [hnil] at this
  cases this

theorem args_length {params : List Ty} (h : Typed K Γ.slots vars (params.reverse ++ S) x) :
    params.length ≤ x.operands.length := by
  rw [← h.operands.length_eq, length_append, length_reverse]
  exact Nat.le_add_right _ _

theorem withMem (h : Typed K Γ.slots vars S x) :
    Typed K Γ.slots vars S { x with mem } := ⟨h.globals, h.held, h.operands, h.slots⟩

end Typed

/-! ## Instructions -/

def typedFamily (K : Contract) (Γ : Linkage) : Family := fun χ _ S => Typed K Γ.slots χ.vars S

namespace Typing

variable (hK : Typing K Γ lay)

include hK

theorem load_wp (hfits : Γ.Fits χ fresh) (hin : (lay pc).vars ⊆ χ.vars) (hvar : Γ.HasVar χ fresh var ty)
    (hx : Typed K Γ.slots χ.vars S x) (hI : ∀ y, Typed K Γ.slots χ.vars (ty :: S) y → I (pc + 1) y) :
    Wp K var.loadOp pc x I := by
  have hfinds := fun hstrict => hx.var_isSome hK hfits hstrict hvar
  have hleads : ∀ a, x.var? var = some a → I (pc + 1) (x.push a) := fun a ha =>
    hI _ (hx.push (hx.var_admits hK hvar ha))
  cases var with
  | localVar slot | globalVar index => exact ⟨hx.stands hK (hK.settles hin), hfinds, hleads⟩

theorem account_flows (hin : Over pc ops (Settles K vars))
    (hops : ∀ op ∈ ops, (∃ n, op = .memStatic n) ∨
      ∃ var, (op = .memIncr var ∨ op = .memDecr var) ∧
        ∀ x, K.strict = true → Typed K Γ.slots vars S x → (x.var? var).isSome) :
    Stays K pc ops (Typed K Γ.slots vars S) := by
  induction ops generalizing pc with
  | nil => exact .nil fun _ => id
  | cons op ops ih =>
    have hop : Stays K pc [op] (Typed K Γ.slots vars S) := by
      refine .op fun x I hx hI _ => ?_
      have hstands := hx.stands hK hin.head
      rcases hops op mem_cons_self with ⟨n, rfl⟩ | ⟨var, rfl | rfl, hvar⟩
      · exact ⟨hstands, (fun _ _ hg => nomatch hg), hI _ hx.withMem⟩
      · exact ⟨hstands, fun hs => hvar x hs hx, fun _ _ => hI _ hx.withMem⟩
      · exact ⟨hstands, fun hs => hvar x hs hx, fun _ _ => hI _ hx.withMem⟩
    exact hop.append (ih (hin.right (a := [_])) (forall_mem_cons.1 hops).2)

theorem storeOp_flows (hfits : Γ.Fits χ fresh) (hin : (lay pc).vars ⊆ χ.vars)
    (hvar : Γ.HasVar χ fresh var ty) :
    Through K pc [var.storeOp] (Typed K Γ.slots χ.vars (ty :: S)) (Typed K Γ.slots χ.vars S) := by
  refine .op fun x I hx hI _ => ?_
  have hfinds := fun hstrict => And.intro hx.operands_ne (hx.var_isSome hK hfits hstrict hvar)
  have hleads : ∀ v rest old, x.operands = v :: rest → x.var? var = some old →
      I (pc + 1) ({ x with operands := rest }.setVar var v) := by
    intro v rest _ ho _
    obtain ⟨hv, hx'⟩ := hx.pop ho
    exact hI _ (hx'.setVar hK hfits hvar hv)
  cases var with
  | localVar slot | globalVar index => exact ⟨hx.stands hK (hK.settles hin), hfinds, hleads⟩

theorem settled (h : Within lay χ pc ops) : Over pc ops (Settles K χ.vars) := fun p h1 h2 =>
  hK.settles (h p h1 h2)

theorem store_flows (hfits : Γ.Fits χ fresh) (hin : Within lay χ pc (storeOps var ty))
    (hvar : Γ.HasVar χ fresh var ty) : Through K pc (storeOps var ty) (Typed K Γ.slots χ.vars (ty :: S))
      (Typed K Γ.slots χ.vars S) := by
  unfold storeOps at hin ⊢
  split at hin
  · rename_i hd
    rw [if_pos hd]
    have hstore : Within lay χ (pc + 1) [var.storeOp, .memIncr var] := hin.right (a := [_])
    have hdecr : Stays K pc [.memDecr var] (Typed K Γ.slots χ.vars (ty :: S)) :=
      hK.account_flows (hK.settled (hin.left (a := [_]))) fun op hop =>
        .inr ⟨var, .inr (mem_singleton.1 hop), fun x hs hx => hx.var_isSome hK hfits hs hvar⟩
    have hincr : Stays K (pc + 1 + 1) [.memIncr var] (Typed K Γ.slots χ.vars S) :=
      hK.account_flows (hK.settled (hstore.right (a := [_]))) fun op hop =>
        .inr ⟨var, .inl (mem_singleton.1 hop), fun x hs hx => hx.var_isSome hK hfits hs hvar⟩
    exact hdecr.append ((hK.storeOp_flows hfits hstore.head hvar).append hincr)
  · rename_i hd
    rw [if_neg hd]
    exact hK.storeOp_flows hfits hin.head hvar

theorem operate_wp (hg : op.operate? = some g) (hin : Settles K vars pc)
    (hx : Typed K Γ.slots vars S x)
    (hok : ∀ stack, g x.operands = .ok stack → Ty.AdmitAll S' stack)
    (hfault : Γ.core = true → ∀ e stack, g x.operands = .error (e, stack) → ¬ e.IsCodeError)
    (hI : ∀ y, Typed K Γ.slots vars S' y → I (pc + 1) y) : Wp K op pc x I := by
  refine ⟨hx.stands hK hin, fun hs => (finds_of_operate hg).2 (hfault (hK.strict hs)), ?_⟩
  refine (leadsTo_of_operate hg).2 fun stack hstack => hI _ ?_
  exact ⟨hx.globals, hx.held, hok stack hstack, hx.slots⟩

theorem calls {ret : Ty} (hlay : lay pc = χ)
    (hx : Typed K Γ.slots χ.vars (params.reverse ++ S) x)
    (hI : ∀ y, Typed K Γ.slots χ.vars (returned ret S) y → I y) : Calls K pc x params ret I := by
  intro args rest hs
  obtain ⟨hargs, hrest⟩ := admits_split hx.operands hs
  refine ⟨by rw [hK.passed]; exact hargs, ?_, fun globals v hglobals hv => hI _ ?_⟩
  · rw [hK.check]
    show Held (lay pc).vars x.locals
    rw [hlay]
    exact hx.held
  · rw [hK.shared] at hglobals
    rw [hK.passed] at hv
    refine ⟨hglobals, hx.held, ?_, hx.slots⟩
    unfold answer returned
    split
    · exact hrest
    · exact .cons (hv ‹_›) hrest

theorem callApi_wp (hlay : lay pc = χ)
    (hf : ApiFunction.get? i = some f) (hx : Typed K Γ.slots χ.vars (f.signature.reverse ++ S) x)
    (hI : ∀ y, Typed K Γ.slots χ.vars (returned f.ret S) y → I (pc + 1) y) :
    Wp K (.callApi i) pc x I := by
  refine ⟨hx.stands hK (hK.settles (subset_of_lay hlay)), fun _ g hg => ?_, f, hf,
    hK.calls hlay hx hI⟩
  rw [hf] at hg
  cases hg
  rw [← length_map (f := Prod.snd)]
  exact hx.args_length

theorem plain_wp (hfits : Γ.Fits χ fresh) (hlay : lay pc = χ)
    (hp : Plain Γ χ fresh op S S') (hx : Typed K Γ.slots χ.vars S x)
    (hI : ∀ y, Typed K Γ.slots χ.vars S' y → I (pc + 1) y) : Wp K op pc x I := by
  have hin := subset_of_lay hlay
  have hstands := hx.stands hK (hK.settles hin)
  have operate : ∀ {g}, op.operate? = some g → Wp K op pc x I := fun hg =>
    hK.operate_wp hg (hK.settles hin) hx (fun _ hs => hp.operands_admit hK.tests hg hx.operands hs)
      (fun hcore _ _ hs => (hp.operands_fault (.inl hcore) hg hx.operands hs).2 hcore) hI
  cases hp with
  | @const i c S hc =>
    refine ⟨hstands, fun _ => ?_, fun c' hc' => ?_⟩
    · show i.toNat < K.constants.length
      rw [hK.constants]
      exact (List.getElem?_eq_some_iff.1 hc).1
    · rw [hK.constants, hc] at hc'
      cases hc'
      exact hI _ (hx.push (.ofConstant c))
  | load hvar => exact hK.load_wp hfits hin hvar hx hI
  | callApi _ hf => exact hK.callApi_wp hlay hf hx hI
  | checkRun _ =>
    refine ⟨hstands, (fun _ _ hg => nomatch hg), ?_, hI _ hx⟩
    rw [hK.check]
    show Held (lay pc).vars x.locals
    rw [hlay]
    exact hx.held
  | _ => exact operate rfl

/-! ## Pieces of code -/

omit hK in
theorem spare_fits (hfits : Γ.Fits χ fresh) (hv : v.ty.Allowed Γ.core)
    (hspare : Γ.Spare χ v.slot) : Γ.Fits (⟨none, [v]⟩ :: χ) fresh where
  nodup := nodup_cons.2 ⟨fun hmem => by
    obtain ⟨u, hu, heq⟩ := mem_map.1 hmem
    exact hspare.2 u hu heq, hfits.nodup⟩
  below := forall_mem_cons.2 ⟨hspare.1, hfits.below⟩
  allowed := forall_mem_cons.2 ⟨hv, hfits.allowed⟩
  fresh := hfits.fresh.cons _

omit hK in
theorem hasVar_cons (h : Γ.HasVar χ fresh var ty) : Γ.HasVar (r :: χ) fresh var ty := by
  cases var with
  | localVar slot => exact ⟨mem_append_right _ h.1, h.2⟩
  | globalVar index => exact h

theorem keep_flows (hin : Settles K vars pc) (hslot : v.slot.toNat < Γ.slots)
    (hspare : ∀ u ∈ vars, u.slot ≠ v.slot) :
    Through K pc [.storeLocal v.slot] (Typed K Γ.slots vars (v.ty :: S))
      (Typed K Γ.slots (v :: vars) S) := by
  refine .op fun x I hx hI _ => ⟨hx.stands hK hin, fun hs => ⟨hx.operands_ne, ?_⟩, ?_⟩
  · exact hx.slot_isSome hs hslot
  intro a rest _ ho _
  obtain ⟨ha, hx'⟩ := hx.pop ho
  exact hI _ (hx'.setSlot hspare ha)

theorem component_flows (hfits : Γ.Fits χ fresh) (hin : Within lay χ pc (componentOps var ty c k))
    (hvar : Γ.HasVar χ fresh var ty) (hc : ty.HasComponent c) (hk : Γ.Spare χ k) :
    Stays K pc (componentOps var ty c k) (Typed K Γ.slots χ.vars (.float :: S)) := by
  let χ' : Chain := ⟨none, [⟨k, .float⟩]⟩ :: χ
  have hfits' : Γ.Fits χ' fresh := spare_fits hfits ⟨nofun, fun _ => ⟨nofun, nofun⟩⟩ hk
  have hvar' : Γ.HasVar χ' fresh var ty := hasVar_cons hvar
  have hin' : Within lay χ' pc (componentOps var ty c k) := fun p h1 h2 =>
    Subset.trans (hin p h1 h2) (subset_cons_self _ _)
  have hset' := hin'.left.left
  have hkeep : Γ.HasVar χ' fresh (.localVar k) .float :=
    ⟨mem_cons_self, fun hmem => hk.2 _ (hfits.fresh.subset hmem) rfl⟩
  have hstore : Through K pc [.storeLocal k] (Typed K Γ.slots χ.vars (.float :: S))
      (Typed K Γ.slots χ'.vars S) := hK.keep_flows (v := ⟨k, .float⟩) (hK.settles hin.head) hk.1 hk.2
  have hload : Through K (pc + 1) [var.loadOp] (Typed K Γ.slots χ'.vars S)
      (Typed K Γ.slots χ'.vars (ty :: S)) :=
    .op fun x I hx hI _ => hK.load_wp hfits' (hset'.right (a := [_])).head hvar' hx hI
  have hreload : ∀ {pc S}, (lay pc).vars ⊆ χ'.vars → Through K pc [.loadLocal k]
      (Typed K Γ.slots χ'.vars S) (Typed K Γ.slots χ'.vars (.float :: S)) := fun hin =>
    .op fun x I hx hI _ => hK.load_wp hfits' hin hkeep hx hI
  have hset : Through K (pc + 1 + 1 + 1) [.setField c]
      (Typed K Γ.slots χ'.vars (.float :: ty :: S)) (Typed K Γ.slots χ'.vars (ty :: S)) := by
    refine .op fun x I hx hI _ => ?_
    obtain ⟨locals, operands, globals, mem⟩ := x
    obtain _ | @⟨_, d, _, _, -, _ | @⟨_, v, _, _, hv, hrest⟩⟩ := hx.operands
    obtain ⟨r, hr, hadmits⟩ := hv.setComponent hc d.asFloat
    refine hK.operate_wp rfl (hK.settles (hset'.right (a := [_, _, _])).head) hx
      (fun stack hs => ?_) (fun _ e stack hs => ?_) hI
    · obtain ⟨r', hr', rfl⟩ := Operands.pushResult_ok hs
      cases hr'.symm.trans hr
      exact .cons hadmits hrest
    · cases (Operands.pushResult_error hs).symm.trans hr
  have hassign : Through K (pc + 1 + 1 + 1 + 1) (storeOps var ty)
      (Typed K Γ.slots χ'.vars (ty :: S)) (Typed K Γ.slots χ'.vars S) :=
    hK.store_flows hfits' hin'.left.right hvar'
  refine (((hstore.append (hload.append ((hreload (hset'.right (a := [_, _])).head).append
    hset))).append hassign).append (hreload hin'.right.head)).mono (fun _ => id) fun x hx => ?_
  exact hx.subset (subset_cons_self _ _)

theorem init_flows (hin : Over pc (initOps new) (Settles K vars))
    (hnew : ∀ v ∈ new, v.ty ≠ .void ∧ v.slot.toNat < Γ.slots)
    (hnodup : ((new ++ vars).map LocalVar.slot).Nodup) :
    Through K pc (initOps new) (Typed K Γ.slots vars []) (Typed K Γ.slots (new ++ vars) []) := by
  induction new generalizing vars pc with
  | nil => exact .nil fun _ => id
  | cons v new ih =>
    obtain ⟨hvoid, hslot⟩ := hnew v mem_cons_self
    rw [cons_append, map_cons, nodup_cons] at hnodup
    have hother : ∀ u ∈ vars, u.slot ≠ v.slot := fun u hu heq =>
      hnodup.1 (heq ▸ mem_map_of_mem (mem_append_right _ hu))
    have hpush : Through K pc [.pushDefault v.ty] (Typed K Γ.slots vars [])
        (Typed K Γ.slots vars [v.ty]) := by
      refine .op fun x I hx hI _ =>
        hK.operate_wp rfl hin.head hx (fun stack hs => ?_) (fun _ _ _ hs => ?_) hI
      · cases hs; exact .cons (.default hvoid) hx.operands
      · cases hs
    have hstore : Through K (pc + 1) [.storeLocal v.slot] (Typed K Γ.slots vars [v.ty])
        (Typed K Γ.slots (v :: vars) []) :=
      hK.keep_flows (hin.right (a := [_])).head hslot hother
    have hperm : (new ++ v :: vars).Perm (v :: (new ++ vars)) := perm_middle
    have hrest : Through K (pc + 1 + 1) (initOps new) (Typed K Γ.slots (v :: vars) [])
        (Typed K Γ.slots (new ++ v :: vars) []) :=
      ih (fun p h1 h2 => ((hin.right (a := [_, _])) p h1 h2).subset (subset_cons_self _ _))
        (forall_mem_cons.1 hnew).2 ((hperm.map LocalVar.slot).nodup_iff.2 (by
          rw [map_cons, nodup_cons]; exact hnodup))
    refine (hpush.append (hstore.append hrest)).mono (fun _ => id) fun x hx => ?_
    exact hx.subset hperm.symm.subset

omit hK in
theorem release_isSome (hfits : Γ.Fits χ fresh) (hr : r ∈ χ)
    (hslot : slot ∈ r.dynamicSlots) (hx : Typed K Γ.slots vars S x) (hs : K.strict = true) :
    (x.var? (.localVar slot)).isSome := by
  obtain ⟨v, hv, rfl⟩ := mem_map.1 hslot
  exact hx.slot_isSome hs (hfits.below v (mem_flatMap.2 ⟨r, hr, (mem_filter.1 hv).1⟩))

theorem leave_flows (hfits : Γ.Fits χ fresh) (hin : Over pc ops (Settles K vars))
    (hops : ∀ op ∈ ops, (∃ n, op = .memStatic n) ∨
      ∃ r ∈ χ, ∃ slot ∈ r.dynamicSlots, op = .memDecr (.localVar slot)) :
    Stays K pc ops (Typed K Γ.slots vars S) := by
  refine hK.account_flows hin fun op hop => (hops op hop).imp id ?_
  rintro ⟨r, hr, slot, hslot, rfl⟩
  exact ⟨_, .inr rfl, fun x hs hx => release_isSome hfits hr hslot hx hs⟩

theorem ret_flows (hfits : Γ.Fits χ fresh) (hin : Within lay χ pc (returnOps Γ χ)) :
    Through K pc (returnOps Γ χ) (Typed K Γ.slots χ.vars (returned Γ.ret S)) (fun _ => False) := by
  have hleave : Stays K pc (leaveFrameOps Γ.frameStatic χ)
      (Typed K Γ.slots χ.vars (returned Γ.ret S)) := by
    exact hK.leave_flows hfits (hK.settled hin.left) (forall_mem_leaveFrameOps (fun n => .inl ⟨n, rfl⟩)
      fun r hr slot hslot => .inr ⟨r, hr, slot, hslot, rfl⟩)
  have hret : Through K (pc + (leaveFrameOps Γ.frameStatic χ).length) [.ret]
      (Typed K Γ.slots χ.vars (returned Γ.ret S)) (fun _ => False) := by
    refine .op fun x I hx hI _ =>
      ⟨hx.stands hK (hK.settles hin.right.head), fun _ hne => ?_, ?_, fun hne v hv => ?_⟩
    · rw [hK.ret] at hne
      rw [returned, if_neg hne] at hx
      exact hx.operands_ne
    · rw [hK.unbalanced]; rintro ⟨⟩
    · rw [hK.ret] at hne ⊢
      rw [returned, if_neg hne] at hx
      obtain ⟨a, rest, ho⟩ := exists_cons_of_ne_nil hx.operands_ne
      rw [ho] at hv
      cases hv
      rw [hK.passed]
      exact (hx.pop ho).1
  exact hleave.append hret

theorem straightLaws : StraightLaws K Γ lay (typedFamily K Γ) where
  plain hfits hlay hp hx hI := hK.plain_wp hfits hlay hp hx hI
  store hfits hin hvar := hK.store_flows hfits hin hvar
  component hfits hin hvar hc hk := hK.component_flows hfits hin hvar hc hk
  arraySet hfits hin hcore hvar := by
    refine .op fun x I hx hI _ => ⟨hx.stands hK (hK.settles hin), fun hs => ?_, ?_⟩
    · exact absurd (hK.strict hs) (by rw [hcore]; nofun)
    intro a k rest old new ho _ _
    obtain ⟨ha, hx'⟩ := hx.pop ho
    obtain ⟨-, hx'⟩ := hx'.pop rfl
    exact hI _ ((hx'.push ha).setVar hK hfits hvar (.inr rfl))
  call hfits hlay hf hx hI := by
    rw [← hK.functions] at hf
    refine ⟨hx.stands hK (hK.settles (subset_of_lay hlay)), fun _ params ret hf' => ?_, _, _, hf,
      hK.calls hlay hx hI⟩
    rw [hf] at hf'
    cases hf'
    exact hx.args_length
  spill hfits hin hcore hk := by
    refine .op fun x I hx hI _ => ⟨hx.stands hK (hK.settles hin), fun hs => ?_, ?_⟩
    · exact absurd (hK.strict hs) (by rw [hcore]; nofun)
    · intro a rest _ ho _
      exact hI _ ((hx.pop ho).2.setSpare hk.2 a)
  reload hfits hin hcore hk := by
    refine .op fun x I hx hI _ => ⟨hx.stands hK (hK.settles hin), fun hs => ?_, fun a _ =>
      hI _ (hx.push (.inl rfl))⟩
    exact absurd (hK.strict hs) (by rw [hcore]; nofun)
  ret hfits hin _ := hK.ret_flows hfits hin
  stands hin hx := hx.stands hK (hK.settles hin)

theorem enter_flows (hin : Over pc (initOps r.vars) (Settles K χ.vars)) (hfits : Γ.Fits χ [])
    (hr : Γ.NewRegion χ r) :
    Through K pc (initOps r.vars) (Typed K Γ.slots χ.vars [])
      (Typed K Γ.slots (Chain.vars (r :: χ)) []) :=
  hK.init_flows hin (fun v hv => ⟨(hr.allowed v hv).1, (hr.spare v hv).1⟩)
    (hfits.enter hr (nil_sublist _)).nodup

theorem laws (hstates : Γ.states = K.states) (hlibrary : Γ.library = true) :
    Laws K Γ lay (typedFamily K Γ) where
  toStraightLaws := hK.straightLaws
  pop hx := ⟨fun _ => hx.operands_ne, fun _ _ ho => (hx.pop ho).2⟩
  declare {χ v fresh pc} hfits hin := by
    have hmem : v ∈ χ.vars := hfits.fresh.subset mem_cons_self
    have hvar : Γ.HasVar χ [] (.localVar v.slot) v.ty := ⟨hmem, not_mem_nil⟩
    have hfits' : Γ.Fits χ [] := ⟨hfits.nodup, hfits.below, hfits.allowed, nil_sublist _⟩
    have hstore : Through K pc [.storeLocal v.slot] (Typed K Γ.slots χ.vars [v.ty])
        (Typed K Γ.slots χ.vars []) := hK.storeOp_flows hfits' hin.head hvar
    unfold declareOps at hin ⊢
    split
    · rename_i hd
      rw [if_pos hd] at hin
      have hincr : Stays K (pc + 1) [.memIncr (.localVar v.slot)]
          (Typed K Γ.slots χ.vars []) :=
        hK.account_flows (hK.settled (hin.right (a := [_]))) fun op hop =>
          .inr ⟨_, .inl (mem_singleton.1 hop), fun x hs hx =>
          hx.var_isSome hK hfits' hs hvar⟩
      exact hstore.append hincr
    · exact hstore
  skip hx := hx
  enter {χ r fresh pc} hfits hin hr _ := by
    unfold Region.enterOps at hin ⊢
    split at hin
    · rename_i hd
      rw [if_pos hd]
      have hcharge : Stays K pc [.memStatic r.staticSize] (Typed K Γ.slots χ.vars []) :=
        hK.account_flows (hK.settled hin.left) fun op hop => .inl ⟨_, mem_singleton.1 hop⟩
      exact hcharge.append (hK.enter_flows (hK.settled hin.right) hfits hr)
    · rename_i hd
      rw [if_neg hd]
      exact hK.enter_flows (hK.settled hin) hfits hr
  leave {χ r pc} hfits hin := by
    refine (hK.leave_flows hfits (hK.settled hin)
      (forall_mem_leaveOps (fun n => .inl ⟨n, rfl⟩) fun slot hslot =>
      .inr ⟨_, mem_cons_self, slot, hslot, rfl⟩)).mono
      (fun _ => id) fun x hx => ?_
    exact hx.subset (subset_append_right _ _)
  jump {left rest target pc L} hfits hin hL := by
    have hsub : Chain.vars rest ⊆ Chain.vars (left ++ rest) := by
      rw [Chain.vars, Chain.vars, flatMap_append]
      exact subset_append_right _ _
    refine ((hK.leave_flows hfits (hK.settled hin.left) (forall_mem_flatMap_leaveOps
      (fun n => .inl ⟨n, rfl⟩) fun r hr slot hslot =>
        .inr ⟨r, mem_append_left _ hr, slot, hslot, rfl⟩)).labels fun _ _ h => h.elim).append
      (jump_flows (fun x hx => hx.stands hK (hK.settles hin.right.head))
        fun x hx => hL x (hx.subset hsub))
  states := hstates
  library := hlibrary

def Called (K : Contract) (slots : Nat) (params : List Ty) (x : Local) : Prop :=
  ∃ args, Ty.AdmitAll params args ∧ x.locals = Machine.fillLocals slots args ∧
    x.operands = [] ∧ Ty.AdmitAll K.globals x.globals

omit hK in
theorem called_typed {Y : Layout} (hY : Y.Frames Γ params) (h : Called K Γ.slots params x) :
    Typed K Γ.slots Y.outer.vars [] x := by
  obtain ⟨args, hargs, hlocals, hoperands, hglobals⟩ := h
  refine ⟨hglobals, fun v hv a ha => ?_, by rw [hoperands]; exact .nil, fun _ => ?_⟩
  · obtain ⟨i, hi⟩ := mem_iff_getElem?.1 hv
    have hty : params[i]? = some v.ty := by rw [← hY.tys, getElem?_map, hi]; rfl
    have hslot : v.slot.toNat = i := by
      have hs : (Y.outer.vars.map (·.slot.toNat))[i]? = some v.slot.toNat := by
        rw [getElem?_map, hi]; rfl
      rw [hY.slots] at hs
      obtain ⟨_, hs⟩ := List.getElem?_eq_some_iff.1 hs
      rw [getElem_range] at hs
      exact hs.symm
    have hbelow : i < Γ.slots := hslot ▸ (hY.outer.spare v hv).1
    have hlt : i < args.length := by
      rw [← hargs.length_eq]
      exact (List.getElem?_eq_some_iff.1 hty).1
    refine forall₂_getElem? hargs hty ?_
    rw [hlocals, hslot, Machine.fillLocals, getElem?_append_left (by rw [length_take]; omega),
      getElem?_take_of_lt hbelow] at ha
    exact ha
  · rw [hlocals, Machine.fillLocals, length_append, length_take, length_replicate]
    omega

theorem begin_flows (hlibrary : Γ.library = true) {Y : Layout} (hY : Y.Frames Γ params)
    (hlay : ∀ p, p < Y.enterOps.length → lay p = Y.frame)
    (hin : ∀ p, p + 1 < Y.enterOps.length → Settles K Y.outer.vars p) :
    Through K 0 Y.enterOps (Called K Γ.slots params) (Typed K Γ.slots Y.frame.vars []) := by
  have hvars : Chain.vars [Y.outer] = Y.outer.vars := append_nil _
  have hfits := hY.fits_outer
  have hover : Over 0 (.memStatic Y.frameStatic :: (Y.outer.dynamicSlots.map fun slot =>
      .memIncr (.localVar slot)) ++ initOps Y.body.vars) (Settles K Y.outer.vars) := by
    intro p _ h2
    refine hin p ?_
    simp only [Layout.enterOps, length_append, length_singleton] at h2 ⊢
    omega
  have hcharge : Through K 0 (.memStatic Y.frameStatic ::
      Y.outer.dynamicSlots.map fun slot => .memIncr (.localVar slot))
      (Typed K Γ.slots Y.outer.vars []) (Typed K Γ.slots Y.outer.vars []) := by
    refine hK.account_flows hover.left fun op hop => ?_
    rcases mem_cons.1 hop with rfl | hop
    · exact .inl ⟨_, rfl⟩
    · obtain ⟨slot, hslot, rfl⟩ := mem_map.1 hop
      exact .inr ⟨_, .inl rfl, fun x hs hx => release_isSome hfits mem_cons_self hslot hx hs⟩
  have hinit := hK.enter_flows (hvars.symm ▸ hover.right) hfits hY.body
  rw [hvars] at hinit
  have hcheck : ∀ {pc}, pc < Y.enterOps.length → Stays K pc [.checkRun]
      (Typed K Γ.slots Y.frame.vars []) := fun hpc =>
    .op fun x I hx hI _ =>
      hK.plain_wp (hY.fits (nil_sublist _)) (hlay _ hpc) (.checkRun hlibrary) hx hI
  refine ((hcharge.mono (fun _ hx => called_typed hY hx) fun _ => id).append hinit).append
    (hcheck ?_)
  simp only [Nat.zero_add, Layout.enterOps, length_append, length_singleton]
  omega

end Typing

theorem Typing.initLaws (hK : ∀ i, Typing K (Γ.before i) fun _ => []) (hret : K.ret = .void) :
    InitLaws K Γ (fun _ => Typed K Γ.slots [] []) fun i => typedFamily K (Γ.before i) where
  begin {i} _ _ _ := (hK i).account_flows (fun p _ _ => (hK i).here p)
    fun _ hop => .inl ⟨_, mem_singleton.1 hop⟩
  straight {i} _ := (hK i).straightLaws
  set {i ty index pc} hty hindex := by
    have hvar : (Γ.before (i + 1)).HasVar [] [] (.globalVar index) ty := by
      show (Γ.globals.take (i + 1))[index.toNat]? = some ty
      rw [hindex, getElem?_take_of_lt (Nat.lt_succ_self i)]
      exact hty
    have hfits : (Γ.before (i + 1)).Fits [] [] := ⟨nodup_nil, fun _ hv => absurd hv not_mem_nil,
        fun _ hv => absurd hv not_mem_nil, .refl _⟩
    have hstore : Through K pc [.storeGlobal index] (Typed K Γ.slots [] [ty])
        (Typed K Γ.slots [] []) := (hK (i + 1)).storeOp_flows hfits (Subset.refl _) hvar
    split
    · have hincr : Stays K (pc + 1) [.memIncr (.globalVar index)] (Typed K Γ.slots [] []) :=
        (hK (i + 1)).account_flows (fun p _ _ => (hK i).here p)
          fun op hop => .inr ⟨_, .inl (mem_singleton.1 hop),
          fun x hs hx => hx.var_isSome (hK (i + 1)) hfits hs hvar⟩
      exact hstore.append hincr
    · exact hstore
  ret := by
    refine .op fun x I hx _ _ => ⟨hx.stands (hK 0) ((hK 0).here _),
      fun _ hne => absurd hret hne, ?_, fun hne =>
      absurd hret hne⟩
    rw [(hK 0).unbalanced]
    nofun

end Compile

open Compile

/-! ## Modules -/

/-- The terms on which functions agree about types. The given functions can be called, and the given
number of states can be asked for. -/
def Module.typing (m : Module) (functions : List (List Ty × Ty)) (states : Nat) : Terms where
  globals := m.globals.map GlobalSlot.ty
  constants := m.constants.toList
  functions
  states
  Shared := m.Admits
  Passed := Ty.Admits
  balanced := false

namespace Module

def types (m : Module) (Y : UInt16 → Layout) (Inv : UInt16 → Nat → Local → Prop) : Annotation :=
  ⟨m.typing (m.linkage false).functions m.states.length,
    fun i p locals _ => Held ((Y i).chainAt p).vars locals, !m.arrays, Inv,
    fun i p locals => Held ((Y i).scopeAt p).vars locals⟩

/-- The functions of a compiled module keep the types of variables and operands. -/
theorem Laid.typing {m : Module} {Y : UInt16 → Layout} (hlaid : m.Laid script false Y) :
    ∃ Inv, (m.types Y Inv).Valid m ∧ (∀ i g, m.function? i = some g →
        i.toNat < m.init.toNat → (m.types Y Inv).Starts i g) ∧
      ∀ i p x, Inv i p x → i.toNat < m.init.toNat := by
  refine hlaid.annotation (fun Y p locals _ => Held (Y.chainAt p).vars locals)
    (fun Y p locals => Held (Y.scopeAt p).vars locals) rfl rfl fun g Y blocks hcode => ?_
  let K : Contract := { m.typing (m.linkage false).functions m.states.length with
    ret := g.ret, Check := fun p locals _ => Held (Y.chainAt p).vars locals, strict := !m.arrays,
    Here := fun p locals => Held (Y.scopeAt p).vars locals }
  have hK : Typing K (m.frameLinkage false g Y) Y.chainAt :=
    ⟨rfl, rfl, rfl, rfl, rfl, rfl, rfl, fun h => h, fun h => h, rfl,
      fun p _ hl v hv => hl v (hcode.scopeAt_subset p hv)⟩
  obtain ⟨I, hI, hstart⟩ := hcode.annotated (hK.laws rfl rfl) fun fresh hY _ hlay =>
    hK.begin_flows rfl hY hlay fun p hp locals hl => by
      show Held (Y.scopeAt p).vars locals
      rw [Layout.scopeAt, if_pos hp]
      exact fun v hv => hl v (append_nil Y.outer.vars ▸ hv)
  exact ⟨I, hI, fun args globals hargs hglobals => hstart _ ⟨args, hargs, rfl, rfl, hglobals⟩⟩

theorem Coded.initTyping (hcoded : m.Coded script false) :
    ∃ Inv g, Annotation.Valid ⟨m.typing [] 0, fun _ _ _ _ => True, false, Inv, fun _ _ _ => True⟩ m ∧
      m.function? m.init = some g ∧ ∀ locals globals mem,
        m.Admits globals →
        Inv m.init 0 ⟨locals, [], globals, mem⟩ := by
  let K : Contract :=
    { m.typing [] 0 with ret := .void, Check := fun _ _ _ => True, strict := false }
  have hglobals : ∀ {n i : Nat} {ty : Ty}, ((m.linkage false).before n).globals[i]? = some ty →
      K.globals[i]? = some ty := by
    intro n i ty h
    have hi : i < n := by
      have := (List.getElem?_eq_some_iff.1 h).1
      simp only [Linkage.before, length_take] at this
      omega
    rwa [Linkage.before, getElem?_take_of_lt hi] at h
  have hcheck : K.Check = fun p locals _ =>
      Held (Chain.vars ((fun _ : Nat => ([] : Chain)) p)) locals := by
    funext p locals mem
    exact propext ⟨fun _ v hv => absurd hv not_mem_nil, fun _ => trivial⟩
  have hK : ∀ n, Typing K ((m.linkage false).before n) fun _ => [] := fun n =>
    ⟨rfl, rfl, rfl, hcheck, rfl, rfl, rfl, hglobals, nofun, rfl, fun _ _ _ => trivial⟩
  obtain ⟨Inv, g, hvalid, hg, hstart⟩ := hcoded.initAnnotation rfl rfl (Typing.initLaws hK rfl)
  refine ⟨Inv, g, hvalid, hg, fun locals globals mem hglobals => hstart _ ?_⟩
  exact ⟨hglobals, fun v hv => absurd hv not_mem_nil, .nil, nofun⟩

end Module

end EventScript
