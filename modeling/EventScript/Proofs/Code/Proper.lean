import EventScript.Proofs.Unwinding

/-!
# Proper code

What the instructions of compiled code refer to: slots of the frame, variables, constants,
functions, states and places of the code. They refer to nothing that is not there, and a jump goes
forward or to a checkpoint (`Op.Proper`).
-/

namespace EventScript

open List

/-! ## Instructions -/

def Op.target? : Op → Option UInt32
  | .jump target | .jumpIfFalse target | .jumpIfTrue target | .jumpIfNoStateChange target =>
    some target
  | _ => none

/-- How many there are of the things that instructions refer to. -/
structure Ranges where
  slots : Nat
  globals : Nat
  constants : Nat
  functions : Nat
  states : Nat
  /-- The length of the code. -/
  size : Nat

def VarRef.within (r : Ranges) : VarRef → Bool
  | .localVar slot => slot.toNat < r.slots
  | .globalVar index => index.toNat < r.globals

def Op.within (r : Ranges) : Op → Bool
  | .pushConst i => i.toNat < r.constants
  | .loadLocal slot | .storeLocal slot => (VarRef.localVar slot).within r
  | .loadGlobal i | .storeGlobal i => (VarRef.globalVar i).within r
  | .arraySet var | .memIncr var | .memDecr var => var.within r
  | .jump target | .jumpIfFalse target | .jumpIfTrue target | .jumpIfNoStateChange target =>
    target.toNat < r.size
  | .call i => i.toNat < r.functions
  | .callApi i => (ApiFunction.get? i).isSome
  | .setState i => i.toNat < r.states
  | _ => true

/-- The instruction refers to nothing that is not there. A jump from its place goes forward or to a
checkpoint. -/
structure Op.Proper (C : Nat → Prop) (r : Ranges) (pc : Nat) (op : Op) : Prop where
  within : op.within r = true
  jump : ∀ target, op.target? = some target → pc < target.toNat ∨ C target.toNat

/-- The instruction refers to nothing that is not there, and it is not a jump. -/
def Op.Steady (r : Ranges) (op : Op) : Prop := op.within r = true ∧ op.target? = none

section

variable {op : Op}

theorem Op.Proper.steady (h : op.Steady r) : op.Proper C r pc :=
  ⟨h.1, fun _ ht => nomatch h.2.symm.trans ht⟩

theorem Op.Proper.of_target (hop : op.target? = some target)
    (hlt : target.toNat < r.size) (h : pc < target.toNat ∨ C target.toNat) : op.Proper C r pc := by
  refine ⟨?_, fun t ht => ?_⟩
  · cases op <;> cases hop <;> exact decide_eq_true hlt
  rw [hop] at ht
  cases ht
  exact h

theorem Op.target_lt (h : op.within r = true) (hop : op.target? = some target) :
    target.toNat < r.size := by
  cases op <;> cases hop <;> exact of_decide_eq_true h

theorem VarRef.steady_loadOp {var : VarRef} (h : var.within r = true) : var.loadOp.Steady r := by
  cases var <;> exact ⟨h, rfl⟩

theorem VarRef.steady_storeOp {var : VarRef} (h : var.within r = true) :
    var.storeOp.Steady r := by cases var <;> exact ⟨h, rfl⟩

end

namespace Compile

/-! ## Code at a place -/

def Each (P : Nat → Op → Prop) : (pc : Nat) → List Op → Prop
  | _, [] => True
  | pc, op :: code => P pc op ∧ Each P (pc + 1) code

theorem each_append : Each P pc (a ++ b) ↔ Each P pc a ∧ Each P (pc + a.length) b := by
  induction a generalizing pc with
  | nil => simp [Each]
  | cons op a ih =>
    simp only [cons_append, Each, ih, length_cons, and_assoc]
    rw [Nat.add_right_comm, Nat.add_assoc pc]

theorem each_iff : Each P pc code ↔ ∀ k op, code[k]? = some op → P (pc + k) op := by
  induction code generalizing pc with
  | nil => simp [Each]
  | cons op code ih =>
    simp only [Each, ih]
    constructor
    · rintro ⟨hop, hrest⟩ k op' hk
      cases k with
      | zero => cases hk; exact hop
      | succ k =>
        have := hrest k op' hk
        rwa [Nat.add_right_comm] at this
    · intro h
      refine ⟨h 0 op rfl, fun k op' hk => ?_⟩
      have := h (k + 1) op' hk
      rwa [← Nat.add_assoc, Nat.add_right_comm] at this

theorem Each.of_forall (h : ∀ op ∈ code, ∀ pc, P pc op) : Each P pc code :=
  each_iff.2 fun k op hk => h op (mem_of_getElem? hk) (pc + k)

/-- Places where there are checkpoints. -/
def Checks (C : Nat → Prop) : (pc : Nat) → List Op → Prop := Each fun pc op => op = .checkRun → C pc

/-! ## Pieces of code -/

structure Linkage.Within (Γ : Linkage) (r : Ranges) : Prop where
  slots : Γ.slots ≤ r.slots
  globals : Γ.globals.length ≤ r.globals
  constants : Γ.constants.length ≤ r.constants
  functions : Γ.functions.length ≤ r.functions
  states : Γ.states ≤ r.states

theorem Linkage.Within.before {Γ : Linkage} (h : Γ.Within r) (i : Nat) : (Γ.before i).Within r where
  slots := h.slots
  globals := (length_take_le' _ _).trans h.globals
  constants := h.constants
  functions := Nat.zero_le _
  states := h.states

/-- What a linkage gives access to, for code of some length. -/
def Linkage.ranges (Γ : Linkage) (size : Nat) : Ranges where
  slots := Γ.slots
  globals := Γ.globals.length
  constants := Γ.constants.length
  functions := Γ.functions.length
  states := Γ.states
  size

theorem Linkage.within_ranges (Γ : Linkage) (size : Nat) : Γ.Within (Γ.ranges size) :=
  ⟨le_rfl, le_rfl, le_rfl, le_rfl, le_rfl⟩

variable {Γ : Linkage}

theorem each_of_steady (h : ∀ op ∈ code, op.Steady r) : Each (Op.Proper C r) pc code :=
  .of_forall fun op hop _ => .steady (h op hop)

theorem Linkage.Within.slot (h : Γ.Within r) {slot : UInt16} (hslot : slot.toNat < Γ.slots) :
    (VarRef.localVar slot).within r = true := decide_eq_true (Nat.lt_of_lt_of_le hslot h.slots)

theorem Linkage.Within.var (h : Γ.Within r) (hχ : Γ.Bounds χ) {var : VarRef}
    (hvar : Γ.HasVar χ fresh var ty) : var.within r = true := by
  cases var with
  | localVar slot => exact h.slot (hχ _ hvar.1)
  | globalVar index =>
    exact decide_eq_true (Nat.lt_of_lt_of_le (List.getElem?_eq_some_iff.1 hvar).1 h.globals)

theorem Each.within (h : Each (Op.Proper C r) pc code) : ∀ op ∈ code, op.within r = true := by
  intro op hop
  obtain ⟨k, hk⟩ := mem_iff_getElem?.1 hop
  exact (each_iff.1 h k op hk).within

theorem steady_storeOps (h : var.within r = true) : ∀ op ∈ storeOps var ty, op.Steady r :=
  forall_mem_storeOps (VarRef.steady_storeOp h) ⟨h, rfl⟩ ⟨h, rfl⟩

theorem Linkage.Within.decr (h : Γ.Within r) (hχ : Γ.Bounds χ) :
    ∀ region ∈ χ, ∀ slot ∈ region.dynamicSlots, (Op.memDecr (.localVar slot)).Steady r :=
  fun _ hregion slot hslot => ⟨h.slot (dynamicSlots_lt (hχ.region hregion) slot hslot), rfl⟩

theorem steady_returnOps (h : Γ.Within r) (hχ : Γ.Bounds χ) : ∀ op ∈ returnOps Γ χ, op.Steady r :=
  forall_mem_append.2 ⟨forall_mem_leaveFrameOps (fun _ => ⟨rfl, rfl⟩) (h.decr hχ),
    forall_mem_singleton.2 ⟨rfl, rfl⟩⟩

theorem steady_returnDefaultOps (h : Γ.Within r) (hχ : Γ.Bounds χ) :
    ∀ op ∈ returnDefaultOps Γ χ, op.Steady r :=
  forall_mem_append.2 ⟨forall_mem_ite ⟨rfl, rfl⟩, steady_returnOps h hχ⟩

theorem steady_initOps (h : Γ.Within r)
    (hvars : ∀ v ∈ vars, v.slot.toNat < Γ.slots) : ∀ op ∈ initOps vars, op.Steady r :=
  forall_mem_initOps (fun _ => ⟨rfl, rfl⟩) fun v hv => ⟨h.slot (hvars v hv), rfl⟩

theorem Plain.steady (hp : Plain Γ χ fresh op S S') (h : Γ.Within r)
    (hχ : Γ.Bounds χ) : op.Steady r := by
  cases hp with
  | const hi =>
    exact ⟨decide_eq_true (Nat.lt_of_lt_of_le (List.getElem?_eq_some_iff.1 hi).1 h.constants), rfl⟩
  | load hvar => exact VarRef.steady_loadOp (h.var hχ hvar)
  | callApi _ hf => exact ⟨Option.isSome_iff_exists.2 ⟨_, hf⟩, rfl⟩
  | _ => exact ⟨rfl, rfl⟩

/-! ## Generated code -/

theorem Straight.proper (hs : Straight Γ χ fresh pc code S S') (h : Γ.Within r)
    (hχ : Γ.Bounds χ) (hsize : pc + code.length < r.size) : Each (Op.Proper C r) pc code := by
  induction hs with
  | nil => trivial
  | append _ _ ih1 ih2 =>
    rw [length_append] at hsize
    exact each_append.2 ⟨ih1 (by omega), ih2 (by omega)⟩
  | plain hp => exact ⟨.steady (hp.steady h hχ), trivial⟩
  | store hvar => exact each_of_steady (steady_storeOps (h.var hχ hvar))
  | component hvar _ hk =>
    have hvar := h.var hχ hvar
    have hk := h.slot hk.1
    exact each_of_steady (forall_mem_componentOps (steady_storeOps hvar) (VarRef.steady_loadOp hvar)
      ⟨hk, rfl⟩ ⟨hk, rfl⟩ ⟨rfl, rfl⟩)
  | arraySet _ hvar => exact ⟨.steady ⟨h.var hχ hvar, rfl⟩, trivial⟩
  | call hf htarget =>
    simp only [length_cons] at hsize
    refine ⟨.steady ⟨?_, rfl⟩, .of_target rfl (by omega) (.inl (by omega)),
      each_of_steady (steady_returnDefaultOps h hχ)⟩
    exact decide_eq_true (Nat.lt_of_lt_of_le (List.getElem?_eq_some_iff.1 hf).1 h.functions)
  | spill _ hk | reload _ hk => exact ⟨.steady ⟨h.slot hk.1, rfl⟩, trivial⟩

/-- The labels are places of the code, and those that need checkpoints have them. -/
def Labels.Found (Λ : Labels) (C : Nat → Prop) (r : Ranges) : Prop :=
  ∀ name, Λ.blockOf name ≠ none → ∃ place, Λ.mark name = some place ∧ place < r.size ∧
    (Λ.checked name = true → C place)

/-- The instructions of code are proper if all labels are found. Its own labels are places of the
code or its end, and have the checkpoints that they need. -/
structure Sited (C : Nat → Prop) (r : Ranges) (Λ : Labels) (pc : Nat) (code : List Op)
    (l : List Site) : Prop where
  proper : Λ.Found C r → Checks C pc code → pc + code.length < r.size →
    Each (Op.Proper C r) pc code
  site : Checks C pc code → ∀ site ∈ l, site.pc ≤ pc + code.length ∧
    (Λ.checked site.name = true → C site.pc)

namespace Sited

theorem steady (h : ∀ op ∈ code, op.Steady r) : Sited C r Λ pc code [] :=
  ⟨fun _ _ _ => each_of_steady h, nofun⟩

theorem append (h1 : Sited C r Λ pc a l1) (h2 : Sited C r Λ (pc + a.length) b l2) :
    Sited C r Λ pc (a ++ b) (l1 ++ l2) where
  proper hΛ hC hsize := by
    obtain ⟨hC1, hC2⟩ := each_append.1 hC
    rw [length_append] at hsize
    exact each_append.2 ⟨h1.proper hΛ hC1 (by omega), h2.proper hΛ hC2 (by omega)⟩
  site hC := by
    obtain ⟨hC1, hC2⟩ := each_append.1 hC
    rw [length_append, ← Nat.add_assoc]
    exact forall_mem_append.2 ⟨fun site hsite => (h1.site hC1 site hsite).imp_left (by omega),
      h2.site hC2⟩

theorem last (h1 : Sited C r Λ pc a l) (h2 : Sited C r Λ (pc + a.length) b []) :
    Sited C r Λ pc (a ++ b) l := append_nil l ▸ h1.append h2

theorem cons {op : Op} (hop : pc + 1 + code.length < r.size → op.Proper C r pc)
    (h : (op = .checkRun → C pc) → Sited C r Λ (pc + 1) code l) : Sited C r Λ pc (op :: code) l := by
  have hlength : pc + (op :: code).length = pc + 1 + code.length := by rw [length_cons]; omega
  constructor <;> rw [hlength]
  · exact fun hΛ hC hsize => ⟨hop hsize, (h hC.1).proper hΛ hC.2 hsize⟩
  · exact fun hC => (h hC.1).site hC.2

theorem back {op : Op} (hop : op.target? = some target) (hle : target.toNat ≤ pc)
    (hto : C target.toNat) : Sited C r Λ pc [op] [] :=
  .cons (fun hsize => .of_target hop (by omega) (.inr hto)) fun _ => .steady nofun

end Sited

theorem Straight.sited (hs : Straight Γ χ fresh pc code S S') (h : Γ.Within r)
    (hχ : Γ.Bounds χ) : Sited C r Λ pc code [] := ⟨fun _ _ => hs.proper h hχ, nofun⟩

theorem Structured.sited (hs : Structured Γ Λ χ fresh pc code fresh' o l) (h : Γ.Within r)
    (hχ : Γ.Bounds χ) (hfresh : ∀ v ∈ fresh, v.slot.toNat < Γ.slots) : Sited C r Λ pc code l := by
  induction hs with
  | nil | declareDefault => exact .steady nofun
  | append hs1 _ ih1 ih2 =>
    exact (ih1 hχ hfresh).append (ih2 hχ fun v hv => hfresh v (hs1.sublist.subset hv))
  | straight hs => exact hs.sited h hχ
  | declare hs =>
    have hv := h.slot (hfresh _ mem_cons_self)
    exact (hs.sited h hχ).append
      (.steady (forall_mem_cons.2 ⟨⟨hv, rfl⟩, forall_mem_ite ⟨hv, rfl⟩⟩))
  | block region _ hregion hsub _ ih =>
    have hχ' : Γ.Bounds (region :: _) := fun v hv =>
      (mem_append.1 hv).elim (fun hv => (hregion.spare v hv).1) (hχ v)
    have hvars := hχ'.region mem_cons_self
    have henter : ∀ op ∈ region.enterOps, op.Steady r :=
      forall_mem_append.2 ⟨forall_mem_ite ⟨rfl, rfl⟩, steady_initOps h hvars⟩
    exact ((Sited.steady henter).append (ih hχ' fun v hv => hvars v (hsub.subset hv))).last
      (.steady (forall_mem_leaveOps (fun _ => ⟨rfl, rfl⟩) (h.decr hχ' region mem_cons_self)))
  | ifThen hs _ htarget ih =>
    exact (hs.sited h hχ).append (.cons (fun _ => .of_target rfl (by omega) (.inl (by omega)))
      fun _ => ih hχ nofun)
  | ifElse hs _ _ hmiddle htarget ih1 ih2 =>
    refine (hs.sited h hχ).append (.cons (fun hsize => ?_) fun _ => (ih1 hχ nofun).append (.cons
      (fun _ => .of_target rfl (by omega) (.inl (by omega))) fun _ => ih2 hχ nofun))
    simp only [length_append, length_cons] at hsize
    exact .of_target rfl (by omega) (.inl (by omega))
  | loop hs _ htop htarget ih =>
    refine .cons (fun _ => .steady ⟨rfl, rfl⟩) fun hC => (hs.sited h hχ).append (.cons
      (fun hsize => ?_) fun _ => (ih hχ nofun).last (.back rfl (by omega) (htop ▸ hC rfl)))
    simp only [length_append, length_cons] at hsize
    exact .of_target rfl (by omega) (.inl (by omega))
  | forever _ htop ih =>
    exact .cons (fun _ => .steady ⟨rfl, rfl⟩) fun hC =>
      (ih hχ nofun).last (.back rfl (by omega) (htop ▸ hC rfl))
  | doWhile _ hs htop ih =>
    exact .cons (fun _ => .steady ⟨rfl, rfl⟩) fun hC => (ih hχ nofun).last
      ((hs.sited h hχ).append (.back rfl (by omega) (htop ▸ hC rfl)))
  | label _ _ _ =>
    refine ⟨fun _ _ _ => each_of_steady (forall_mem_ite ⟨rfl, rfl⟩), fun hC => ?_⟩
    refine forall_mem_singleton.2 ⟨Nat.le_add_right _ _, fun hchecked => ?_⟩
    rw [if_pos hchecked] at hC
    exact hC.1 rfl
  | @jump χ left rest region name pc t hleft _ hname hmark =>
    refine ⟨fun hΛ _ _ => ?_, nofun⟩
    obtain ⟨place, hplace, hlt, hC⟩ := hΛ name hname
    obtain ⟨rfl, hback⟩ := hmark place hplace
    have hbounds : Γ.Bounds left := fun v hv => hχ v (by
      rw [hleft, Chain.vars, flatMap_append]
      exact mem_append_left _ hv)
    refine each_append.2 ⟨each_of_steady (forall_mem_flatMap_leaveOps (fun _ => ⟨rfl, rfl⟩)
      (h.decr hbounds)), .of_target rfl hlt ?_, trivial⟩
    -- a label before the jump has a checkpoint
    by_cases hle : t.toNat ≤ pc + (left.flatMap Region.leaveOps).length
    · exact .inr (hC (hback hle))
    · exact .inl (Nat.lt_of_not_le hle)
  | ret hs => exact (hs.sited h hχ).append (.steady (steady_returnOps h hχ))
  | state hi =>
    exact .steady (forall_mem_cons.2 ⟨⟨decide_eq_true (Nat.lt_of_lt_of_le hi h.states), rfl⟩,
      steady_returnDefaultOps h hχ⟩)

theorem getLast?_returnDefaultOps (Γ : Linkage) (χ : Chain) :
    (returnDefaultOps Γ χ).getLast? = some .ret := by
  rw [returnDefaultOps, returnOps, ← append_assoc, getLast?_append]
  rfl

theorem FunctionCode.proper (hf : FunctionCode Γ params blocks Y code) (h : Γ.Within r)
    (hsize : code.length = r.size) (hC : Checks C 0 code) : Each (Op.Proper C r) 0 code := by
  obtain @⟨Λ, id, fresh, code, l, hstatic, -, -, houter, hparams, hslots, -, hbody, hfresh, hcode,
    -, -, hsites⟩ := hf
  have hfits := (Layout.Frames.mk hstatic houter hbody hparams hslots).fits hfresh
  have hbounds : Γ.Bounds Y.frame := hfits.below
  have hlast := length_pos_of_mem (mem_of_getLast? (getLast?_returnDefaultOps Γ Y.frame))
  obtain ⟨hC, -⟩ := each_append.1 hC
  obtain ⟨-, hC⟩ := each_append.1 hC
  rw [Nat.zero_add] at hC
  simp only [length_append] at hsize
  refine each_append.2 ⟨each_append.2 ⟨each_of_steady ?_, ?_⟩,
    each_of_steady (steady_returnDefaultOps h hbounds)⟩
  · refine forall_mem_append.2 ⟨forall_mem_append.2 ⟨forall_mem_cons.2 ⟨⟨rfl, rfl⟩, ?_⟩,
      steady_initOps h fun v hv => (hbody.spare v hv).1⟩, forall_mem_singleton.2 ⟨rfl, rfl⟩⟩
    exact forall_mem_map.2 fun slot hslot =>
      ⟨h.slot (dynamicSlots_lt (fun v hv => (houter.spare v hv).1) slot hslot), rfl⟩
  · rw [Nat.zero_add]
    have hsited : Sited C r Λ _ code l :=
      hcode.sited h hbounds fun v hv => (hbody.spare v (hfresh.subset hv)).1
    refine hsited.proper (fun name hname => ?_) hC (by omega)
    obtain ⟨b, hb⟩ := Option.ne_none_iff_exists'.1 hname
    obtain ⟨site, hsite, rfl, hmark⟩ := hsites name b hb
    obtain ⟨hle, hchecked⟩ := hsited.site hC site hsite
    exact ⟨site.pc, hmark, by omega, hchecked⟩

theorem InitCode.proper {i : Nat} (hi : InitCode Γ i pc code) (h : Γ.Within r)
    (hsize : pc + code.length ≤ r.size) : Each (Op.Proper C r) pc code := by
  induction hi with
  | nil => exact ⟨.steady ⟨rfl, rfl⟩, trivial⟩
  | @cons i pc ty index value rest hty hindex hvalue _ ih =>
    have hglobal : (VarRef.globalVar index).within r = true := by
      have hlt := (List.getElem?_eq_some_iff.1 hty).1
      exact decide_eq_true (by rw [hindex]; exact Nat.lt_of_lt_of_le hlt h.globals)
    simp only [length_append, length_cons] at hsize
    refine each_append.2 ⟨⟨.steady ⟨rfl, rfl⟩, each_append.2 ⟨hvalue.proper (h.before i) nofun
      (by omega), .steady ⟨hglobal, rfl⟩, each_of_steady (forall_mem_ite ⟨hglobal, rfl⟩)⟩⟩, ih ?_⟩
    simp only [length_append, length_cons]
    omega

end Compile

end EventScript
