import EventScript.Proofs.Code.Assertions
import EventScript.Proofs.Code.Structured

/-!
# Assertions for structured code

`FunctionCode.annotated`: a function has assertions that hold together (`Annotated`) as soon as a few
laws hold of an assertion about the variables in scope. The laws are about single instructions and
short pieces of code (`StraightLaws`, `Laws`); branches, loops, blocks and jumps are dealt with here,
once for all assertions.

The assertion `A χ fresh S` is about a state inside the regions `χ`, where the variables `fresh` have
not been declared and the operands have the types `S`.
-/

namespace EventScript.Compile

open List

/-- The variables in scope have slots of their own; the `fresh` ones are among them. -/
structure Linkage.Fits (Γ : Linkage) (χ : Chain) (fresh : List LocalVar) : Prop where
  nodup : (χ.vars.map LocalVar.slot).Nodup
  below : ∀ v ∈ χ.vars, v.slot.toNat < Γ.slots
  allowed : ∀ v ∈ χ.vars, v.ty.Allowed Γ.core
  fresh : fresh.Sublist χ.vars

def Linkage.Framed (Γ : Linkage) (χ : Chain) : Prop :=
  ∃ inner body outer, χ = inner ++ [body, outer] ∧
    Γ.frameStatic = frameSize + body.staticSize + outer.staticSize

def noLabels : Nat → Local → Prop := fun _ _ => False

/-- Code that is only entered at its start and left at its end. -/
abbrev Through (K : Contract) (pc : Nat) (code : List Op) (P Q : Local → Prop) : Prop :=
  Flows K noLabels pc code P Q []

/-- The code keeps the assertion. -/
abbrev Stays (K : Contract) (pc : Nat) (code : List Op) (P : Local → Prop) : Prop :=
  Through K pc code P P

def Over (pc : Nat) (ops : List Op) (G : Nat → Prop) : Prop := ∀ p, pc ≤ p → p < pc + ops.length → G p

namespace Over

variable {G : Nat → Prop}

theorem head (h : Over pc (op :: ops) G) : G pc := h pc le_rfl (by rw [length_cons]; omega)

theorem left (h : Over pc (a ++ b) G) : Over pc a G := fun p h1 h2 =>
  h p h1 (by rw [length_append]; omega)

theorem right (h : Over pc (a ++ b) G) : Over (pc + a.length) b G := fun p h1 h2 =>
  h p (by omega) (by rw [length_append]; omega)

end Over

/-- The variables in scope at the places of the code are among those of some regions. -/
abbrev Within (lay : Nat → Chain) (χ : Chain) (pc : Nat) (ops : List Op) : Prop :=
  Over pc ops fun p => (lay p).vars ⊆ χ.vars

theorem subset_of_lay {lay : Nat → Chain} (h : lay pc = χ) : (lay pc).vars ⊆ χ.vars :=
  h ▸ Subset.refl _

theorem Over.within {lay : Nat → Chain} (h : Over pc ops (lay · = χ)) : Within lay χ pc ops :=
  fun p h1 h2 => subset_of_lay (h p h1 h2)

/-- An assertion about the variables in scope, those of them that have not been declared, and the
types of the operands. -/
abbrev Family := Chain → List LocalVar → List Ty → Local → Prop

/-- What an assertion is to satisfy for straight code; `lay` has the regions around a place. -/
structure StraightLaws (K : Contract) (Γ : Linkage) (lay : Nat → Chain) (A : Family) : Prop where
  plain {pc : Nat} {x : Local}
    {I : Nat → Local → Prop} : Γ.Fits χ fresh → lay pc = χ → Plain Γ χ fresh op S S' → A χ fresh S x →
    (∀ y, A χ fresh S' y → I (pc + 1) y) → Wp K op pc x I
  store {pc : Nat} : Γ.Fits χ fresh → Within lay χ pc (storeOps var ty) →
    Γ.HasVar χ fresh var ty → Through K pc (storeOps var ty) (A χ fresh (ty :: S)) (A χ fresh S)
  component {pc : Nat} : Γ.Fits χ fresh → Within lay χ pc (componentOps var ty c k) →
    Γ.HasVar χ fresh var ty → ty.HasComponent c → Γ.Spare χ k →
    Stays K pc (componentOps var ty c k) (A χ fresh (.float :: S))
  arraySet {pc : Nat} : Γ.Fits χ fresh → (lay pc).vars ⊆ χ.vars → Γ.core = false →
    Γ.HasVar χ fresh var .array →
    Through K pc [.arraySet var] (A χ fresh (t :: k :: S)) (A χ fresh (t :: S))
  call {params : List Ty} {ret : Ty} {S : List Ty}
    {pc : Nat} {x : Local} {I : Nat → Local → Prop} : Γ.Fits χ fresh → lay pc = χ →
    Γ.functions[i.toNat]? = some (params, ret) → A χ fresh (params.reverse ++ S) x →
    (∀ y, A χ fresh (returned ret S) y → I (pc + 1) y) → Wp K (.call i) pc x I
  spill {pc : Nat} : Γ.Fits χ fresh → (lay pc).vars ⊆ χ.vars → Γ.core = false → Γ.Spare χ k →
    Through K pc [.storeLocal k] (A χ fresh (t :: S)) (A χ fresh S)
  reload {pc : Nat} : Γ.Fits χ fresh → (lay pc).vars ⊆ χ.vars → Γ.core = false → Γ.Spare χ k →
    Through K pc [.loadLocal k] (A χ fresh S) (A χ fresh (.object :: S))
  ret {pc : Nat} : Γ.Fits χ fresh → Within lay χ pc (returnOps Γ χ) → Γ.Framed χ →
    Through K pc (returnOps Γ χ) (A χ fresh (returned Γ.ret S)) (fun _ => False)
  stands {pc : Nat} : (lay pc).vars ⊆ χ.vars → A χ fresh S x → x.Stands K pc

abbrev declareOps (v : LocalVar) : List Op :=
  .storeLocal v.slot :: if v.ty.hasDynamicSize then [.memIncr (.localVar v.slot)] else []

/-- What an assertion is to satisfy for structured code. -/
structure Laws (K : Contract) (Γ : Linkage) (lay : Nat → Chain) (A : Family) : Prop
    extends StraightLaws K Γ lay A where
  pop : A χ fresh (t :: S) x → (K.strict = true → x.operands ≠ []) ∧
      ∀ v rest, x.operands = v :: rest → A χ fresh S { x with operands := rest }
  declare : Γ.Fits χ (v :: fresh) → Within lay χ pc (declareOps v) →
    Through K pc (declareOps v) (A χ (v :: fresh) [v.ty]) (A χ fresh [])
  skip : A χ (v :: fresh) [] x → A χ fresh [] x
  enter {pc : Nat} : Γ.Fits χ [] → Within lay χ pc r.enterOps → Γ.NewRegion χ r →
    fresh.Sublist r.vars → Through K pc r.enterOps (A χ [] []) (A (r :: χ) fresh [])
  leave {χ : Chain} {r : Region} {pc : Nat} : Γ.Fits (r :: χ) [] →
    Within lay (r :: χ) pc r.leaveOps → Through K pc r.leaveOps (A (r :: χ) [] []) (A χ [] [])
  jump {left rest : Chain} {target : UInt32} {pc : Nat} {L : Nat → Local → Prop} :
    Γ.Fits (left ++ rest) [] →
    Within lay (left ++ rest) pc (left.flatMap Region.leaveOps ++ [.jump target]) →
    (∀ x, A rest [] [] x → L target.toNat x) →
    Flows K L pc (left.flatMap Region.leaveOps ++ [.jump target]) (A (left ++ rest) [] [])
      (fun _ => False) []
  states : Γ.states = K.states
  library : Γ.library = true

section

variable {Γ : Linkage} {χ : Chain}
  {fresh : List LocalVar}

abbrev withLabel (L : Nat → Local → Prop) (q : Nat) (R : Local → Prop) : Nat → Local → Prop :=
  fun p y => L p y ∨ p = q ∧ R y

/-! ## Straight code -/

section

variable (laws : StraightLaws K Γ lay A) (hret : Γ.ret = .void ∨ Γ.ret.Allowed Γ.core)
  (hfits : Γ.Fits χ fresh) (hframed : Γ.Framed χ)

include laws hret hfits hframed

theorem returnDefault_flows (hlay : Over pc (returnDefaultOps Γ χ) (lay · = χ)) :
    Through K pc (returnDefaultOps Γ χ) (A χ fresh S) (fun _ => False) := by
  unfold returnDefaultOps at hlay ⊢
  by_cases hv : Γ.ret = .void
  · rw [if_neg (not_not.2 hv)] at hlay ⊢
    have hflows : Through K pc (returnOps Γ χ) (A χ fresh (returned Γ.ret S)) (fun _ => False) :=
      laws.ret hfits hlay.within hframed
    rwa [returned, if_pos hv] at hflows
  · rw [if_pos hv] at hlay ⊢
    have hflows : Through K (pc + 1) (returnOps Γ χ) (A χ fresh (returned Γ.ret S))
      (fun _ => False) := laws.ret hfits hlay.right.within hframed
    rw [returned, if_neg hv] at hflows
    have hpush : Through K pc [.pushDefault Γ.ret] (A χ fresh S) (A χ fresh (Γ.ret :: S)) :=
      .op fun x I hx hI _ => laws.plain hfits hlay.head (.default (hret.resolve_left hv)) hx hI
    exact hpush.append hflows

theorem call_flows (hf : Γ.functions[i.toNat]? = some (params, ret))
    (htarget : target.toNat = pc + 2 + (returnDefaultOps Γ χ).length)
    (hlay : Over pc (.call i :: .jumpIfNoStateChange target :: returnDefaultOps Γ χ) (lay · = χ)) :
    Through K pc (.call i :: .jumpIfNoStateChange target :: returnDefaultOps Γ χ)
      (A χ fresh (params.reverse ++ S)) (A χ fresh (returned ret S)) := by
  let L' := withLabel noLabels target.toNat (A χ fresh (returned ret S))
  have hcall : Flows K L' pc [.call i] (A χ fresh (params.reverse ++ S))
    (A χ fresh (returned ret S)) [] :=
    .op fun x I hx hI _ => laws.call hfits hlay.head hf hx hI
  have hrest : Over (pc + 1) (.jumpIfNoStateChange target :: returnDefaultOps Γ χ) (lay · = χ) :=
    hlay.right (a := [_])
  have hfork : Flows K L' (pc + 1) [.jumpIfNoStateChange target] (A χ fresh (returned ret S))
      (A χ fresh (returned ret S)) [] :=
    .op fun x I hx hI hL => ⟨laws.stands (subset_of_lay hrest.head) hx,
      (fun _ _ hg => nomatch hg), hI x hx, hL _ _ (.inr ⟨rfl, hx⟩)⟩
  have hend : Flows K L' (pc + 1 + 1) (returnDefaultOps Γ χ) (A χ fresh (returned ret S))
      (A χ fresh (returned ret S)) [] :=
    ((returnDefault_flows laws hret hfits hframed (hrest.right (a := [_]))).labels nofun).mono
      (fun _ => id) nofun
  refine .resolve (hcall.append (hfork.append hend)) (.inl ⟨?_, fun _ => id⟩)
  simp only [length_cons]
  omega

end

theorem flows_of_straight (laws : StraightLaws K Γ lay A)
    (h : Straight Γ χ fresh pc code S S') (hfits : Γ.Fits χ fresh)
    (hcalls : Γ.functions ≠ [] → Γ.Framed χ ∧ (Γ.ret = .void ∨ Γ.ret.Allowed Γ.core))
    (hlay : Over pc code (lay · = χ)) : Through K pc code (A χ fresh S) (A χ fresh S') := by
  induction h with
  | nil => exact .nil fun _ => id
  | append _ _ ih1 ih2 => exact .append (ih1 hlay.left) (ih2 hlay.right)
  | plain hp => exact .op fun x I hx hI _ => laws.plain hfits hlay.head hp hx hI
  | store hv => exact laws.store hfits hlay.within hv
  | component hv hc hk => exact laws.component hfits hlay.within hv hc hk
  | arraySet hcore hv => exact laws.arraySet hfits (subset_of_lay hlay.head) hcore hv
  | call hf htarget =>
    obtain ⟨hframed, hret⟩ := hcalls fun hnil => by rw [hnil] at hf; cases hf
    exact call_flows laws hret hfits hframed hf htarget hlay
  | spill hcore hk => exact laws.spill hfits (subset_of_lay hlay.head) hcore hk
  | reload hcore hk => exact laws.reload hfits (subset_of_lay hlay.head) hcore hk

/-! ## Blocks in code -/

variable {o : List Extent}

section

variable (h : Structured Γ Λ χ fresh pc code fresh' o l)

include h

theorem Structured.bounds :
    ∀ e ∈ o, pc ≤ e.start ∧ e.stop ≤ pc + code.length := by
  induction h with
  | nil | straight | declare | declareDefault | label | jump | ret | state => exact nofun
  | append _ _ ih1 ih2 =>
    intro e he
    rw [length_append]
    rcases mem_append.1 he with he | he
    · have := ih1 e he; omega
    · have := ih2 e he; omega
  | block r _ _ _ _ ih =>
    intro e he
    simp only [length_append]
    rcases mem_cons.1 he with rfl | he
    · dsimp only; omega
    · have := ih e he; omega
  | ifThen _ _ _ ih =>
    intro e he
    have := ih e he
    simp only [length_append, length_cons]
    omega
  | ifElse _ _ _ _ _ ih1 ih2 =>
    intro e he
    simp only [length_append, length_cons]
    rcases mem_append.1 he with he | he
    · have := ih1 e he; omega
    · have := ih2 e he; omega
  | loop _ _ _ _ ih =>
    intro e he
    have := ih e he
    simp only [length_append, length_cons]
    omega
  | forever _ _ ih =>
    intro e he
    have := ih e he
    simp only [length_append, length_cons]
    omega
  | doWhile _ _ _ ih =>
    intro e he
    have := ih e he
    simp only [length_append, length_cons]
    omega

/-- A place before or after the code is in none of its blocks. -/
theorem Structured.outside (hp : p < pc ∨ pc + code.length ≤ p) :
    ∀ e ∈ o, p < e.start ∨ e.stop ≤ p := by
  intro e he
  have := h.bounds e he
  omega

theorem Structured.sublist :
    fresh'.Sublist fresh := by
  induction h with
  | append _ _ ih1 ih2 => exact ih2.trans ih1
  | declare | declareDefault => exact sublist_cons_self _ _
  | _ => exact .refl _

end

theorem filter_outside (h : ∀ e ∈ o, p < e.start ∨ e.stop ≤ p) :
    o.filter (fun e => decide (e.start ≤ p ∧ p < e.stop)) = [] := by
  refine filter_eq_nil_iff.2 fun e he => ?_
  have := h e he
  simp only [decide_eq_true_eq]
  omega

theorem openAt_append_left (h : ∀ e ∈ o2, p < e.start ∨ e.stop ≤ p) :
    openAt (o1 ++ o2) χ p = openAt o1 χ p := by
  unfold openAt
  rw [filter_append, filter_outside h, append_nil]

theorem openAt_append_right (h : ∀ e ∈ o1, p < e.start ∨ e.stop ≤ p) :
    openAt (o1 ++ o2) χ p = openAt o2 χ p := by
  unfold openAt
  rw [filter_append, filter_outside h, nil_append]

theorem openAt_cons (h : e.start ≤ p ∧ p < e.stop) : openAt (e :: o) χ p = openAt o e.chain p := by
  unfold openAt
  rw [filter_cons_of_pos (by simpa using h), getLast?_cons]
  cases (o.filter fun e => decide (e.start ≤ p ∧ p < e.stop)).getLast? <;> rfl

theorem openAt_outside (h : ∀ e ∈ o, p < e.start ∨ e.stop ≤ p) : openAt o χ p = χ := by
  unfold openAt
  rw [filter_outside h]
  rfl

/-- Places around the only structured code have the regions around it. -/
theorem Structured.around {lay : Nat → Chain} (h : Structured Γ Λ χ' fresh q code fresh' o l)
    (hlay : ∀ p, pc ≤ p → p < pc + n → lay p = openAt o χ p) (hp : pc ≤ p) (hp' : p < pc + n)
    (hq : p < q ∨ q + code.length ≤ p) : lay p = χ :=
  (hlay p hp hp').trans (openAt_outside (h.outside hq))

theorem Structured.within {lay : Nat → Chain} (h : Structured Γ Λ χ' fresh q code fresh' o l)
    (hlay : ∀ p, pc ≤ p → p < pc + n → lay p = openAt o χ p) (hp : pc ≤ p) (hp' : p < pc + n)
    (hq : p < q ∨ q + code.length ≤ p) : (lay p).vars ⊆ χ.vars :=
  subset_of_lay (h.around hlay hp hp' hq)

/-! ## Branches and loops -/

variable {cond body other : List Op}

theorem jump_flows (hstands : ∀ x, P x → x.Stands K pc)
    (hL : ∀ x, P x → L target.toNat x) : Flows K L pc [.jump target] P (fun _ => False) [] :=
  .op fun x _ hx _ hI => ⟨hstands x hx, (fun _ _ hg => nomatch hg), hI _ _ (hL x hx)⟩

section

variable (laws : Laws K Γ lay A)

include laws

theorem test_flows (hin : (lay pc).vars ⊆ χ.vars)
    (hop : op = .jumpIfFalse target ∨ op = .jumpIfTrue target)
    (hL : ∀ x, A χ [] [] x → L target.toNat x) : Flows K L pc [op] (A χ [] [t]) (A χ [] []) [] := by
  refine .op fun x I hx hQ hI => ?_
  obtain ⟨hne, hrest⟩ := laws.pop hx
  have hboth : ∀ v rest, x.operands = v :: rest →
      I (pc + 1) { x with operands := rest } ∧ I target.toNat { x with operands := rest } :=
    fun v rest ho => ⟨hQ _ (hrest v rest ho), hI _ _ (hL _ (hrest v rest ho))⟩
  rcases hop with rfl | rfl
  · exact ⟨laws.stands hin hx, hne, hboth⟩
  · exact ⟨laws.stands hin hx, hne, hboth⟩

section

variable (hcond : Flows K L pc cond (A χ [] []) (A χ [] [t]) [])
  (hin : (lay (pc + cond.length)).vars ⊆ χ.vars)
  (hbody : Flows K L (pc + cond.length + 1) body (A χ [] []) (A χ [] []) e1)

include hcond hin hbody

theorem ifThen_flows (htarget : target.toNat = pc + cond.length + 1 + body.length) :
    Flows K L pc (cond ++ .jumpIfFalse target :: body) (A χ [] []) (A χ [] []) e1 := by
  refine .resolve (q := target.toNat) (R := A χ [] []) ?_ (.inl ⟨?_, fun _ => id⟩)
  · have htest : Flows K (withLabel L target.toNat (A χ [] [])) (pc + cond.length)
        [.jumpIfFalse target] (A χ [] [t]) (A χ [] []) [] :=
      test_flows laws hin (.inl rfl) fun x hx => .inr ⟨rfl, hx⟩
    exact (hcond.labels fun _ _ => .inl).append (htest.append (hbody.labels fun _ _ => .inl))
  · simp only [length_append, length_cons]
    omega

theorem ifElse_flows (hin' : (lay (pc + cond.length + 1 + body.length)).vars ⊆ χ.vars)
    (hother : Flows K L (pc + cond.length + 1 + body.length + 1) other (A χ [] []) (A χ [] []) e2)
    (hmiddle : middle.toNat = pc + cond.length + 1 + body.length + 1)
    (htarget : target.toNat = pc + cond.length + 1 + body.length + 1 + other.length) :
    Flows K L pc (cond ++ .jumpIfFalse middle :: (body ++ .jump target :: other)) (A χ [] [])
      (A χ [] []) (e1 ++ e2) := by
  let L' := withLabel (withLabel L middle.toNat (A χ [] [])) target.toNat (A χ [] [])
  have hL : ∀ p x, L p x → L' p x := fun _ _ h => .inl (.inl h)
  have htest : Flows K L' (pc + cond.length) [.jumpIfFalse middle] (A χ [] [t]) (A χ [] []) [] :=
    test_flows laws hin (.inl rfl) fun x hx => .inl (.inr ⟨rfl, hx⟩)
  have hjump : Flows K L' (pc + cond.length + 1 + body.length) [.jump target] (A χ [] [])
      (A χ [] []) [] :=
    (jump_flows (fun _ => laws.stands hin') fun x hx => .inr ⟨rfl, hx⟩).mono (fun _ => id) nofun
  have hall : Flows K L' pc (cond ++ .jumpIfFalse middle :: (body ++ .jump target :: other))
      (A χ [] []) (A χ [] []) (e1 ++ (middle.toNat, A χ [] []) :: e2) := by
    rw [hmiddle]
    exact (hcond.labels hL).append (htest.append ((hbody.labels hL).append
      (hjump.append (hother.labels hL).entry)))
  refine .subset (.resolve (.resolve hall (.inl ⟨?_, fun _ => id⟩)) (.inr ?_)) ?_
  · simp only [length_append, length_cons]
    omega
  · exact mem_append_right _ mem_cons_self
  · intro e he
    rcases mem_append.1 he with he | he
    · exact mem_append_left _ he
    · exact mem_append_right _ (mem_cons_of_mem _ he)

end

theorem checkRun_flows (hfits : Γ.Fits χ []) (hlay : lay pc = χ) :
    Flows K L pc [.checkRun] (A χ [] []) (A χ [] []) [] :=
  .op fun _ _ hx hI _ => laws.plain hfits hlay (.checkRun laws.library) hx hI

/-- Code after a checkpoint to which it can go back. -/
theorem again_flows (hfits : Γ.Fits χ []) (hlay : lay pc = χ)
    (h : Flows K (withLabel L pc (A χ [] [])) (pc + 1) code (A χ [] []) (A χ [] []) e1) :
    Flows K L pc (.checkRun :: code) (A χ [] []) (A χ [] []) e1 := by
  have hall := ((checkRun_flows laws hfits hlay).append h).entry
  exact .subset (.resolve hall (.inr mem_cons_self)) fun e he => mem_cons_of_mem _ he

theorem back_flows (hbody : Flows K L q body (A χ [] []) (A χ [] []) e1)
    (hin : (lay (q + body.length)).vars ⊆ χ.vars) (htop : top.toNat = pc) :
    Flows K (withLabel L pc (A χ [] [])) q (body ++ [.jump top])
      (A χ [] []) (A χ [] []) e1 := by
  have hjump : Flows K (withLabel L pc (A χ [] [])) (q + body.length) [.jump top] (A χ [] [])
      (A χ [] []) [] :=
    (jump_flows (fun _ => laws.stands hin) fun x hx => .inr ⟨htop, hx⟩).mono (fun _ => id) nofun
  exact ((hbody.labels fun _ _ => .inl).append hjump).subset fun e he => mem_append_left _ he

theorem loop_flows (hfits : Γ.Fits χ []) (hlay : lay pc = χ)
    (hcond : Flows K L (pc + 1) cond (A χ [] []) (A χ [] [t]) [])
    (hin : (lay (pc + 1 + cond.length)).vars ⊆ χ.vars)
    (hbody : Flows K L (pc + 1 + cond.length + 1) body (A χ [] []) (A χ [] []) e1)
    (hin' : (lay (pc + 1 + cond.length + 1 + body.length)).vars ⊆ χ.vars)
    (htop : top.toNat = pc) (htarget : target.toNat = pc + 1 + cond.length + 1 + body.length + 1) :
    Flows K L pc (.checkRun :: (cond ++ .jumpIfFalse target :: (body ++ [.jump top]))) (A χ [] [])
      (A χ [] []) e1 := by
  refine again_flows laws hfits hlay (ifThen_flows laws (hcond.labels fun _ _ => .inl) hin
    (back_flows laws hbody hin' htop) ?_)
  rw [htarget, length_append, length_singleton]
  omega

variable (hfits : Γ.Fits χ []) (hlay : lay pc = χ)
  (hbody : Flows K L (pc + 1) body (A χ [] []) (A χ [] []) e1)

include hfits hlay hbody

theorem forever_flows (hin : (lay (pc + 1 + body.length)).vars ⊆ χ.vars) (htop : top.toNat = pc) :
    Flows K L pc (.checkRun :: (body ++ [.jump top])) (A χ [] []) (A χ [] []) e1 :=
  again_flows laws hfits hlay (back_flows laws hbody hin htop)

theorem doWhile_flows (hcond : Flows K L (pc + 1 + body.length) cond (A χ [] []) (A χ [] [t]) [])
    (hin : (lay (pc + 1 + body.length + cond.length)).vars ⊆ χ.vars) (htop : top.toNat = pc) :
    Flows K L pc (.checkRun :: (body ++ (cond ++ [.jumpIfTrue top]))) (A χ [] []) (A χ [] []) e1 := by
  have htest : Flows K (withLabel L pc (A χ [] [])) (pc + 1 + body.length + cond.length)
      [.jumpIfTrue top] (A χ [] [t]) (A χ [] []) [] :=
    test_flows laws hin (.inr rfl) fun x hx => .inr ⟨htop, hx⟩
  refine again_flows laws hfits hlay (.subset ((hbody.labels fun _ _ => .inl).append
    ((hcond.labels fun _ _ => .inl).append htest)) fun e he => mem_append_left _ he)

end

/-! ## Structured code -/

/-- Regions are found again by the number of their block. -/
def Agrees (κ : Nat → Chain) (χ : Chain) : Prop :=
  ∀ left r rest b, χ = left ++ r :: rest → r.block = some b → κ b = r :: rest

def labelAssertion (Λ : Labels) (κ : Nat → Chain) (A : Family) (name : String) (x : Local) : Prop :=
  ∃ b, Λ.blockOf name = some b ∧ A (κ b) [] [] x

def atLabels (Λ : Labels) (κ : Nat → Chain) (A : Family) (p : Nat) (x : Local) : Prop :=
  ∃ name, Λ.mark name = some p ∧ labelAssertion Λ κ A name x

theorem Agrees.cons {id : Nat} (h : Agrees κ χ) (hr : r.block = some id)
    (hκ : κ id = r :: χ) : Agrees κ (r :: χ) := by
  rintro (_ | ⟨r', left⟩) s rest b heq hs
  · cases heq
    rw [hr] at hs
    cases hs
    exact hκ
  · cases heq
    exact h left s rest b rfl hs

theorem Linkage.Fits.enter (h : Γ.Fits χ []) (hr : Γ.NewRegion χ r) (hfresh : fresh.Sublist r.vars) :
    Γ.Fits (r :: χ) fresh where
  nodup := by
    show ((r.vars ++ χ.vars).map LocalVar.slot).Nodup
    rw [map_append]
    refine hr.nodup.append h.nodup ?_
    intro slot hs hs'
    obtain ⟨v, hv, rfl⟩ := mem_map.1 hs
    obtain ⟨u, hu, heq⟩ := mem_map.1 hs'
    exact (hr.spare v hv).2 u hu heq
  below := fun v hv => (mem_append.1 hv).elim (fun hv => (hr.spare v hv).1) (h.below v)
  allowed := forall_mem_append.2 ⟨hr.allowed, h.allowed⟩
  fresh := hfresh.trans (sublist_append_left _ _)

theorem Linkage.Fits.sublist (h : Γ.Fits χ fresh) (hs : fresh'.Sublist fresh) :
    Γ.Fits χ fresh' := { h with fresh := hs.trans h.fresh }

theorem Linkage.Framed.cons (h : Γ.Framed χ) : Γ.Framed (r :: χ) := by
  obtain ⟨inner, body, outer, rfl, hstatic⟩ := h
  exact ⟨r :: inner, body, outer, rfl, hstatic⟩

theorem Linkage.Fits.tail (h : Γ.Fits (r :: χ) []) : Γ.Fits χ [] where
  nodup := by
    have hn : ((r.vars ++ χ.vars).map LocalVar.slot).Nodup := h.nodup
    rw [map_append] at hn
    exact hn.of_append_right
  below := fun v hv => h.below v (mem_append_right _ hv)
  allowed := fun v hv => h.allowed v (mem_append_right _ hv)
  fresh := nil_sublist _

/-- Code outside the blocks has the regions around them all. -/
theorem over_outside {lay : Nat → Chain} (hlay : ∀ p, pc ≤ p → p < pc + n → lay p = openAt o χ p)
    (hq : pc ≤ q) (hq' : q + code.length ≤ pc + n)
    (ho : ∀ e ∈ o, q + code.length ≤ e.start ∨ e.stop ≤ q) : Over q code (lay · = χ) := by
  intro p h1 h2
  rw [hlay p (by omega) (by omega)]
  exact openAt_outside fun e he => by have := ho e he; omega

variable (laws : Laws K Γ lay A) (hret : Γ.ret = .void ∨ Γ.ret.Allowed Γ.core)

include laws hret

theorem flows_of_straight_in (hfits : Γ.Fits χ fresh) (hframed : Γ.Framed χ)
    (hlay : ∀ p, pc ≤ p → p < pc + n → lay p = openAt o χ p)
    (hs : Straight Γ χ fresh q code S S') (hq : pc ≤ q) (hq' : q + code.length ≤ pc + n)
    (ho : ∀ e ∈ o, q + code.length ≤ e.start ∨ e.stop ≤ q) :
    Flows K L q code (A χ fresh S) (A χ fresh S') [] :=
  (flows_of_straight laws.toStraightLaws hs hfits (fun _ => ⟨hframed, hret⟩)
    (over_outside hlay hq hq' ho)).labels nofun

theorem flows_of_structured (h : Structured Γ Λ χ fresh pc code fresh' o l)
    (hmarks : ∀ name b, Λ.blockOf name = some b → (Λ.mark name).isSome) (hfits : Γ.Fits χ fresh)
    (hframed : Γ.Framed χ) (hκ : Agrees κ χ) (ho : ∀ e ∈ o, κ e.id = e.chain)
    (hlay : ∀ p, pc ≤ p → p < pc + code.length → lay p = openAt o χ p) :
    Flows K (atLabels Λ κ A) pc code (A χ fresh []) (A χ fresh' [])
      (l.map fun site => (site.pc, labelAssertion Λ κ A site.name)) := by
  induction h with
  | nil => exact .nil fun _ => id
  | append h1 h2 ih1 ih2 =>
    rw [map_append]
    rw [length_append] at hlay
    refine .append (ih1 hfits hframed hκ (fun e he => ho e (mem_append_left _ he)) ?_)
      (ih2 (hfits.sublist h1.sublist) hframed hκ (fun e he => ho e (mem_append_right _ he)) ?_)
    · intro p hp hp'
      rw [hlay p hp (by omega)]
      exact openAt_append_left fun e he => .inl (by have := h2.bounds e he; omega)
    · intro p hp hp'
      rw [hlay p (by omega) (by omega)]
      exact openAt_append_right fun e he => .inr (by have := h1.bounds e he; omega)
  | straight hs =>
    exact flows_of_straight_in laws hret hfits hframed hlay hs le_rfl le_rfl nofun
  | declare hs =>
    have hover := over_outside hlay le_rfl le_rfl nofun
    rw [length_append] at hlay
    exact .append (flows_of_straight_in laws hret hfits hframed hlay hs le_rfl
      (by omega) nofun)
      ((laws.declare hfits hover.right.within).labels nofun)
  | declareDefault => exact .nil fun _ => laws.skip
  | @block χ id fresh pc code o l r hr hnew hfresh hbody ih =>
    have hfits' := hfits.enter hnew hfresh
    simp only [length_append] at hlay
    have hbody' := ih hfits' hframed.cons (hκ.cons hr (ho _ mem_cons_self))
      (forall_mem_cons.1 ho).2 fun p hp hp' => by
        rw [hlay p (by omega) (by omega)]
        exact openAt_cons ⟨hp, hp'⟩
    have hbounds := hbody.bounds
    have henter : Flows K (atLabels Λ κ A) pc r.enterOps (A χ [] []) (A (r :: χ) fresh []) [] :=
      (laws.enter hfits (over_outside hlay le_rfl (by omega)
        (forall_mem_cons.2 ⟨.inl le_rfl, fun e he => .inl (hbounds e he).1⟩)).within hnew
        hfresh).labels nofun
    have hleave : Flows K (atLabels Λ κ A) (pc + (r.enterOps ++ code).length) r.leaveOps
        (A (r :: χ) [] []) (A χ [] []) [] := by
      rw [length_append]
      have hover : Over (pc + (r.enterOps.length + code.length)) r.leaveOps (lay · = χ) :=
        over_outside hlay (by omega) (by omega) (forall_mem_cons.2
          ⟨.inr (by dsimp only; omega), fun e he => .inr (by have := hbounds e he; omega)⟩)
      exact (laws.leave (hfits'.sublist (nil_sublist _)) fun p h1 h2 =>
        Subset.trans (hover.within p h1 h2) (subset_append_right _ _)).labels nofun
    have hall := (henter.append hbody').append hleave
    rwa [nil_append, append_nil] at hall
  | ifThen hc hb htarget ih =>
    simp only [length_append, length_cons] at hlay
    refine ifThen_flows laws (flows_of_straight_in laws hret hfits hframed hlay hc le_rfl
      (by omega) fun e he => .inl ?_) (hb.within hlay (by omega) (by omega) (by omega))
      (ih hfits hframed hκ ho fun p h1 h2 => hlay p ?_ ?_) htarget
    · have := hb.bounds e he; omega
    all_goals omega
  | ifElse hc hb hother hmiddle htarget ih1 ih2 =>
    simp only [length_append, length_cons] at hlay
    rw [map_append]
    have houtside := fun p h1 h2 h3 h4 => subset_of_lay ((hlay p h1 h2).trans (openAt_outside
      (forall_mem_append.2 ⟨hb.outside (p := p) h3, hother.outside h4⟩)))
    refine ifElse_flows laws (flows_of_straight_in laws hret hfits hframed hlay hc le_rfl
      (by omega) fun e he => .inl ?_) (houtside _ (by omega) (by omega) (by omega) (by omega))
      (ih1 hfits hframed hκ (fun e he => ho e (mem_append_left _ he)) fun p h1 h2 => ?_)
      (houtside _ (by omega) (by omega) (by omega) (by omega))
      (ih2 hfits hframed hκ (fun e he => ho e (mem_append_right _ he)) fun p h1 h2 => ?_)
      hmiddle htarget
    · rcases mem_append.1 he with he | he
      · have := hb.bounds e he; omega
      · have := hother.bounds e he; omega
    · rw [hlay p (by omega) (by omega)]
      exact openAt_append_left fun e he => .inl (by have := hother.bounds e he; omega)
    · rw [hlay p (by omega) (by omega)]
      exact openAt_append_right fun e he => .inr (by have := hb.bounds e he; omega)
  | loop hc hb htop htarget ih =>
    simp only [length_append, length_cons] at hlay
    refine loop_flows laws hfits (hb.around hlay le_rfl (by omega) (by omega))
      (flows_of_straight_in laws hret hfits hframed hlay hc
      (Nat.le_succ _) (by omega) fun e he => .inl ?_) (hb.within hlay (by omega) (by omega) (by omega))
      (ih hfits hframed hκ ho fun p h1 h2 => hlay p ?_ ?_)
      (hb.within hlay (by omega) (by omega) (by omega)) htop htarget
    · have := hb.bounds e he; omega
    all_goals omega
  | forever hb htop ih =>
    simp only [length_append, length_cons] at hlay
    refine forever_flows laws hfits (hb.around hlay le_rfl (by omega) (by omega))
      (ih hfits hframed hκ ho fun p h1 h2 => hlay p ?_ ?_)
      (hb.within hlay (by omega) (by omega) (by omega)) htop
    all_goals omega
  | doWhile hb hc htop ih =>
    simp only [length_append, length_cons] at hlay
    refine doWhile_flows laws hfits (hb.around hlay le_rfl (by omega) (by omega))
      (ih hfits hframed hκ ho fun p h1 h2 => hlay p ?_ ?_)
      (flows_of_straight_in laws hret hfits hframed hlay hc (by omega) (by omega)
        fun e he => .inr ?_) (hb.within hlay (by omega) (by omega) (by omega)) htop
    · omega
    · omega
    · have := hb.bounds e he; omega
  | @label χ name pc hblock hne hmark =>
    have hassert : ∀ x, labelAssertion Λ κ A name x → A χ [] [] x := by
      rintro x ⟨b, hb, hx⟩
      rw [hb] at hblock
      cases χ with
      | nil => cases hblock
      | cons r rest => rwa [hκ [] r rest b rfl hblock] at hx
    have hcode : Flows K (atLabels Λ κ A) pc (if Λ.checked name then [.checkRun] else [])
        (A χ [] []) (A χ [] []) [] := by
      cases hchecked : Λ.checked name with
      | false => exact .nil fun _ => id
      | true =>
        rw [hchecked] at hlay
        exact checkRun_flows laws hfits (hlay pc le_rfl (by simp))
    refine hcode.entry.entries fun e he => ⟨_, mem_cons_self, ?_⟩
    rw [mem_singleton.1 he]
    exact ⟨rfl, hassert⟩
  | @jump χ left rest r name pc target hχ hr hne hmark =>
    obtain ⟨b, hb⟩ := Option.ne_none_iff_exists'.1 hne
    obtain ⟨place, hplace⟩ := Option.isSome_iff_exists.1 (hmarks name b hb)
    have hchain := hκ left r rest b hχ (hr.trans hb)
    subst hχ
    refine (laws.jump hfits (over_outside hlay le_rfl le_rfl nofun).within
      fun x hx => ⟨name, ?_, b, hb, ?_⟩).mono (fun _ => id) nofun
    · rw [(hmark place hplace).1, hplace]
    · rwa [hchain]
  | ret hs =>
    have hover := over_outside hlay le_rfl le_rfl nofun
    rw [length_append] at hlay
    exact .append (flows_of_straight_in laws hret hfits hframed hlay hs le_rfl
      (by omega) nofun)
      (((laws.ret hfits hover.right.within hframed).labels nofun).mono (fun _ => id) nofun)
  | @state χ pc i hi =>
    have hover := over_outside hlay le_rfl le_rfl nofun
    have hstate : Flows K (atLabels Λ κ A) pc [.setState i] (A χ [] []) (A χ [] []) [] :=
      .op fun x I hx hI _ => ⟨laws.stands (subset_of_lay hover.head) hx, (fun _ _ hg => nomatch hg),
        laws.states ▸ hi, hI x hx⟩
    have hend := returnDefault_flows laws.toStraightLaws (S := []) hret hfits hframed
      (hover.right (a := [_]))
    exact hstate.append ((hend.labels nofun).mono (fun _ => id) nofun)

end

/-! ## Functions -/

/-- What is known about the regions of a frame. -/
structure Layout.Frames (Γ : Linkage) (params : List Ty) (Y : Layout) : Prop where
  static : Γ.frameStatic = Y.frameStatic
  outer : Γ.NewRegion [] Y.outer
  body : Γ.NewRegion [Y.outer] Y.body
  tys : Y.outer.vars.map LocalVar.ty = params
  slots : Y.outer.vars.map (·.slot.toNat) = range params.length

section

variable {Y : Layout}

theorem Layout.Frames.fits_outer (h : Y.Frames Γ params) : Γ.Fits [Y.outer] [] := by
  have hnil : Γ.Fits [] [] :=
    ⟨nodup_nil, fun _ hv => absurd hv not_mem_nil, fun _ hv => absurd hv not_mem_nil,
      .refl _⟩
  exact hnil.enter h.outer (nil_sublist _)

theorem Layout.Frames.fits (h : Y.Frames Γ params)
    (hfresh : fresh.Sublist Y.body.vars) : Γ.Fits Y.frame fresh :=
  h.fits_outer.enter h.body hfresh

theorem Layout.Frames.framed (h : Y.Frames Γ params) : Γ.Framed Y.frame :=
  ⟨[], Y.body, Y.outer, rfl, h.static⟩

/-- The regions around the block with a number. -/
def Layout.chainOf (Y : Layout) (b : Nat) : Chain :=
  if Y.body.block = some b then Y.frame else (Y.extents.find? (·.id == b)).elim [] Extent.chain

theorem Layout.chainOf_extent {id : Nat} (hid : Y.body.block = some id)
    (hnodup : (id :: Y.extents.map Extent.id).Nodup) (he : e ∈ Y.extents) :
    Y.chainOf e.id = e.chain := by
  obtain ⟨hnew, hnodup⟩ := nodup_cons.1 hnodup
  have hne : Y.body.block ≠ some e.id := by
    rw [hid]
    rintro ⟨⟩
    exact hnew (mem_map_of_mem he)
  unfold Layout.chainOf
  rw [if_neg hne]
  rw [find?_of_nodup Extent.id hnodup he]
  rfl

theorem Layout.agrees_frame (houter : Y.outer.block = none) : Agrees Y.chainOf Y.frame := by
  rintro left r rest b heq hr
  rcases left with _ | ⟨r1, _ | ⟨r2, left⟩⟩
  · cases heq
    unfold Layout.chainOf
    rw [if_pos hr]
    rfl
  · cases heq
    rw [houter] at hr
    cases hr
  · have := congrArg length heq
    simp [Layout.frame] at this

/-- The regions whose variables are in use at a place: while the frame is entered, only the
parameters are. -/
def Layout.scopeAt (Y : Layout) (pc : Nat) : Chain :=
  if pc + 1 < Y.enterOps.length then [Y.outer] else Y.chainAt pc

theorem FunctionCode.chainAt_before (h : FunctionCode Γ params blocks Y ops)
    (hp : p < Y.enterOps.length) : Y.chainAt p = Y.frame := by
  obtain ⟨-, -, -, -, -, -, -, -, -, hcode, -, -, -⟩ := h
  exact openAt_outside (hcode.outside (.inl hp))

theorem FunctionCode.scopeAt_subset (h : FunctionCode Γ params blocks Y ops) (p : Nat) :
    (Y.scopeAt p).vars ⊆ (Y.chainAt p).vars := by
  unfold Layout.scopeAt
  split
  · rw [h.chainAt_before (by omega)]
    exact subset_append_right _ _
  · exact Subset.refl _

/-- A function has assertions that hold together, if an assertion about the variables in scope
follows the laws and holds after the frame has been entered. -/
theorem FunctionCode.annotated {K : Contract} (h : FunctionCode Γ params blocks Y ops)
    (laws : Laws K Γ Y.chainAt A) (henter : ∀ fresh, Y.Frames Γ params → fresh.Sublist Y.body.vars →
      (∀ p, p < Y.enterOps.length → Y.chainAt p = Y.frame) →
      Through K 0 Y.enterOps E (A Y.frame fresh [])) :
    ∃ I, Annotated K ops I ∧ ∀ x, E x → I 0 x := by
  have hbefore := fun p => h.chainAt_before (p := p)
  obtain @⟨Λ, id, fresh, code, l, hstatic, hret, hnone, houter, hparams, hslots, hid, hbody, hfresh,
    hcode, hblocks, hnodup, hsites⟩ := h
  have hframes : Y.Frames Γ params := ⟨hstatic, houter, hbody, hparams, hslots⟩
  have hbounds := hcode.bounds
  have hafter : Over (Y.enterOps.length + code.length) (returnDefaultOps Γ Y.frame)
      (Y.chainAt · = Y.frame) := fun p h1 h2 =>
    openAt_outside fun e he => .inr (by have := hbounds e he; omega)
  have hids : (id :: Y.extents.map Extent.id).Nodup := by
    rw [hblocks, map_cons, map_map] at hnodup
    exact hnodup
  have hfits := hframes.fits hfresh
  have hflows := flows_of_structured laws hret hcode (fun name b hb => by
      obtain ⟨site, -, -, hmark⟩ := hsites name b hb
      rw [hmark]; rfl) hfits hframes.framed (Layout.agrees_frame hnone)
    (fun e he => Layout.chainOf_extent hid hids he) fun _ _ _ => rfl
  have hend := returnDefault_flows laws.toStraightLaws (S := []) hret
    (hfits.sublist (nil_sublist _)) hframes.framed hafter
  have hstart : Flows K (atLabels Λ Y.chainOf A) 0 Y.enterOps E (A Y.frame fresh []) [] :=
    (henter fresh hframes hfresh hbefore).labels nofun
  have hall := (hstart.append (by rw [Nat.zero_add]; exact hflows)).append
    (by rw [Nat.zero_add, length_append]; exact hend.labels nofun)
  obtain ⟨I, hext, hE, hentries⟩ := hall (fun _ _ => False) fun _ hx => hx
  have hlabels : ∀ p x, atLabels Λ Y.chainOf A p x → I p x := by
    rintro p x ⟨name, hp, hassert⟩
    obtain ⟨b, hb⟩ : ∃ b, Λ.blockOf name = some b := hassert.imp fun _ h => h.1
    obtain ⟨site, hsite, rfl, hmark⟩ := hsites name b hb
    rw [hp] at hmark
    cases hmark
    exact hentries (site.pc, labelAssertion Λ Y.chainOf A site.name)
      (mem_append_left _ (mem_append_right _ (mem_map_of_mem hsite))) x hassert
  refine ⟨I, fun p x hx => ?_, hE⟩
  rcases hext.step p x hx with hx | ⟨op, ⟨-, hop⟩, hw⟩
  · exact hx.elim
  · exact ⟨op, hop, hw.mono fun q y hy => hy.elim (fun hy => hy) (hlabels q y)⟩

end

/-! ## The initializer -/

/-- What assertions are to satisfy in the code that gives global variables their first values. `B i`
is so when `i` variables have theirs, and `A i` while the next one is computed. -/
structure InitLaws (K : Contract) (Γ : Linkage) (B : Nat → Local → Prop) (A : Nat → Family) :
    Prop where
  begin : Γ.globals[i]? = some ty → Through K pc [.memStatic ty.staticSize] (B i) (A i [] [] [])
  straight : i < Γ.globals.length → StraightLaws K (Γ.before i) (fun _ => []) (A i)
  set {ty : Ty} {index : UInt16} {pc : Nat} : Γ.globals[i]? = some ty → index.toNat = i →
    Through K pc (.storeGlobal index ::
      if ty.hasDynamicSize then [.memIncr (.globalVar index)] else []) (A i [] [] [ty]) (B (i + 1))
  ret : Through K pc [.ret] (B Γ.globals.length) (fun _ => False)

theorem flows_of_initCode (laws : InitLaws K Γ B A)
    (h : InitCode Γ i pc ops) : Through K pc ops (B i) (fun _ => False) := by
  induction h with
  | nil => exact laws.ret
  | @cons i pc ty index code rest hty hindex hcode _ ih =>
    have hi : i < Γ.globals.length := (List.getElem?_eq_some_iff.1 hty).1
    have hfits : (Γ.before i).Fits [] [] := ⟨nodup_nil, fun _ hv => absurd hv not_mem_nil,
        fun _ hv => absurd hv not_mem_nil, .refl _⟩
    have hvalue := flows_of_straight (laws.straight hi) hcode hfits (fun hne => absurd rfl hne)
      fun _ _ _ => rfl
    exact ((laws.begin hty).append (hvalue.append (laws.set hty hindex))).append ih

theorem InitCode.annotated (laws : InitLaws K Γ B A) (h : InitCode Γ 0 0 ops) :
    ∃ I, Annotated K ops I ∧ ∀ x, B 0 x → I 0 x := by
  obtain ⟨I, hext, hB, -⟩ := flows_of_initCode laws h (fun _ _ => False) fun _ hx => hx
  refine ⟨I, fun p x hx => ?_, hB⟩
  rcases hext.step p x hx with hx | ⟨op, ⟨-, hop⟩, hw⟩
  · exact hx.elim
  · exact ⟨op, hop, hw.mono fun q y hy => hy.elim (fun hy => hy) False.elim⟩

end EventScript.Compile
