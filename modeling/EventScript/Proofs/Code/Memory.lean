import EventScript.Proofs.Code.Annotations

/-!
# Account of memory

Compiled code keeps account of the memory that variables take. At every place the memory in use is
the cost of the global variables, of the frame, and of the variables in scope with their contents
(`Booked`). This is an assertion that follows the laws of structured code (`Accounting.laws`,
`Accounting.initLaws`), whatever values the variables hold, so compiled modules have it everywhere
(`Module.Laid.accounting`, `Module.Coded.initAccounting`).
-/

namespace EventScript

open List

/-! ## Costs -/

theorem contentCost_of_dynamic (h : ty.hasDynamicSize = true) :
    contentCost ty v = v.dynSize.toInt := if_pos h

theorem contentCost_of_static (h : ¬ ty.hasDynamicSize = true) : contentCost ty v = 0 := if_neg h

theorem contentCost_default : contentCost ty (.default ty) = 0 := by
  cases ty <;> rfl

variable {tys : List Ty}

theorem globalsCost_set (hty : tys[i]? = some ty) (hold : vs[i]? = some old)
    (v : Value) : globalsCost tys (vs.set i v) =
      globalsCost tys vs - contentCost ty old + contentCost ty v := by
  induction tys generalizing vs i with
  | nil => cases hty
  | cons t tys ih =>
    cases vs with
    | nil => cases hold
    | cons u vs =>
      cases i with
      | zero =>
        cases hty
        cases hold
        simp only [set_cons_zero, globalsCost]
        omega
      | succ i =>
        have := ih hty hold
        simp only [set_cons_succ, globalsCost]
        omega

theorem globalsCost_set_of_le (h : tys.length ≤ i) :
    globalsCost tys (vs.set i v) = globalsCost tys vs := by
  induction tys generalizing vs i with
  | nil => rfl
  | cons t tys ih =>
    cases vs with
    | nil => rfl
    | cons u vs =>
      cases i with
      | zero => exact absurd h (by simp)
      | succ i => simp only [set_cons_succ, globalsCost, ih (Nat.le_of_succ_le_succ h)]

theorem globalsCost_take_succ (hty : tys[i]? = some ty) (hv : vs[i]? = some v) :
    globalsCost (tys.take (i + 1)) vs =
      globalsCost (tys.take i) vs + (ty.staticSize.toInt + contentCost ty v) := by
  induction tys generalizing vs i with
  | nil => cases hty
  | cons t tys ih =>
    cases vs with
    | nil => cases hv
    | cons u vs =>
      cases i with
      | zero =>
        cases hty
        cases hv
        simp [globalsCost]
      | succ i =>
        have := ih hty hv
        simp only [take_succ_cons, globalsCost] at this ⊢
        omega

namespace Compile

def LocalVar.content (v : LocalVar) (locals : List Value) : Int :=
  (locals[v.slot.toNat]?).elim 0 (contentCost v.ty)

def staticCost (vars : List LocalVar) : Int := (vars.map fun v => v.ty.staticSize.toInt).sum

def varsCost (vars : List LocalVar) (locals : List Value) : Int :=
  (vars.map fun v => v.ty.staticSize.toInt + v.content locals).sum

def Layout.frameCost (Y : Layout) (pc : Nat) (locals : List Value) : Int :=
  frameSize.toInt + varsCost (Y.chainAt pc).vars locals

section

variable {v : LocalVar} {locals : List Value}

theorem varsCost_cons : varsCost (v :: vars) locals =
      v.ty.staticSize.toInt + v.content locals + varsCost vars locals := by
  rfl

theorem varsCost_append (vars vars' : List LocalVar) (locals : List Value) :
    varsCost (vars ++ vars') locals = varsCost vars locals + varsCost vars' locals := by
  rw [varsCost, map_append, sum_append]
  rfl

theorem varsCost_perm (h : vars.Perm vars') :
    varsCost vars locals = varsCost vars' locals := (h.map _).sum_eq

theorem varsCost_eq (vars : List LocalVar) (locals : List Value) :
    varsCost vars locals = staticCost vars + (vars.map fun v => v.content locals).sum := by
  unfold varsCost staticCost
  induction vars with
  | nil => rfl
  | cons v vars ih =>
    simp only [map_cons, sum_cons, ih]
    omega

theorem content_set_ne (h : v.slot ≠ slot) (a : Value) :
    v.content (locals.set slot.toNat a) = v.content locals := by
  unfold LocalVar.content
  rw [getElem?_set_ne fun heq => h (UInt16.toNat_inj.1 heq.symm)]

theorem content_set_self (h : locals[v.slot.toNat]? = some old) :
    v.content (locals.set v.slot.toNat a) = contentCost v.ty a := by
  unfold LocalVar.content
  rw [getElem?_set_self (List.getElem?_eq_some_iff.1 h).1]
  rfl

theorem content_eq (h : locals[v.slot.toNat]? = some old) :
    v.content locals = contentCost v.ty old := by
  rw [LocalVar.content, h]
  rfl

theorem varsCost_set_ne (h : ∀ v ∈ vars, v.slot ≠ slot) :
    varsCost vars (locals.set slot.toNat a) = varsCost vars locals := by
  unfold varsCost
  congr 1
  refine map_congr_left fun v hv => ?_
  rw [content_set_ne (h v hv)]

theorem varsCost_set (hnodup : (vars.map LocalVar.slot).Nodup) (hv : v ∈ vars)
    (hold : locals[v.slot.toNat]? = some old) (a : Value) :
    varsCost vars (locals.set v.slot.toNat a) =
      varsCost vars locals - contentCost v.ty old + contentCost v.ty a := by
  induction vars with
  | nil => cases hv
  | cons u vars ih =>
    obtain ⟨hu, hnodup⟩ := nodup_cons.1 hnodup
    rw [varsCost_cons, varsCost_cons]
    rcases mem_cons.1 hv with rfl | hv
    · have hother : ∀ w ∈ vars, w.slot ≠ v.slot := fun w hw heq =>
        hu (heq ▸ mem_map_of_mem hw)
      rw [content_set_self hold, varsCost_set_ne hother, content_eq hold]
      omega
    · have hne : u.slot ≠ v.slot := fun heq => hu (heq ▸ mem_map_of_mem hv)
      rw [content_set_ne hne, ih hnodup hv]
      omega

/-- The cost of the variables of a region is exact: there are too few slots for more. -/
theorem Region.staticSize_toInt {r : Region} (h : (r.vars.map LocalVar.slot).Nodup) :
    r.staticSize.toInt = staticCost r.vars ∧ 0 ≤ staticCost r.vars ∧
      staticCost r.vars ≤ 96 * 65536 := by
  have hlen : r.vars.length ≤ 65536 := by
    have hnodup : (r.vars.map fun v => v.slot.toNat).Nodup := by
      rw [show (fun v : LocalVar => v.slot.toNat) = UInt16.toNat ∘ LocalVar.slot from rfl,
        ← map_map]
      exact h.map fun _ _ => UInt16.toNat_inj.1
    have hsub : (r.vars.map fun v => v.slot.toNat) ⊆ range 65536 := fun n hn => by
      obtain ⟨v, -, rfl⟩ := mem_map.1 hn
      exact mem_range.2 v.slot.toNat_lt
    simpa using (hnodup.subperm hsub).length_le
  have hty : ∀ ty : Ty, 0 ≤ ty.staticSize.toInt ∧ ty.staticSize.toInt ≤ 96 := by
    intro ty; cases ty <;> decide
  have hfold : ∀ (vars : List LocalVar) (n : Int32), 0 ≤ n.toInt →
      n.toInt + 96 * vars.length ≤ 96 * 65536 →
      (vars.foldl (fun n v => n + v.ty.staticSize) n).toInt = n.toInt + staticCost vars ∧
        0 ≤ staticCost vars ∧ staticCost vars ≤ 96 * vars.length := by
    intro vars
    induction vars with
    | nil => intro n _ _; exact ⟨(Int.add_zero _).symm, Int.le_refl _, Int.le_refl _⟩
    | cons v vars ih =>
      intro n hn hbound
      have := hty v.ty
      rw [length_cons] at hbound
      have hadd : (n + v.ty.staticSize).toInt = n.toInt + v.ty.staticSize.toInt := by
        rw [Int32.toInt_add, Int.bmod_eq_of_le] <;> omega
      obtain ⟨h1, h2, h3⟩ := ih (n + v.ty.staticSize) (by omega) (by omega)
      have hcons : staticCost (v :: vars) = v.ty.staticSize.toInt + staticCost vars := by
        rw [staticCost, map_cons, sum_cons]; rfl
      rw [foldl_cons, h1, hadd, hcons, length_cons]
      omega
  obtain ⟨h1, h2, h3⟩ := hfold r.vars 0 (by decide) (by
    rw [show (0 : Int32).toInt = 0 from rfl]; omega)
  rw [show (0 : Int32).toInt = 0 from rfl, Int.zero_add] at h1
  exact ⟨h1, h2, by omega⟩

/-! ## Amounts -/

def amount (x : Local) : Op → Int
  | .memStatic n => n.toInt
  | .memIncr var => (x.var? var).elim 0 fun v => v.dynSize.toInt
  | .memDecr var => (x.var? var).elim 0 fun v => -v.dynSize.toInt
  | _ => 0

def IsEntry : Op → Prop
  | .memStatic _ | .memIncr _ | .memDecr _ => True
  | _ => False

def amounts (x : Local) (ops : List Op) : Int := (ops.map (amount x)).sum

theorem amounts_append (x : Local) (a b : List Op) :
    amounts x (a ++ b) = amounts x a + amounts x b := by
  rw [amounts, map_append, sum_append]
  rfl

theorem sum_dynamicSlots (x : Local) (vars : List LocalVar) (f : Int → Int) (hf : f 0 = 0) :
    (((vars.filter (·.ty.hasDynamicSize)).map LocalVar.slot).map fun slot =>
        (x.var? (.localVar slot)).elim 0 fun v => f v.dynSize.toInt).sum =
      (vars.map fun v => f (v.content x.locals)).sum := by
  induction vars with
  | nil => rfl
  | cons v vars ih =>
    by_cases hd : v.ty.hasDynamicSize = true
    · rw [filter_cons_of_pos (by exact hd), map_cons, map_cons, map_cons, sum_cons, sum_cons, ih]
      congr 1
      show (x.locals[v.slot.toNat]?).elim 0 _ = f (v.content x.locals)
      unfold LocalVar.content
      cases x.locals[v.slot.toNat]? with
      | none => exact hf.symm
      | some a => exact congrArg f (contentCost_of_dynamic hd).symm
    · rw [filter_cons_of_neg (by exact hd), ih, map_cons, sum_cons]
      have hzero : v.content x.locals = 0 := by
        unfold LocalVar.content
        cases x.locals[v.slot.toNat]? with
        | none => rfl
        | some a => exact contentCost_of_static hd
      rw [hzero, hf, Int.zero_add]

theorem sum_map_neg (l : List α) (f : α → Int) : (l.map fun a => -f a).sum = -(l.map f).sum := by
  induction l with
  | nil => rfl
  | cons a l ih =>
    rw [map_cons, sum_cons, ih, map_cons, sum_cons]
    omega

theorem amounts_release (x : Local) (r : Region) :
    amounts x (releaseOps r.dynamicSlots) = -(r.vars.map fun v => v.content x.locals).sum := by
  rw [← sum_map_neg, ← sum_dynamicSlots x r.vars (fun n => -n) rfl]
  unfold amounts releaseOps Region.dynamicSlots
  rw [map_map]
  rfl

theorem amounts_charge (x : Local) (r : Region) :
    amounts x (r.dynamicSlots.map fun slot => .memIncr (.localVar slot)) =
      (r.vars.map fun v => v.content x.locals).sum := by
  rw [← sum_dynamicSlots x r.vars (fun n => n) rfl]
  unfold amounts Region.dynamicSlots
  rw [map_map]
  rfl

theorem amounts_static (x : Local) (h : n.toInt = k) (h0 : 0 ≤ k) :
    amounts x (if n ≠ 0 then [.memStatic n] else []) = k ∧
      amounts x (if n ≠ 0 then [.memStatic (-n)] else []) = -k ∧ (-n).toInt = -k := by
  have hneg : (-n).toInt = -k := by
    have := n.toInt_lt
    rw [Int32.toInt_neg, Int.bmod_eq_of_le] <;> omega
  by_cases hn : n = 0
  · rw [if_neg (not_not.2 hn), if_neg (not_not.2 hn)]
    have hk : k = 0 := by rw [← h, hn]; rfl
    rw [hk] at hneg ⊢
    exact ⟨rfl, rfl, hneg⟩
  · rw [if_pos hn, if_pos hn]
    refine ⟨?_, ?_, hneg⟩
    · rw [← h]; exact Int.add_zero _
    · rw [← hneg]; exact Int.add_zero _

theorem amounts_leave (x : Local) {r : Region} (h : (r.vars.map LocalVar.slot).Nodup) :
    amounts x r.leaveOps = -varsCost r.vars x.locals := by
  obtain ⟨hstatic, hpos, -⟩ := r.staticSize_toInt h
  rw [Region.leaveOps, amounts_append, amounts_release, (amounts_static x hstatic hpos).2.1,
    varsCost_eq]
  omega

theorem frameStatic_toInt {body outer : Region} (hbody : (body.vars.map LocalVar.slot).Nodup)
    (houter : (outer.vars.map LocalVar.slot).Nodup) :
    (frameSize + body.staticSize + outer.staticSize).toInt =
      frameSize.toInt + staticCost body.vars + staticCost outer.vars := by
  obtain ⟨h1, h2, h3⟩ := body.staticSize_toInt hbody
  obtain ⟨h4, h5, h6⟩ := outer.staticSize_toInt houter
  have hframe : frameSize.toInt = 64 := rfl
  have hfirst : (frameSize + body.staticSize).toInt = 64 + staticCost body.vars := by
    rw [Int32.toInt_add, Int.bmod_eq_of_le] <;> omega
  rw [Int32.toInt_add, Int.bmod_eq_of_le] <;> omega

theorem amounts_leaveFrame (x : Local) {Γ : Linkage} (hframed : Γ.Framed χ)
    (h : (χ.vars.map LocalVar.slot).Nodup) :
    amounts x (leaveFrameOps Γ.frameStatic χ) = -(frameSize.toInt + varsCost χ.vars x.locals) := by
  obtain ⟨inner, body, outer, rfl, hstatic⟩ := hframed
  have hvars : Chain.vars (inner ++ [body, outer]) =
      Chain.vars inner ++ (body.vars ++ outer.vars) := by
    simp [Chain.vars]
  rw [hvars, map_append, map_append] at h
  have hinner := h.of_append_left
  have hbody := h.of_append_right.of_append_left
  have houter := h.of_append_right.of_append_right
  have htake : (inner ++ [body, outer]).take ((inner ++ [body, outer]).length - 2) = inner := by
    simp
  have hdrop : (inner ++ [body, outer]).drop ((inner ++ [body, outer]).length - 2) =
      [body, outer] := by simp
  have hregions : amounts x (inner.flatMap Region.leaveOps) =
      -varsCost (Chain.vars inner) x.locals := by
    clear hvars h htake hdrop
    induction inner with
    | nil => rfl
    | cons r inner ih =>
      rw [Chain.vars, flatMap_cons, map_append] at hinner
      rw [flatMap_cons, amounts_append, amounts_leave x hinner.of_append_left,
        ih hinner.of_append_right,
        show Chain.vars (r :: inner) = r.vars ++ Chain.vars inner from rfl, varsCost_append]
      exact Int.neg_add.symm
  have hrelease : amounts x (releaseOps ([body, outer].flatMap Region.dynamicSlots)) =
      -(body.vars.map fun v => v.content x.locals).sum +
        -(outer.vars.map fun v => v.content x.locals).sum := by
    rw [← amounts_release, ← amounts_release, ← amounts_append]
    simp [releaseOps]
  have hneg := (amounts_static x (frameStatic_toInt hbody houter) (by
    have := body.staticSize_toInt hbody
    have := outer.staticSize_toInt houter
    have : frameSize.toInt = 64 := rfl
    omega)).2.2
  have hframe : amounts x [.memStatic (-Γ.frameStatic)] =
      -(frameSize.toInt + staticCost body.vars + staticCost outer.vars) := by
    rw [← hneg, ← hstatic]; exact Int.add_zero _
  rw [leaveFrameOps, htake, hdrop, amounts_append, amounts_append, hregions, hrelease, hframe, hvars,
    varsCost_append, varsCost_append, varsCost_eq body.vars, varsCost_eq outer.vars]
  omega

end

/-! ## The assertion -/

/-- The memory in use is the cost of the global variables and of the given variables, with a base.
The contents of the `fresh` variables cost nothing. -/
structure Booked (globals : List Ty) (base : Int) (vars fresh : List LocalVar) (x : Local) :
    Prop where
  mem : x.mem = globalsCost globals x.globals + (base + varsCost vars x.locals)
  fresh : ∀ v ∈ fresh, v.content x.locals = 0

/-- All but the contents of one variable is accounted for. -/
def Pending (globals : List Ty) (base : Int) (vars fresh : List LocalVar) (var : VarRef) (ty : Ty)
    (x : Local) : Prop :=
  ∀ v, x.var? var = some v → Booked globals base vars fresh { x with mem := x.mem + contentCost ty v }

/-- The contract is about memory only, and is for code with the linkage. Calls are made only in
frames. -/
structure Accounting (K : Contract) (Γ : Linkage) (lay : Nat → Chain) (base : Int) : Prop where
  shared : ∀ globals, K.Shared globals
  here : ∀ p locals, K.Here p locals
  passed : ∀ t v, K.Passed t v
  lax : K.strict = false
  functions : K.functions = Γ.functions
  check : ∀ p x, Booked Γ.globals base (lay p).vars [] x → K.Check p x.locals (x.charge K.toTerms)
  inside : Γ.library = true → K.globals = Γ.globals ∧ base = frameSize.toInt
  outside : Γ.library = false → Γ.functions = [] ∧ Γ.frameStatic = 0

variable {Γ : Linkage} {χ : Chain}
  {fresh vars : List LocalVar} {x : Local}

namespace Booked

theorem withOperands (h : Booked globals base vars fresh x) (stack : List Value) :
    Booked globals base vars fresh { x with operands := stack } := ⟨h.mem, h.fresh⟩

theorem mono (h : Booked globals base vars fresh x) (hs : fresh' ⊆ fresh) :
    Booked globals base vars fresh' x := ⟨h.mem, fun v hv => h.fresh v (hs hv)⟩

theorem setSpare (h : Booked globals base vars fresh x)
    (hspare : ∀ v ∈ vars, v.slot ≠ slot) (hfresh : fresh ⊆ vars) (a : Value) :
    Booked globals base vars fresh (x.setVar (.localVar slot) a) where
  mem := by
    show x.mem = globalsCost globals x.globals + (base + varsCost vars (x.locals.set slot.toNat a))
    rw [varsCost_set_ne hspare]
    exact h.mem
  fresh v hv := (content_set_ne (hspare v (hfresh hv)) a).trans (h.fresh v hv)

end Booked

theorem Pending.setVar (hfits : Γ.Fits χ fresh) (hvar : Γ.HasVar χ fresh var ty)
    (h : Pending Γ.globals base χ.vars fresh var ty x) (hold : x.var? var = some old)
    (v : Value) : Pending Γ.globals base χ.vars fresh var ty (x.setVar var v) := by
  obtain ⟨hmem, hfresh⟩ := h old hold
  intro a ha
  cases var with
  | localVar slot =>
    obtain ⟨hin, hout⟩ := hvar
    obtain rfl : v = a := by
      have hlt := (List.getElem?_eq_some_iff.1 hold).1
      change (x.locals.set slot.toNat v)[slot.toNat]? = some a at ha
      rw [getElem?_set_self hlt] at ha
      exact Option.some.inj ha
    refine ⟨?_, fun u hu => ?_⟩
    · have hset := varsCost_set hfits.nodup hin hold v
      show x.mem + contentCost ty v =
        globalsCost Γ.globals x.globals + (base + varsCost χ.vars (x.locals.set slot.toNat v))
      dsimp only at hset hmem
      omega
    · have hne : u.slot ≠ slot := by
        intro heq
        have hsame := inj_on_of_nodup_map hfits.nodup (hfits.fresh.subset hu) hin heq
        exact hout (hsame ▸ hu)
      exact (content_set_ne hne v).trans (hfresh u hu)
  | globalVar index =>
    obtain rfl : v = a := by
      have hlt := (List.getElem?_eq_some_iff.1 hold).1
      change (x.globals.set index.toNat v)[index.toNat]? = some a at ha
      rw [getElem?_set_self hlt] at ha
      exact Option.some.inj ha
    refine ⟨?_, hfresh⟩
    have hset := globalsCost_set hvar hold v
    show x.mem + contentCost ty v =
      globalsCost Γ.globals (x.globals.set index.toNat v) + (base + varsCost χ.vars x.locals)
    dsimp only at hmem
    rw [hset]
    omega

theorem Booked.pending (h : Booked globals base vars fresh x)
    (hzero : ∀ v, x.var? var = some v → contentCost ty v = 0) :
    Pending globals base vars fresh var ty x := by
  intro v hv
  rw [hzero v hv, Int.add_zero]
  exact h

theorem Pending.booked (h : Pending globals base vars fresh var ty x) (hv : x.var? var = some v)
    (hzero : contentCost ty v = 0) : Booked globals base vars fresh x := by
  have := h v hv
  rwa [hzero, Int.add_zero] at this

def bookedFamily (Γ : Linkage) (base : Int) : Family := fun χ fresh _ =>
  Booked Γ.globals base χ.vars fresh

namespace Accounting

variable (hK : Accounting K Γ lay base)

include hK

omit hK in
theorem set_isSome (h : x.var? var = some old) (v : Value) :
    ∃ a, (x.setVar var v).var? var = some a := by
  cases var with
  | localVar slot | globalVar index =>
    exact ⟨v, getElem?_set_self (List.getElem?_eq_some_iff.1 h).1⟩

theorem stands (x : Local) : x.Stands K pc := ⟨hK.shared _, hK.here _ _⟩

theorem wp (h : LeadsTo K pc x I op) : Wp K op pc x I :=
  ⟨hK.stands x, fun hs => absurd (hK.lax.symm.trans hs) (by decide), h⟩

theorem entries_flows (hops : ∀ op ∈ ops, IsEntry op)
    (hQ : ∀ x, P x → Q { x with mem := x.mem + amounts x ops }) :
    Through K pc ops P Q := by
  induction ops generalizing pc P with
  | nil =>
    refine .nil fun x hx => ?_
    have := hQ x hx
    rwa [show amounts x [] = 0 from rfl, Int.add_zero] at this
  | cons op ops ih =>
    have hop : Through K pc [op] P
        (fun y => ∃ x, P x ∧ y = { x with mem := x.mem + amount x op }) := by
      refine .op fun x I hx hI _ => hK.wp ?_
      have hentry := hops op mem_cons_self
      cases op with
      | memStatic n => exact hI _ ⟨x, hx, rfl⟩
      | memIncr var => exact fun v hv => hI _ ⟨x, hx, by rw [amount, hv]; rfl⟩
      | memDecr var =>
        exact fun v hv => hI _ ⟨x, hx, by rw [amount, hv, Int.sub_eq_add_neg]; rfl⟩
      | _ => exact hentry.elim
    refine hop.append (ih (forall_mem_cons.1 hops).2 ?_)
    rintro _ ⟨x, hx, rfl⟩
    have hrest : amounts { x with mem := x.mem + amount x op } ops = amounts x ops := by
      unfold amounts
      congr 1
    have := hQ x hx
    rw [amounts, map_cons, sum_cons, ← Int.add_assoc] at this
    exact this

/-! ## Instructions -/

theorem storeOp_wp (hfits : Γ.Fits χ fresh) (hvar : Γ.HasVar χ fresh var ty)
    (hx : Pending Γ.globals base χ.vars fresh var ty x)
    (hI : ∀ y, Pending Γ.globals base χ.vars fresh var ty y → (∃ a, y.var? var = some a) →
      I (pc + 1) y) : Wp K var.storeOp pc x I := by
  have hleads : ∀ v rest old, x.operands = v :: rest → x.var? var = some old →
      I (pc + 1) ({ x with operands := rest }.setVar var v) := by
    intro v rest old _ hold
    have hold' : ({ x with operands := rest } : Local).var? var = some old := by
      cases var <;> exact hold
    have hx' : Pending Γ.globals base χ.vars fresh var ty { x with operands := rest } := by
      intro a ha
      have := hx a (by cases var <;> exact ha)
      exact ⟨this.mem, this.fresh⟩
    exact hI _ (hx'.setVar hfits hvar hold' v) (set_isSome hold' v)
  cases var with
  | localVar slot | globalVar index => exact hK.wp hleads

theorem store_flows (hfits : Γ.Fits χ fresh) (hvar : Γ.HasVar χ fresh var ty) :
    Stays K pc (storeOps var ty) (Booked Γ.globals base χ.vars fresh) := by
  unfold storeOps
  split
  · rename_i hd
    have hdecr : Through K pc [.memDecr var] (Booked Γ.globals base χ.vars fresh)
        (Pending Γ.globals base χ.vars fresh var ty) := by
      refine .op fun x I hx hI _ => hK.wp fun v hv => hI _ fun a ha => ?_
      obtain rfl : v = a := by
        have : x.var? var = some a := by cases var <;> exact ha
        exact Option.some.inj (hv.symm.trans this)
      rw [contentCost_of_dynamic hd]
      exact ⟨(Int.sub_add_cancel _ _).trans hx.mem, hx.fresh⟩
    have hstore : Stays K (pc + 1) [var.storeOp]
        (Pending Γ.globals base χ.vars fresh var ty) :=
      .op fun x I hx hI _ => hK.storeOp_wp hfits hvar hx fun y hy _ => hI y hy
    have hincr : Through K (pc + 1 + 1) [.memIncr var]
        (Pending Γ.globals base χ.vars fresh var ty) (Booked Γ.globals base χ.vars fresh) := by
      refine .op fun x I hx hI _ => hK.wp fun v hv => hI _ ?_
      rw [← contentCost_of_dynamic hd]
      exact hx v hv
    exact hdecr.append (hstore.append hincr)
  · rename_i hd
    refine .op fun x I hx hI _ => hK.storeOp_wp hfits hvar
      (hx.pending fun v _ => contentCost_of_static hd) fun y hy ⟨a, ha⟩ => hI y ?_
    exact hy.booked ha (contentCost_of_static hd)

theorem calls (hlibrary : Γ.library = true) (hlay : lay pc = χ)
    (hx : Booked Γ.globals base χ.vars fresh x) {I : Local → Prop}
    (hI : ∀ y, Booked Γ.globals base χ.vars fresh y → I y) : Calls K pc x params ret I := by
  obtain ⟨hglobals, -⟩ := hK.inside hlibrary
  have hcharge : x.charge K.toTerms = base + varsCost χ.vars x.locals := by
    rw [Local.charge, hglobals, hx.mem]
    omega
  intro args rest hs
  refine ⟨?_, ?_, fun globals v _ _ => hI _ ?_⟩
  · have hlen : params.length = args.length := by
      unfold Operands.split? at hs
      split at hs
      · cases hs
        rw [length_reverse, length_take]
        omega
      · cases hs
    exact forall₂_iff_get.2 ⟨hlen, fun i _ _ => hK.passed _ _⟩
  · exact hK.check pc x (hlay ▸ hx.mono (nil_subset _))
  · rw [hcharge, hglobals]
    exact ⟨rfl, hx.fresh⟩

theorem plain_wp (hlay : lay pc = χ) (hp : Plain Γ χ fresh op S S')
    (hx : Booked Γ.globals base χ.vars fresh x)
    (hI : ∀ y, Booked Γ.globals base χ.vars fresh y → I (pc + 1) y) : Wp K op pc x I := by
  have operate : ∀ {g}, op.operate? = some g → Wp K op pc x I := fun hg =>
    hK.wp ((leadsTo_of_operate hg).2 fun stack _ => hI _ (hx.withOperands stack))
  cases hp with
  | const _ => exact hK.wp fun c _ => hI _ (hx.withOperands _)
  | @load var _ _ _ =>
    cases var with
    | localVar slot | globalVar index => exact hK.wp fun v _ => hI _ (hx.withOperands _)
  | callApi hlibrary hf => exact hK.wp ⟨_, hf, hK.calls hlibrary hlay hx hI⟩
  | checkRun _ => exact hK.wp ⟨hK.check pc x (hlay ▸ hx.mono (nil_subset _)), hI x hx⟩
  | _ => exact operate rfl

/-! ## Pieces of code -/

omit hK in
theorem fresh_subset (hfits : Γ.Fits χ fresh) : fresh ⊆ χ.vars := hfits.fresh.subset

theorem spill_flows (hfits : Γ.Fits χ fresh) (hk : Γ.Spare χ k) :
    Stays K pc [.storeLocal k] (Booked Γ.globals base χ.vars fresh) :=
  .op fun _ _ hx hI _ => hK.wp fun v rest _ _ _ =>
    hI _ ((hx.withOperands rest).setSpare hk.2 (fresh_subset hfits) v)

theorem load_flows (var : VarRef) : Stays K pc [var.loadOp]
    (Booked Γ.globals base χ.vars fresh) := by
  refine .op fun x I hx hI _ => ?_
  cases var with
  | localVar slot | globalVar index => exact hK.wp fun v _ => hI _ (hx.withOperands _)

theorem operate_flows (hg : op.operate? = some g) :
    Stays K pc [op] (Booked Γ.globals base χ.vars fresh) :=
  .op fun _ _ hx hI _ => hK.wp ((leadsTo_of_operate hg).2 fun stack _ => hI _ (hx.withOperands stack))

theorem component_flows (hfits : Γ.Fits χ fresh)
    (hvar : Γ.HasVar χ fresh var ty) (hk : Γ.Spare χ k) :
    Stays K pc (componentOps var ty c k) (Booked Γ.globals base χ.vars fresh) := by
  have hkeep : Stays K pc [.storeLocal k, var.loadOp, .loadLocal k, .setField c]
      (Booked Γ.globals base χ.vars fresh) :=
    (hK.spill_flows hfits hk).append ((hK.load_flows var).append
      ((hK.load_flows (.localVar k)).append (hK.operate_flows rfl)))
  exact (hkeep.append (hK.store_flows hfits hvar)).append (hK.load_flows (.localVar k))

theorem ret_flows (hfits : Γ.Fits χ fresh) (hframed : Γ.Framed χ) :
    Through K pc (returnOps Γ χ) (Booked Γ.globals base χ.vars fresh) (fun _ => False) := by
  have hlibrary : Γ.library = true := by
    -- outside a frame there are no frames to leave
    by_contra h
    have hzero := (hK.outside (Bool.not_eq_true _ ▸ h)).2
    obtain ⟨inner, body, outer, rfl, hstatic⟩ := hframed
    have hnodup := hfits.nodup
    rw [show Chain.vars (inner ++ [body, outer]) = Chain.vars inner ++ (body.vars ++ outer.vars) by
      simp [Chain.vars], map_append, map_append] at hnodup
    have hbody := hnodup.of_append_right.of_append_left
    have houter := hnodup.of_append_right.of_append_right
    have hsum := frameStatic_toInt hbody houter
    rw [← hstatic, hzero] at hsum
    have := body.staticSize_toInt hbody
    have := outer.staticSize_toInt houter
    have : frameSize.toInt = 64 := rfl
    have : (0 : Int32).toInt = 0 := rfl
    omega
  obtain ⟨hglobals, hbase⟩ := hK.inside hlibrary
  have hleave : Through K pc (leaveFrameOps Γ.frameStatic χ)
      (Booked Γ.globals base χ.vars fresh) (fun x => x.mem = globalsCost Γ.globals x.globals) := by
    refine hK.entries_flows (forall_mem_leaveFrameOps (fun _ => trivial) fun _ _ _ _ => trivial)
      fun x hx => ?_
    show x.mem + amounts x _ = globalsCost Γ.globals x.globals
    rw [amounts_leaveFrame x hframed hfits.nodup, hx.mem, hbase]
    omega
  have hret : Through K (pc + (leaveFrameOps Γ.frameStatic χ).length) [.ret]
      (fun x => x.mem = globalsCost Γ.globals x.globals) (fun _ => False) := by
    refine .op fun x I hx _ _ => hK.wp ⟨fun _ => ?_, fun _ v _ => hK.passed _ _⟩
    rw [Local.charge, hglobals, hx, Int.sub_self]
  exact hleave.append hret

theorem straightLaws : StraightLaws K Γ lay (bookedFamily Γ base) where
  plain _ hlay hp hx hI := hK.plain_wp hlay hp hx hI
  store hfits _ hvar := hK.store_flows hfits hvar
  component hfits _ hvar _ hk := hK.component_flows hfits hvar hk
  arraySet {χ fresh var t k S pc} hfits _ _ hvar := by
    refine .op fun x I hx hI _ => hK.wp fun a b rest old new _ hold _ => hI _ ?_
    have hold' : ({ x with operands := a :: rest } : Local).var? var = some (.array old) := by
      cases var <;> exact hold
    have hx' : Pending Γ.globals base χ.vars fresh var .array { x with operands := a :: rest } :=
      (hx.withOperands _).pending fun _ _ => rfl
    obtain ⟨c, hc⟩ := set_isSome hold' (.array new)
    exact (hx'.setVar hfits hvar hold' (.array new)).booked hc rfl
  call {χ fresh i params ret S pc x I} _ hlay hf hx hI := by
    have hlibrary : Γ.library = true := by
      by_contra h
      rw [(hK.outside (Bool.not_eq_true _ ▸ h)).1] at hf
      cases hf
    rw [← hK.functions] at hf
    exact hK.wp ⟨_, _, hf, hK.calls hlibrary hlay hx hI⟩
  spill hfits _ _ hk := hK.spill_flows hfits hk
  reload {χ fresh k S pc} _ _ _ _ := hK.load_flows (.localVar k)
  ret hfits _ hframed := hK.ret_flows hfits hframed
  stands _ _ := hK.stands _

theorem init_flows (hfresh : fresh ⊆ vars) (hnodup : ((new ++ vars).map LocalVar.slot).Nodup) :
    Through K pc (initOps new) (Booked Γ.globals (base + staticCost new) vars fresh)
      (Booked Γ.globals base (new ++ vars) (new ++ fresh)) := by
  induction new generalizing vars fresh pc with
  | nil =>
    refine .nil fun x hx => ⟨?_, hx.fresh⟩
    have := hx.mem
    rwa [show staticCost [] = 0 from rfl, Int.add_zero] at this
  | cons v new ih =>
    rw [cons_append, map_cons, nodup_cons] at hnodup
    have hother : ∀ u ∈ vars, u.slot ≠ v.slot := fun u hu heq =>
      hnodup.1 (heq ▸ mem_map_of_mem (mem_append_right _ hu))
    have hcost : staticCost (v :: new) = v.ty.staticSize.toInt + staticCost new := by
      rw [staticCost, map_cons, sum_cons]; rfl
    have hpush : Through K pc [.pushDefault v.ty]
        (Booked Γ.globals (base + staticCost (v :: new)) vars fresh)
        (fun y => Booked Γ.globals (base + staticCost (v :: new)) vars fresh y ∧
          y.operands.head? = some (.default v.ty)) := by
      refine .op fun x I hx hI _ => hK.wp ((leadsTo_of_operate rfl).2 fun stack hs => hI _ ?_)
      cases hs
      exact ⟨hx.withOperands _, rfl⟩
    have hstore : Through K (pc + 1) [.storeLocal v.slot]
        (fun y => Booked Γ.globals (base + staticCost (v :: new)) vars fresh y ∧
          y.operands.head? = some (.default v.ty))
        (Booked Γ.globals (base + staticCost new) (v :: vars) (v :: fresh)) := by
      refine .op fun x I hx hI _ => hK.wp fun a rest old ho hold => hI _ ?_
      obtain ⟨hx, htop⟩ := hx
      rw [ho] at htop
      cases htop
      have hzero := (content_set_self hold).trans contentCost_default
      refine ⟨?_, fun u hu => ?_⟩
      · show x.mem = globalsCost Γ.globals x.globals +
          (base + staticCost new + varsCost (v :: vars) (x.locals.set v.slot.toNat (.default v.ty)))
        rw [varsCost_cons, hzero, varsCost_set_ne hother, hx.mem, hcost]
        omega
      · rcases mem_cons.1 hu with rfl | hu
        · exact hzero
        · exact (content_set_ne (hother u (hfresh hu)) _).trans (hx.fresh u hu)
    have hperm : (new ++ v :: vars).Perm (v :: (new ++ vars)) := perm_middle
    have hrest : Through K (pc + 1 + 1) (initOps new)
        (Booked Γ.globals (base + staticCost new) (v :: vars) (v :: fresh))
        (Booked Γ.globals base (new ++ v :: vars) (new ++ v :: fresh)) :=
      ih (cons_subset_cons v hfresh) ((hperm.map LocalVar.slot).nodup_iff.2 (by
        rw [map_cons, nodup_cons]; exact hnodup))
    refine (hpush.append (hstore.append hrest)).mono (fun _ => id) fun x hx => ⟨?_, fun u hu => ?_⟩
    · rw [cons_append, ← varsCost_perm hperm]
      exact hx.mem
    · exact hx.fresh u (perm_middle.mem_iff.2 hu)

theorem enter_flows {r : Region} (hfits : Γ.Fits χ []) (hr : Γ.NewRegion χ r)
    (hfresh : fresh.Sublist r.vars) : Through K pc r.enterOps (Booked Γ.globals base χ.vars [])
      (Booked Γ.globals base (Chain.vars (r :: χ)) fresh) := by
  obtain ⟨hstatic, hpos, -⟩ := r.staticSize_toInt hr.nodup
  have hcharge : Through K pc (if r.staticSize ≠ 0 then [.memStatic r.staticSize] else [])
      (Booked Γ.globals base χ.vars []) (Booked Γ.globals (base + staticCost r.vars) χ.vars []) := by
    refine hK.entries_flows (fun op hop => ?_) fun x hx => ⟨?_, hx.fresh⟩
    · split at hop
      · rw [mem_singleton.1 hop]; exact trivial
      · cases hop
    · show x.mem + amounts x _ = globalsCost Γ.globals x.globals +
        (base + staticCost r.vars + varsCost χ.vars x.locals)
      rw [(amounts_static x hstatic hpos).1, hx.mem]
      omega
  refine (hcharge.append (hK.init_flows (nil_subset _)
    (hfits.enter hr (nil_sublist _)).nodup)).mono (fun _ => id) fun x hx => hx.mono ?_
  exact List.Subset.trans hfresh.subset (subset_append_left _ _)

theorem leave_flows {r : Region} (hfits : Γ.Fits (r :: χ) []) :
    Through K pc r.leaveOps (Booked Γ.globals base (Chain.vars (r :: χ)) [])
      (Booked Γ.globals base χ.vars []) := by
  have hnodup := hfits.nodup
  rw [show Chain.vars (r :: χ) = r.vars ++ χ.vars from rfl, map_append] at hnodup
  refine hK.entries_flows (forall_mem_leaveOps (fun _ => trivial) fun _ _ => trivial)
    fun x hx => ⟨?_, nofun⟩
  show x.mem + amounts x _ = globalsCost Γ.globals x.globals + (base + varsCost χ.vars x.locals)
  rw [amounts_leave x hnodup.of_append_left, hx.mem,
    show Chain.vars (r :: χ) = r.vars ++ χ.vars from rfl, varsCost_append]
  omega

theorem leaveAll_flows (hfits : Γ.Fits (left ++ rest) []) :
    Through K pc (left.flatMap Region.leaveOps) (Booked Γ.globals base (Chain.vars (left ++ rest)) [])
      (Booked Γ.globals base (Chain.vars rest) []) := by
  induction left generalizing pc with
  | nil => exact .nil fun _ => id
  | cons r left ih => exact (hK.leave_flows hfits).append (ih hfits.tail)

theorem declare_flows (hfits : Γ.Fits χ (v :: fresh)) : Through K pc (declareOps v)
      (Booked Γ.globals base χ.vars (v :: fresh)) (Booked Γ.globals base χ.vars fresh) := by
  have hmem : v ∈ χ.vars := hfits.fresh.subset mem_cons_self
  have hnew : v ∉ fresh := (nodup_cons.1 (((hfits.nodup.of_map _).sublist hfits.fresh))).1
  have hvar : Γ.HasVar χ fresh (.localVar v.slot) v.ty := ⟨hmem, hnew⟩
  have hfits' : Γ.Fits χ fresh := hfits.sublist (sublist_cons_self _ _)
  have hopen : ∀ x, Booked Γ.globals base χ.vars (v :: fresh) x →
      Pending Γ.globals base χ.vars fresh (.localVar v.slot) v.ty x := fun x hx =>
    (hx.mono (subset_cons_self _ _)).pending fun a ha =>
      (content_eq ha).symm.trans (hx.fresh v mem_cons_self)
  unfold declareOps
  split
  · rename_i hd
    have hstore : Through K pc [.storeLocal v.slot]
        (Booked Γ.globals base χ.vars (v :: fresh))
        (Pending Γ.globals base χ.vars fresh (.localVar v.slot) v.ty) :=
      .op fun x I hx hI _ => hK.storeOp_wp hfits' hvar (hopen x hx) fun y hy _ => hI y hy
    have hincr : Through K (pc + 1) [.memIncr (.localVar v.slot)]
        (Pending Γ.globals base χ.vars fresh (.localVar v.slot) v.ty)
        (Booked Γ.globals base χ.vars fresh) := by
      refine .op fun x I hx hI _ => hK.wp fun a ha => hI _ ?_
      rw [← contentCost_of_dynamic hd]
      exact hx a ha
    exact hstore.append hincr
  · rename_i hd
    refine .op fun x I hx hI _ => hK.storeOp_wp hfits' hvar (hopen x hx) fun y hy ⟨a, ha⟩ => hI y ?_
    exact hy.booked ha (contentCost_of_static hd)

theorem laws (hstates : Γ.states = K.states) (hlibrary : Γ.library = true) :
    Laws K Γ lay (bookedFamily Γ base) where
  toStraightLaws := hK.straightLaws
  pop hx := ⟨fun hs => absurd (hK.lax.symm.trans hs) (by decide), fun _ _ _ => hx.withOperands _⟩
  declare hfits _ := hK.declare_flows hfits
  skip hx := hx.mono (subset_cons_self _ _)
  enter hfits _ hr hfresh := hK.enter_flows hfits hr hfresh
  leave hfits _ := hK.leave_flows hfits
  jump hfits _ hL := ((hK.leaveAll_flows hfits).labels nofun).append
    (jump_flows (fun x _ => hK.stands x) hL)
  states := hstates
  library := hlibrary

theorem begin_flows (hlibrary : Γ.library = true) {Y : Layout}
    (hY : Y.Frames Γ params) (hfresh : fresh.Sublist Y.body.vars)
    (hlay : ∀ p, p < Y.enterOps.length → lay p = Y.frame) :
    Through K 0 Y.enterOps (fun x => x.mem = globalsCost Γ.globals x.globals)
      (Booked Γ.globals base Y.frame.vars fresh) := by
  obtain ⟨-, hbase⟩ := hK.inside hlibrary
  have hvars : Chain.vars [Y.outer] = Y.outer.vars := append_nil _
  have hcharge : Through K 0 (.memStatic Y.frameStatic ::
      Y.outer.dynamicSlots.map fun slot => .memIncr (.localVar slot))
      (fun x => x.mem = globalsCost Γ.globals x.globals)
      (Booked Γ.globals (base + staticCost Y.body.vars) Y.outer.vars []) := by
    refine hK.entries_flows (fun op hop => ?_) fun x hx => ⟨?_, nofun⟩
    · rcases mem_cons.1 hop with rfl | hop
      · exact trivial
      · obtain ⟨slot, -, rfl⟩ := mem_map.1 hop
        exact trivial
    · have hsum := amounts_charge x Y.outer
      have hframe := frameStatic_toInt hY.body.nodup hY.outer.nodup
      show x.mem + amounts x (_ :: _) = globalsCost Γ.globals x.globals +
        (base + staticCost Y.body.vars + varsCost Y.outer.vars x.locals)
      rw [← singleton_append, amounts_append, hsum, varsCost_eq, hx, hbase,
        show amounts x [.memStatic Y.frameStatic] = Y.frameStatic.toInt from Int.add_zero _,
        Layout.frameStatic, hframe]
      omega
  have hinit : ∀ {pc}, Through K pc (initOps Y.body.vars)
      (Booked Γ.globals (base + staticCost Y.body.vars) Y.outer.vars [])
      (Booked Γ.globals base Y.frame.vars fresh) := by
    intro pc
    have hnodup := (hY.fits (nil_sublist _)).nodup
    rw [show Y.frame.vars = Y.body.vars ++ Chain.vars [Y.outer] from rfl, hvars] at hnodup ⊢
    refine (hK.init_flows (nil_subset _) hnodup).mono (fun _ => id) fun x hx => hx.mono ?_
    exact List.Subset.trans hfresh.subset (subset_append_left _ _)
  have hcheck : ∀ {pc}, pc < Y.enterOps.length → Stays K pc [.checkRun]
      (Booked Γ.globals base Y.frame.vars fresh) :=
    fun hpc => .op fun x I hx hI _ => hK.plain_wp (hlay _ hpc) (S := []) (.checkRun hlibrary) hx hI
  refine (hcharge.append hinit).append (hcheck ?_)
  simp only [Nat.zero_add, Layout.enterOps, length_append, length_singleton]
  omega

end Accounting

/-! ## The initializer -/

def Linkage.slotCost (Γ : Linkage) (i : Nat) : Int :=
  (Γ.globals[i]?).elim 0 fun ty => ty.staticSize.toInt

/-- In the initializer the global variables that have their first values are accounted for. -/
theorem Accounting.initLaws (hK : ∀ i, Accounting K (Γ.before i) (fun _ => []) (Γ.slotCost i))
    (hglobals : K.globals = Γ.globals) :
    InitLaws K Γ (fun i x => x.mem = globalsCost (Γ.globals.take i) x.globals)
      fun i => bookedFamily (Γ.before i) (Γ.slotCost i) where
  begin {i ty pc} hty := by
    refine .op fun x I hx hI _ => (hK i).wp (hI _ ⟨?_, nofun⟩)
    show x.mem + ty.staticSize.toInt = globalsCost (Γ.globals.take i) x.globals + (Γ.slotCost i + 0)
    rw [Linkage.slotCost, hty, hx]
    exact congrArg _ (Int.add_zero _).symm
  straight {i} _ := (hK i).straightLaws
  set {i ty index pc} hty hindex := by
    have hcost : Γ.slotCost i = ty.staticSize.toInt := by rw [Linkage.slotCost, hty]; rfl
    have hstore : Through K pc [.storeGlobal index]
        (Booked (Γ.globals.take i) (Γ.slotCost i) [] [])
        (fun x => (∃ v, x.globals[i]? = some v) ∧
          x.mem = globalsCost (Γ.globals.take i) x.globals + ty.staticSize.toInt) := by
      refine .op fun x I hx hI _ => (hK i).wp fun v rest old _ hold => hI _ ⟨⟨v, ?_⟩, ?_⟩
      · change x.globals[index.toNat]? = some old at hold
        rw [hindex] at hold
        show (x.globals.set index.toNat v)[i]? = some v
        rw [hindex]
        exact getElem?_set_self (List.getElem?_eq_some_iff.1 hold).1
      · show x.mem = globalsCost (Γ.globals.take i) (x.globals.set index.toNat v) + _
        rw [globalsCost_set_of_le (by rw [length_take]; omega), hx.mem, hcost]
        exact congrArg _ (Int.add_zero _)
    have hnext : ∀ x : Local, ∀ v, x.globals[i]? = some v →
        x.mem = globalsCost (Γ.globals.take i) x.globals + ty.staticSize.toInt →
        x.mem + contentCost ty v = globalsCost (Γ.globals.take (i + 1)) x.globals := by
      intro x v hv hx
      rw [globalsCost_take_succ hty hv, hx]
      omega
    split
    · rename_i hd
      have hincr : Through K (pc + 1) [.memIncr (.globalVar index)]
          (fun x => (∃ v, x.globals[i]? = some v) ∧
            x.mem = globalsCost (Γ.globals.take i) x.globals + ty.staticSize.toInt)
          (fun x => x.mem = globalsCost (Γ.globals.take (i + 1)) x.globals) := by
        refine .op fun x I hx hI _ => (hK i).wp fun v hv => hI _ ?_
        change x.globals[index.toNat]? = some v at hv
        rw [hindex] at hv
        have := hnext x v hv hx.2
        rwa [contentCost_of_dynamic hd] at this
      exact hstore.append hincr
    · rename_i hd
      refine hstore.mono (fun _ => id) fun x hx => ?_
      obtain ⟨⟨v, hv⟩, hmem⟩ := hx
      have := hnext x v hv hmem
      rwa [contentCost_of_static hd, Int.add_zero] at this
  ret {pc} := by
    refine .op fun x I hx _ _ => (hK 0).wp ⟨fun _ => ?_, fun _ _ _ => (hK 0).passed _ _⟩
    rw [take_length] at hx
    rw [Local.charge, hglobals, hx, Int.sub_self]

end Compile

open Compile

/-! ## Modules -/

/-- The terms on which functions keep account of memory. The given functions can be called, and the
given number of states can be asked for. -/
def Module.accounting (m : Module) (functions : List (List Ty × Ty)) (states : Nat) : Terms where
  globals := m.globals.map GlobalSlot.ty
  constants := m.constants.toList
  functions
  states
  Shared := fun _ => True
  Passed := fun _ _ => True
  balanced := true

namespace Module

def books (m : Module) (tests : Bool) (Y : UInt16 → Layout) (Inv : UInt16 → Nat → Local → Prop) :
    Annotation :=
  ⟨m.accounting (m.linkage tests).functions m.states.length,
    fun i p locals κ => κ = (Y i).frameCost p locals, false, Inv, fun _ _ _ => True⟩

/-- The functions of a compiled module keep account of memory. -/
theorem Laid.accounting {m : Module} (hlaid : m.Laid script tests Y) :
    ∃ Inv, (m.books tests Y Inv).Valid m ∧ (∀ i g, m.function? i = some g →
        i.toNat < m.init.toNat → (m.books tests Y Inv).Starts i g) ∧
      ∀ i p x, Inv i p x → i.toNat < m.init.toNat := by
  refine hlaid.annotation (fun Y p locals κ => κ = Y.frameCost p locals) (fun _ _ _ => True) rfl rfl
    fun g Y blocks hcode => ?_
  let K : Contract := { m.accounting (m.linkage tests).functions m.states.length with
    ret := g.ret, Check := fun p locals κ => κ = Y.frameCost p locals, strict := false }
  have hcheck : ∀ p x, Booked (m.globals.map GlobalSlot.ty) frameSize.toInt (Y.chainAt p).vars [] x →
      x.charge K.toTerms = Y.frameCost p x.locals := by
    intro p x hx
    rw [Local.charge, hx.mem]
    exact add_sub_cancel_left _ _
  have hK : Accounting K (m.frameLinkage tests g Y) Y.chainAt frameSize.toInt :=
    ⟨fun _ => trivial, fun _ _ => trivial, fun _ _ => trivial, rfl, rfl, hcheck,
      fun _ => ⟨rfl, rfl⟩, nofun⟩
  obtain ⟨I, hI, hstart⟩ := hcode.annotated (hK.laws rfl rfl) fun fresh hY hfresh hlay =>
    hK.begin_flows rfl hY hfresh hlay
  exact ⟨I, hI, fun args globals _ _ => hstart _ rfl⟩

theorem Coded.initAccounting (hcoded : m.Coded script tests) :
    ∃ Inv g, Annotation.Valid ⟨m.accounting [] 0, fun _ _ _ _ => True, false, Inv, fun _ _ _ => True⟩ m ∧
      m.function? m.init = some g ∧
      ∀ locals operands globals, Inv m.init 0 ⟨locals, operands, globals, 0⟩ := by
  let K : Contract :=
    { m.accounting [] 0 with ret := .void, Check := fun _ _ _ => True, strict := false }
  have hK : ∀ n, Accounting K ((m.linkage tests).before n) (fun _ => [])
      ((m.linkage tests).slotCost n) := fun n =>
    ⟨fun _ => trivial, fun _ _ => trivial, fun _ _ => trivial, rfl, rfl, fun _ _ _ => trivial, nofun,
      fun _ => ⟨rfl, rfl⟩⟩
  obtain ⟨Inv, g, hvalid, hg, hstart⟩ := hcoded.initAnnotation rfl rfl (Accounting.initLaws hK rfl)
  exact ⟨Inv, g, hvalid, hg, fun locals operands globals => hstart _ rfl⟩

end Module

end EventScript
