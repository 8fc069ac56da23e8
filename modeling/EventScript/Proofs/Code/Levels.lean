import EventScript.Proofs.Responsiveness

/-!
# Operands of code

How many operands an instruction takes and leaves (`Op.takes`, `Op.gives`) adds up over code. In
compiled code every instruction finds its operands, and where a jump lands there are as many as
after the jump (`FunctionCode.levels`, `InitCode.levels`). The code of an expression leaves one more
operand than it found, or none more if the type is `void` (`Straight.levels`).
-/

namespace EventScript

open List

def Ty.arity (ty : Ty) : Nat := if ty = .void then 0 else 1

/-- How many operands calls of functions take and leave, and how many a return takes. -/
structure Arities where
  call : UInt16 → Nat × Nat
  ret : Nat

namespace Op

def takes (A : Arities) : Op → Nat
  | .pop | .dup | .neg | .bitNot | .not | .arrayCount => 1
  | .arrayGet | .arrayKey | .arrayValue => 2
  | .makeVector => 3
  | .makeRotation => 4
  | .ret => A.ret
  | .storeLocal _ | .storeGlobal _ | .cast _ | .isType _ | .getField _ | .jumpIfFalse _
  | .jumpIfTrue _ => 1
  | .castSecond _ | .binary _ | .setField _ | .arraySet _ => 2
  | .makeList n => n.toNat
  | .call i => (A.call i).1
  | .callApi i => (ApiFunction.get? i).elim 0 fun f => f.params.length
  | _ => 0

/-- The number of operands that an instruction leaves in place of those that it takes. A call leaves
its value when it returns. -/
def gives (A : Arities) : Op → Nat
  | .pushUndefined | .neg | .bitNot | .not | .arrayCount | .arrayGet | .arrayKey | .arrayValue
  | .makeVector | .makeRotation => 1
  | .dup => 2
  | .pushConst _ | .pushDefault _ | .loadLocal _ | .loadGlobal _ | .cast _ | .isType _ | .getField _
  | .binary _ | .setField _ | .arraySet _ | .makeList _ => 1
  | .castSecond _ => 2
  | .call i => (A.call i).2
  | .callApi i => (ApiFunction.get? i).elim 0 fun f => f.ret.arity
  | _ => 0

def shift (A : Arities) (op : Op) (n : Nat) : Nat := n - op.takes A + op.gives A

/-- With so many operands at each place, the instruction finds its own, and where it jumps there are
as many as after it. -/
structure Leveled (A : Arities) (L : Nat → Nat) (pc : Nat) (op : Op) : Prop where
  finds : op.takes A ≤ L pc
  next : L (pc + 1) = op.shift A (L pc)
  lands : ∀ target, op.target? = some target → L target.toNat = L (pc + 1)

def neutral : Op → Bool
  | .checkRun | .memStatic _ | .memIncr _ | .memDecr _ | .setState _ => true
  | _ => false

end Op

namespace Compile

variable {op : Op}

def operandsAfter (A : Arities) (n : Nat) (code : List Op) : Nat :=
  code.foldl (fun n op => op.shift A n) n

/-- The numbers add up over the code. -/
def Counts (A : Arities) (L : Nat → Nat) : (pc : Nat) → List Op → Prop :=
  Each fun pc op => L (pc + 1) = op.shift A (L pc)

theorem counts_operandsAfter (A : Arities) (n pc : Nat) (code : List Op) :
    Counts A (fun p => operandsAfter A n (code.take (p - pc))) pc code := by
  refine each_iff.2 fun k op hk => ?_
  have htake : code.take (k + 1) = code.take k ++ [op] := by
    rw [take_add_one, hk]
    rfl
  dsimp only
  rw [show pc + k + 1 - pc = k + 1 by omega, show pc + k - pc = k by omega, htake, operandsAfter,
    foldl_append]
  rfl

/-- What the numbers say about code at a place where there are `n` operands: it leaves `k`, there are
none at its labels, and each instruction finds its own, if `T` holds of the places that it jumps
to. -/
def Levels (A : Arities) (L : Nat → Nat) (T : Prop) (l : List Site) (n pc : Nat) (code : List Op)
    (k : Nat) : Prop :=
  Counts A L pc code → L pc = n →
    L (pc + code.length) = k ∧ (∀ site ∈ l, L site.pc = 0) ∧ (T → Each (Op.Leveled A L) pc code)

namespace Levels

theorem nil : Levels A L T [] n pc [] n := fun _ hn => ⟨hn, forall_mem_nil _, fun _ => trivial⟩

theorem append (ha : Levels A L T l n pc a k) (hb : Levels A L T l' k (pc + a.length) b k') :
    Levels A L T (l ++ l') n pc (a ++ b) k' := by
  intro hc hn
  obtain ⟨hca, hcb⟩ := each_append.1 hc
  obtain ⟨hk, hl, heach⟩ := ha hca hn
  obtain ⟨hk', hl', heach'⟩ := hb hcb hk
  refine ⟨?_, forall_mem_append.2 ⟨hl, hl'⟩, fun hT => each_append.2 ⟨heach hT, heach' hT⟩⟩
  rw [length_append, ← Nat.add_assoc]
  exact hk'

theorem cons (hop : Levels A L T [] n pc [op] k) (h : Levels A L T l k (pc + 1) code k') :
    Levels A L T l n pc (op :: code) k' := hop.append h

theorem imp (h : Levels A L T l n pc code k) (hT : T' → T) : Levels A L T' l n pc code k := by
  intro hc hn
  obtain ⟨hk, hl, heach⟩ := h hc hn
  exact ⟨hk, hl, fun h => heach (hT h)⟩

/-- A jump to the start of the code, or to its end, lands where the number is known. -/
theorem opens (h : Levels A L (L place = n ∧ T) l n pc code k) (hplace : place = pc) :
    Levels A L T l n pc code k :=
  fun hc hn => h.imp (fun hT => ⟨hplace ▸ hn, hT⟩) hc hn

@[inherit_doc opens]
theorem closes (h : Levels A L (L place = k ∧ T) l n pc code k)
    (hplace : place = pc + code.length) : Levels A L T l n pc code k :=
  fun hc hn => h.imp (fun hT => ⟨hplace ▸ (h hc hn).1, hT⟩) hc hn

theorem jump (htarget : op.target? = some target) (hn : op.takes A ≤ n)
    (hlands : T → L target.toNat = op.shift A n) : Levels A L T [] n pc [op] (op.shift A n) := by
  rintro hc rfl
  refine ⟨hc.1, forall_mem_nil _, fun hT => ⟨⟨hn, hc.1, fun t ht => ?_⟩, trivial⟩⟩
  cases htarget.symm.trans ht
  exact (hlands hT).trans hc.1.symm

theorem single (htarget : op.target? = none) (hn : op.takes A ≤ n) :
    Levels A L T [] n pc [op] (op.shift A n) := by
  rintro hc rfl
  refine ⟨hc.1, forall_mem_nil _, fun _ => ⟨⟨hn, hc.1, fun t ht => ?_⟩, trivial⟩⟩
  cases htarget.symm.trans ht

theorem neutral (h : ∀ op ∈ code, op.neutral = true) : Levels A L T [] n pc code n := by
  induction code generalizing pc with
  | nil => exact .nil
  | cons op code ih =>
    obtain ⟨hop, hrest⟩ := forall_mem_cons.1 h
    refine .cons ?_ (ih hrest)
    cases op with
    | memStatic | memIncr | memDecr | checkRun | setState => exact .single rfl (Nat.zero_le _)
    | _ => cases hop

end Levels

/-! ## Pieces of code -/

variable {Γ : Linkage}

/-- The numbers are those of the functions that the code can call, and of its own value. -/
structure Linkage.Counted (Γ : Linkage) (A : Arities) : Prop where
  call : ∀ i params ret, Γ.functions[i.toNat]? = some (params, ret) →
    A.call i = (params.length, ret.arity)
  ret : A.ret = Γ.ret.arity

theorem Linkage.Counted.before (h : Γ.Counted A) (i : Nat) : (Γ.before i).Counted A :=
  ⟨nofun, h.ret⟩

theorem length_returned (ty : Ty) (S : List Ty) : (returned ty S).length = ty.arity + S.length := by
  unfold returned Ty.arity
  split
  · rw [Nat.zero_add]
  · rw [length_cons, Nat.add_comm]

theorem ret_levels (hA : Γ.Counted A) : Levels A L T [] (Γ.ret.arity + n) pc [.ret] n := by
  have htakes : Op.ret.takes A = Γ.ret.arity := hA.ret
  have hret : Levels A L T [] (Γ.ret.arity + n) pc [.ret] _ :=
    .single rfl (htakes.trans_le (Nat.le_add_right _ n))
  rwa [Op.shift, htakes, Nat.add_sub_cancel_left] at hret

theorem returnOps_levels (hA : Γ.Counted A) :
    Levels A L T [] (Γ.ret.arity + n) pc (returnOps Γ χ) n :=
  (Levels.neutral (forall_mem_leaveFrameOps (fun _ => rfl) fun _ _ _ _ => rfl)).append (ret_levels hA)

theorem returnDefaultOps_levels (hA : Γ.Counted A) :
    Levels A L T [] n pc (returnDefaultOps Γ χ) n := by
  unfold returnDefaultOps
  have hreturn {pc : Nat} : Levels A L T [] (Γ.ret.arity + n) pc (returnOps Γ χ) n :=
    returnOps_levels hA
  unfold Ty.arity at hreturn
  split
  · rename_i hret
    rw [if_neg hret, Nat.add_comm] at hreturn
    exact .cons (.single rfl (Nat.zero_le _)) hreturn
  · rename_i hret
    rw [if_pos (not_not.1 hret), Nat.zero_add] at hreturn
    exact hreturn

theorem initOps_levels : Levels A L T [] n pc (initOps vars) n := by
  induction vars generalizing pc with
  | nil => exact .nil
  | cons v vars ih =>
    exact .cons (.single rfl (Nat.zero_le _)) (.cons (.single rfl (Nat.le_add_left 1 n)) ih)

theorem enterOps_levels (r : Region) : Levels A L T [] n pc r.enterOps n :=
  (Levels.neutral (forall_mem_ite rfl)).append initOps_levels

theorem loadOp_levels (var : VarRef) : Levels A L T [] n pc [var.loadOp] (n + 1) := by
  cases var <;> exact .single rfl (Nat.zero_le _)

theorem storeOp_levels (var : VarRef) : Levels A L T [] (n + 1) pc [var.storeOp] n := by
  cases var <;> exact .single rfl (Nat.le_add_left 1 n)

theorem storeOps_levels (var : VarRef) (ty : Ty) :
    Levels A L T [] (n + 1) pc (storeOps var ty) n := by
  unfold storeOps
  split
  · exact .cons (.single rfl (Nat.zero_le _))
      (.cons (storeOp_levels var) (.single rfl (Nat.zero_le _)))
  · exact storeOp_levels var

theorem componentOps_levels : Levels A L T [] (n + 1) pc (componentOps var ty c k) (n + 1) := by
  have hset : Levels A L T [] (n + 1) pc [.storeLocal k, var.loadOp, .loadLocal k, .setField c]
      (n + 1) := .cons (.single rfl (Nat.le_add_left 1 n)) (.cons (loadOp_levels var)
    (.cons (.single rfl (Nat.zero_le _)) (.single rfl (Nat.le_add_left 2 n))))
  exact (hset.append (storeOps_levels var ty)).append (.single rfl (Nat.zero_le _))

/-! ## Generated code -/

theorem Plain.shift (h : Plain Γ χ fresh op S S') (htests : Γ.tests = false) :
    op.takes A ≤ S.length ∧ op.shift A S.length = S'.length ∧ op.target? = none := by
  cases h with
  | @load var _ _ _ => cases var <;> exact ⟨Nat.zero_le _, rfl, rfl⟩
  | const _ | default _ | undefined _ | checkRun _ => exact ⟨Nat.zero_le _, rfl, rfl⟩
  | isType _ ht =>
    rw [returned, if_neg (ht.resolve_left (by simp [htests]))]
    exact ⟨Nat.le_add_left .., rfl, rfl⟩
  | @makeList n items S hn =>
    rw [length_append, hn]
    refine ⟨Nat.le_add_right .., ?_, rfl⟩
    show n.toNat + S.length - n.toNat + 1 = S.length + 1
    omega
  | @callApi i f S _ hf =>
    have htakes : (Op.callApi i).takes A = f.params.length := by rw [Op.takes, hf]; rfl
    have hgives : (Op.callApi i).gives A = f.ret.arity := by rw [Op.gives, hf]; rfl
    have hlen : (f.signature.reverse ++ S).length = f.params.length + S.length := by
      rw [length_append, length_reverse, ApiFunction.signature, length_map]
    refine ⟨?_, ?_, rfl⟩
    · rw [htakes, hlen]
      exact Nat.le_add_right ..
    · rw [Op.shift, htakes, hgives, hlen, length_returned]
      omega
  | _ =>
    refine ⟨?_, ?_, rfl⟩
    · simp only [Op.takes, length_cons]; omega
    · simp only [Op.shift, Op.takes, Op.gives, length_cons]; omega

/-- Straight code takes and leaves as many operands as it has types for. -/
theorem Straight.levels (h : Straight Γ χ fresh pc code S S') (htests : Γ.tests = false)
    (hA : Γ.Counted A) : Levels A L T [] S.length pc code S'.length := by
  induction h with
  | nil => exact .nil
  | append _ _ ih1 ih2 => exact ih1.append ih2
  | plain h =>
    obtain ⟨htakes, hshift, htarget⟩ := h.shift (A := A) htests
    exact hshift ▸ .single htarget htakes
  | store _ => exact storeOps_levels _ _
  | component _ _ _ => exact componentOps_levels
  | arraySet _ _ => exact .single rfl (Nat.le_add_left 2 _)
  | @call pc i params ret target S hi htarget =>
    have hA' := hA.call i params ret hi
    have htakes : (Op.call i).takes A = params.length := by rw [Op.takes, hA']
    have hlen : (params.reverse ++ S).length = params.length + S.length := by
      rw [length_append, length_reverse]
    have hshift : (Op.call i).shift A (params.reverse ++ S).length = (returned ret S).length := by
      rw [Op.shift, htakes, hlen, length_returned, Op.gives, hA']
      omega
    have hcall : Levels A L T [] (params.reverse ++ S).length pc [.call i] _ :=
      .single rfl (by rw [htakes, hlen]; exact Nat.le_add_right ..)
    rw [hshift] at hcall
    refine hcall.cons (.closes (.cons (.jump rfl (Nat.zero_le _) And.left)
      (returnDefaultOps_levels hA)) ?_)
    rw [htarget, length_cons]
    omega
  | spill _ _ => exact .single rfl (Nat.le_add_left 1 _)
  | reload _ _ => exact .single rfl (Nat.zero_le _)

/-- There are no operands at the places of labels. -/
def Labels.Bare (Λ : Labels) (L : Nat → Nat) : Prop :=
  ∀ name, Λ.blockOf name ≠ none → ∃ place, Λ.mark name = some place ∧ L place = 0

/-- Statements leave no operands, and there are none at labels. -/
theorem Structured.levels (h : Structured Γ Λ χ fresh pc code fresh' o l)
    (htests : Γ.tests = false) (hA : Γ.Counted A) : Levels A L (Λ.Bare L) l 0 pc code 0 := by
  have start {T : Prop} {pc : Nat} : Levels A L T [] 0 pc [.checkRun] 0 :=
    .single rfl (Nat.zero_le _)
  -- what comes after a test, which has left one operand
  have branch {T : Prop} {pc : Nat} {target : UInt32} (hT : T → L target.toNat = 0) :
      Levels A L T [] 1 pc [.jumpIfFalse target] 0 := .jump rfl le_rfl hT
  have goto {T : Prop} {pc : Nat} {target : UInt32} (hT : T → L target.toNat = 0) :
      Levels A L T [] 0 pc [.jump target] 0 := .jump rfl (Nat.zero_le _) hT
  induction h with
  | nil | declareDefault => exact .nil
  | append _ _ ih1 ih2 => exact ih1.append ih2
  | straight h => exact h.levels htests hA
  | declare h =>
    exact (h.levels htests hA).append
      (.cons (.single rfl (Nat.le_refl 1)) (.neutral (forall_mem_ite rfl)))
  | @block χ id fresh pc code o l r _ _ _ _ ih =>
    rw [← append_nil l]
    exact ((enterOps_levels r).append ih).append
      (.neutral (forall_mem_leaveOps (fun _ => rfl) fun _ _ => rfl))
  | ifThen h _ htarget ih =>
    refine ((h.levels htests hA).append (.cons (branch And.left) (ih.imp And.right))).closes ?_
    rw [htarget, length_append, length_cons]
    omega
  | @ifElse χ pc cond body other t middle target o1 o2 l1 l2 h _ _ hmiddle htarget ih1 ih2 =>
    have hfirst : Levels A L (L target.toNat = 0 ∧ Λ.Bare L) (l1 ++ []) 0 pc
        (cond ++ .jumpIfFalse middle :: (body ++ [.jump target])) 0 := by
      refine ((h.levels htests hA).append (.cons (branch And.left)
        ((ih1.imp fun hT => hT.2.2).append (goto fun hT => hT.2.1)))).closes ?_
      simp only [hmiddle, length_append, length_cons, length_nil]
      omega
    have hlen : pc + (cond ++ Op.jumpIfFalse middle :: (body ++ [.jump target])).length =
        pc + cond.length + 1 + body.length + 1 := by
      simp only [length_append, length_cons, length_nil]
      omega
    have hboth := hfirst.append (hlen ▸ ih2.imp And.right)
    simp only [append_assoc, cons_append, nil_append] at hboth
    refine hboth.closes ?_
    simp only [htarget, length_append, length_cons]
    omega
  | @loop χ pc cond body t top target o l h _ htop htarget ih =>
    rw [← append_nil l]
    refine .opens (.closes (start.cons ((h.levels htests hA).append (.cons (branch And.left)
      ((ih.imp fun hT => hT.2.2).append (goto fun hT => hT.2.1))))) ?_) htop
    simp only [htarget, length_append, length_cons, length_nil]
    omega
  | @forever χ pc body top o l _ htop ih =>
    rw [← append_nil l]
    exact (start.cons ((ih.imp And.right).append (goto And.left))).opens htop
  | @doWhile χ pc body cond t top o l _ h htop ih =>
    rw [← append_nil l]
    exact (start.cons ((ih.imp And.right).append ((h.levels htests hA).append
      (.jump rfl le_rfl And.left)))).opens htop
  | label =>
    intro hc hL
    obtain ⟨hk, -, heach⟩ := (Levels.neutral (T := True) (forall_mem_ite rfl)) hc hL
    exact ⟨hk, forall_mem_singleton.2 hL, fun _ => heach trivial⟩
  | @jump χ left rest r name pc target _ _ hname hmark =>
    refine (Levels.neutral (forall_mem_flatMap_leaveOps (fun _ => rfl) fun _ _ _ _ => rfl)).append
      (goto fun hΛ => ?_)
    obtain ⟨place, hplace, hlands⟩ := hΛ name hname
    rw [(hmark place hplace).1]
    exact hlands
  | ret h =>
    have hvalue := h.levels (L := L) (T := Λ.Bare L) htests hA
    rw [length_returned] at hvalue
    exact hvalue.append (returnOps_levels hA)
  | state _ => exact .cons (.single rfl (Nat.zero_le _)) (returnDefaultOps_levels hA)

theorem FunctionCode.levels (h : FunctionCode Γ params blocks Y ops) (htests : Γ.tests = false)
    (hA : Γ.Counted A) : Levels A L True [] 0 0 ops 0 := by
  obtain @⟨Λ, id, fresh, code, l, -, -, -, -, -, -, -, -, -, hcode, -, -, hsites⟩ := h
  have hstart : ∀ op ∈ Op.memStatic Y.frameStatic ::
      Y.outer.dynamicSlots.map fun slot => .memIncr (.localVar slot), op.neutral = true :=
    forall_mem_cons.2 ⟨rfl, forall_mem_map.2 fun _ _ => rfl⟩
  have henter : Levels A L (Λ.Bare L) [] 0 0 Y.enterOps 0 :=
    ((Levels.neutral hstart).append initOps_levels).append (.single rfl (Nat.zero_le _))
  have hbody := hcode.levels (L := L) htests hA
  rw [← Nat.zero_add Y.enterOps.length] at hbody
  intro hc hL
  obtain ⟨hk, hl, heach⟩ := ((henter.append hbody).append (returnDefaultOps_levels hA)) hc hL
  refine ⟨hk, forall_mem_nil _, fun _ => heach fun name hname => ?_⟩
  obtain ⟨b, hb⟩ := Option.ne_none_iff_exists'.1 hname
  obtain ⟨site, hsite, -, hmark⟩ := hsites name b hb
  exact ⟨site.pc, hmark, hl site (mem_append_left _ hsite)⟩

theorem InitCode.levels (h : InitCode Γ i pc code) (htests : Γ.tests = false)
    (hA : Γ.Counted A) (hret : Γ.ret = .void) : Levels A L True [] 0 pc code 0 := by
  induction h with
  | @nil pc =>
    have hlevels : Levels A L True [] (Γ.ret.arity + 0) pc [.ret] 0 := ret_levels hA
    rwa [hret] at hlevels
  | @cons i pc ty index code rest _ _ hcode _ ih =>
    have hvalue := hcode.levels (L := L) (T := True) htests (hA.before i)
    have hstore : Levels A L True [] 1 (pc + 1 + code.length) (.storeGlobal index ::
        if ty.hasDynamicSize then [.memIncr (.globalVar index)] else []) 0 :=
      .cons (.single rfl (Nat.le_refl 1)) (.neutral (forall_mem_ite rfl))
    exact .append (.cons (.single rfl (Nat.zero_le _)) (hvalue.append hstore)) ih

end Compile

end EventScript
