import EventScript.Proofs.Code.Levels
import EventScript.Proofs.Lifecycle

/-!
# Operand stacks

Compiled code never looks for an operand that is not there (`Module.operands_disciplined`), unless
the type of a call without a value is tested.

1. Modules: every instruction of a compiled function finds its operands (`Module.Leveled`).
2. Steps: a step takes operands of the innermost call and leaves others, calls a function, or
   returns a value to the caller (`Machine.Transfers`). A machine misses an operand only if there
   are fewer than the instruction takes (`Machine.step_underflow`).
3. Active calls: each has as many operands as its code says, less those that it awaits
   (`Frame.Rises`, `Machine.Aligned`). Steps keep it so, and so does whatever is done with an
   instance (`Module.Coded.alignment_kept`).
4. Code of expressions: what was there before stays (`Machine.Piece.balances`).
-/

namespace EventScript

open List Option Operands

open Compile

/-! ## Modules -/

def Module.arities (m : Module) (ret : Ty) : Arities where
  call i := (m.function? i).elim (0, 0) fun g => (g.params.length, g.ret.arity)
  ret := ret.arity

def Module.level (m : Module) (g : Function) (pc : Nat) : Nat :=
  operandsAfter (m.arities g.ret) 0 (g.ops.toList.take pc)

/-- All functions of a module find their operands. -/
def Module.Leveled (m : Module) : Prop :=
  ∀ i g, m.function? i = some g →
    Each (Op.Leveled (m.arities g.ret) (m.level g)) 0 g.ops.toList

theorem Module.linkage_counted (m : Module) (tests : Bool) (slots : Nat) (ret : Ty)
    (frameStatic : Int32) :
    ((m.linkage tests).withFrame slots ret frameStatic).Counted (m.arities ret) where
  call i params ret' h := by
    obtain ⟨g, hg, heq⟩ := map_eq_some_iff.1 (getElem?_map ▸ h)
    cases heq
    show (m.function? i).elim _ _ = _
    have hlt : i.toNat < m.init.toNat := by
      have := (List.getElem?_eq_some_iff.1 hg).1
      rw [length_take] at this
      omega
    rw [getElem?_take_of_lt hlt, Array.getElem?_toList] at hg
    rw [show m.function? i = some g from hg]
    rfl
  ret := rfl

variable {m : Module} {script : Script}

theorem Module.Coded.leveled (hcoded : m.Coded script false) : m.Leveled := by
  intro i g hg
  have hcounts : Counts (m.arities g.ret) (m.level g) 0 g.ops.toList :=
    counts_operandsAfter (m.arities g.ret) 0 0 g.ops.toList
  by_cases hi : i.toNat < m.init.toNat
  · obtain ⟨Y, hlaid⟩ := hcoded.exists_laid
    obtain ⟨f, -, -, -, hcode⟩ := hlaid i g hg hi
    exact (hcode.levels rfl (m.linkage_counted ..) hcounts rfl).2.2 trivial
  · obtain ⟨hret, hcode⟩ := hcoded.init_of_ge hg hi
    rw [hret] at hcounts ⊢
    exact (hcode.levels rfl (m.linkage_counted false Gen.maxLocals .void 0) rfl hcounts rfl).2.2
      trivial

/-! ## Steps -/

/-- So many operands on top have been replaced by so many others. -/
def Exchanges (taken given : Nat) (stack stack' : List Value) : Prop :=
  ∃ new, new.length = given ∧ stack' = new ++ stack.drop taken

theorem Exchanges.refl (stack : List Value) : Exchanges 0 0 stack stack := ⟨[], rfl, rfl⟩

theorem Exchanges.push (v : Value) (stack : List Value) : Exchanges 0 1 stack (v :: stack) :=
  ⟨[v], rfl, rfl⟩

theorem Exchanges.above (h : Exchanges taken given (top ++ floor) stack') (hle : taken ≤ top.length) :
    ∃ top', stack' = top' ++ floor ∧ top'.length = top.length - taken + given := by
  obtain ⟨new, hnew, rfl⟩ := h
  refine ⟨new ++ top.drop taken, ?_, ?_⟩
  · rw [drop_append_of_le_length hle, append_assoc]
  · rw [length_append, length_drop, hnew, Nat.add_comm]

namespace Operands

theorem unary_exchanges (h : unary f stack = .ok stack') : Exchanges 1 1 stack stack' := by
  cases stack with
  | nil => cases h
  | cons v rest =>
    obtain ⟨r, -, rfl⟩ := pushResult_ok h
    exact ⟨[r], rfl, rfl⟩

theorem binary_exchanges {f : Value → Value → Except Fault Value}
    (h : binary f stack = .ok stack') : Exchanges 2 1 stack stack' := by
  match stack, h with
  | a :: b :: rest, h =>
    obtain ⟨r, -, rfl⟩ := pushResult_ok h
    exact ⟨[r], rfl, rfl⟩

theorem below_exchanges (h : below f stack = .ok stack') : Exchanges 2 2 stack stack' := by
  match stack, h with
  | a :: b :: rest, h =>
    dsimp only [below] at h
    split at h
    · cases h; exact ⟨[a, _], rfl, rfl⟩
    · cases h

theorem gather_exchanges {f : List Value → Value} (h : gather n f stack = .ok stack') :
    Exchanges n 1 stack stack' := by
  unfold gather at h
  split at h
  · rename_i hs
    cases h
    unfold split? at hs
    split at hs
    · cases hs; exact ⟨[_], rfl, rfl⟩
    · cases hs
  · cases h

theorem operate_exchanges {op : Op} (hg : op.operate? = some g)
    (h : g stack = .ok stack') : Exchanges (op.takes A) (op.gives A) stack stack' := by
  cases op with
  | pushDefault | pushUndefined => cases hg; cases h; exact .push _ _
  | pop =>
    cases hg
    cases stack with
    | nil => cases h
    | cons v rest => cases h; exact ⟨[], rfl, rfl⟩
  | dup =>
    cases hg
    cases stack with
    | nil => cases h
    | cons v rest => cases h; exact ⟨[v, v], rfl, rfl⟩
  | cast | neg | bitNot | not | isType | getField | arrayCount =>
    cases hg; exact unary_exchanges h
  | castSecond => cases hg; exact below_exchanges h
  | binary | setField | arrayGet | arrayKey | arrayValue => cases hg; exact binary_exchanges h
  | makeList | makeVector | makeRotation => cases hg; exact gather_exchanges h
  | _ => cases hg

abbrev missed : Fault := .corrupt .underflow

theorem pushResult_finds (hx : x ≠ .error missed) :
    pushResult rest x ≠ .error (missed, stack') := fun h => hx (pushResult_error h)

theorem unary_finds (hf : ∀ v, f v ≠ .error missed) (hn : 1 ≤ stack.length) :
    unary f stack ≠ .error (missed, stack') := by
  cases stack with
  | nil => cases hn
  | cons v rest => exact pushResult_finds (hf v)

theorem binary_finds {f : Value → Value → Except Fault Value} (hf : ∀ a b, f a b ≠ .error missed)
    (hn : 2 ≤ stack.length) : binary f stack ≠ .error (missed, stack') := by
  match stack, hn with
  | a :: b :: rest, _ => exact pushResult_finds (hf a b)

theorem below_finds (hf : ∀ v, f v ≠ .error missed) (hn : 2 ≤ stack.length) :
    below f stack ≠ .error (missed, stack') := by
  match stack, hn with
  | a :: b :: rest, _ =>
    intro h
    dsimp only [below] at h
    split at h
    · cases h
    rename_i he
    cases h
    exact hf b he

theorem gather_finds {f : List Value → Value} (hn : n ≤ stack.length) :
    gather n f stack ≠ .error (missed, stack') := by
  unfold gather split?
  rw [if_pos hn]
  nofun

theorem cast_finds (v : Value) (ty : Ty) : v.cast ty ≠ .error missed := by
  unfold Value.cast
  split <;> nofun

theorem entries_finds (v : Value) {f : Entries → Except Fault α}
    (hf : ∀ es, f es ≠ .error missed) : (do f (← v.entries)) ≠ .error missed := by
  cases v with
  | array es => exact hf es
  | _ => nofun

theorem ofValue_finds (k : Value) (f : ArrayKey → α) :
    (do return f (← ArrayKey.ofValue k)) ≠ Except.error missed := by
  unfold ArrayKey.ofValue
  split <;> nofun

theorem operate_finds {op : Op} (hg : op.operate? = some g)
    (hn : op.takes A ≤ stack.length) : g stack ≠ .error (missed, stack') := by
  cases op with
  | pushDefault | pushUndefined => cases hg; nofun
  | pop | dup =>
    cases hg
    cases stack with
    | nil => cases hn
    | cons v rest => nofun
  | cast => cases hg; exact unary_finds (cast_finds · _) hn
  | castSecond => cases hg; exact below_finds (cast_finds · _) hn
  | bitNot | not | isType => cases hg; exact unary_finds (fun _ => nofun) hn
  | neg =>
    cases hg
    refine unary_finds (fun v => ?_) hn
    unfold Value.negate
    split <;> nofun
  | getField =>
    cases hg
    refine unary_finds (fun v => ?_) hn
    unfold Value.component
    split <;> nofun
  | arrayCount => cases hg; exact unary_finds (fun v => entries_finds v fun _ => nofun) hn
  | binary =>
    cases hg
    refine binary_finds (fun a b => ?_) hn
    unfold BinEval.result
    split <;> nofun
  | setField =>
    cases hg
    refine binary_finds (fun a b => ?_) hn
    unfold Value.setComponent
    split <;> nofun
  | arrayGet =>
    cases hg
    exact binary_finds (fun k v => entries_finds v fun es => ofValue_finds k es.get) hn
  | arrayKey | arrayValue =>
    cases hg
    exact binary_finds (fun _ v => entries_finds v fun _ => nofun) hn
  | makeList | makeVector | makeRotation => cases hg; exact gather_finds hn
  | _ => cases hg

end Operands

def Frame.gives (m : Module) (f : Frame) : Nat :=
  match f.receiver with
  | .script => (m.function? f.function).elim 0 fun g => g.ret.arity
  | .api => (ApiFunction.get? f.function).elim 0 fun g => g.ret.arity

variable {f : Frame}

theorem Frame.gives_script (hr : f.receiver = .script)
    (hg : m.function? f.function = some g) : f.gives m = g.ret.arity := by
  unfold gives
  rw [hr]
  rw [hg]
  rfl

theorem Frame.gives_api (hr : f.receiver = .api)
    (hg : ApiFunction.get? f.function = some g) : f.gives m = g.ret.arity := by
  unfold gives
  rw [hr]
  rw [hg]
  rfl

/-- A call of a function of the script is at its start. -/
def Frame.Opens (m : Module) (f : Frame) : Prop :=
  f.receiver = .script → (∃ g, m.function? f.function = some g) ∧ f.pc = 0 ∧ f.operands = []

/-- The frames are of one call. -/
structure Frame.Same (f f' : Frame) : Prop where
  receiver : f'.receiver = f.receiver
  function : f'.function = f.function

theorem Frame.Same.gives (h : f.Same f') (m : Module) : f'.gives m = f.gives m := by
  unfold Frame.gives
  rw [h.receiver, h.function]

namespace Machine

/-- How operands move when a machine goes on or is suspended. -/
inductive Transfers (m : Module) : List Frame → List Frame → Prop
  /-- An instruction of the innermost call. -/
  | goes {f f' : Frame} {fs : List Frame} {g : Function} {op : Op} : f.receiver = .script →
      m.function? f.function = some g → g.ops[f.pc]? = some op → f.Same f' →
      (f'.pc = f.pc + 1 ∨ ∃ target, op.target? = some target ∧ f'.pc = target.toNat) →
      Exchanges (op.takes (m.arities g.ret)) (op.gives (m.arities g.ret)) f.operands f'.operands →
      Transfers m (f :: fs) (f' :: fs)
  /-- The innermost call calls a function, and will get its value. -/
  | calls {f f' callee : Frame} {fs : List Frame} {g : Function} {op : Op} : f.receiver = .script →
      m.function? f.function = some g → g.ops[f.pc]? = some op → f.Same f' → f'.pc = f.pc + 1 →
      Exchanges (op.takes (m.arities g.ret)) 0 f.operands f'.operands → callee.Opens m →
      callee.gives m = op.gives (m.arities g.ret) → Transfers m (f :: fs) (callee :: f' :: fs)
  | returns {f : Frame} : c.Same c' → c'.pc = c.pc →
      Exchanges 0 (f.gives m) c.operands c'.operands → Transfers m (f :: c :: fs) (c' :: fs)
  /-- A call of the library has no answer again. -/
  | waits {f f' : Frame} {fs : List Frame} : f.receiver = .api → f.Same f' →
      Transfers m (f :: fs) (f' :: fs)

variable {ω : Type}

theorem exchanges_split
    (h : Operands.split? n stack = some (args, rest)) : Exchanges n 0 stack rest := by
  unfold Operands.split? at h
  split at h
  · cases h; exact ⟨[], rfl, rfl⟩
  · cases h

theorem answered_exchanges : f.Same (answered h v f) ∧ (answered h v f).pc = f.pc ∧
      Exchanges 0 h.ret.arity f.operands (answered h v f).operands := by
  unfold answered Ty.arity
  split
  · exact ⟨⟨rfl, rfl⟩, rfl, .refl _⟩
  · exact ⟨⟨rfl, rfl⟩, rfl, .push _ _⟩

theorem does_transfers (hframes : s.frames = f :: fs) (hr : f.receiver = .script)
    (hg : m.function? f.function = some g) (hop : g.ops[f.pc]? = some op)
    (h : Does env m g.ret { f with pc := f.pc + 1 } s w op s' w') :
    Transfers m s.frames s'.frames := by
  have htail : s.frames.tail = fs := by rw [hframes]; rfl
  have goes {f' : Frame} (hsame : f.Same f')
      (hpc : f'.pc = f.pc + 1 ∨ ∃ target, op.target? = some target ∧ f'.pc = target.toNat)
      (hx : Exchanges (op.takes (m.arities g.ret)) (op.gives (m.arities g.ret)) f.operands
        f'.operands) : Transfers m s.frames (f' :: s.frames.tail) := by
    rw [htail, hframes]
    exact .goes hr hg hop hsame hpc hx
  cases h with
  | operands hoperate hs =>
    exact goes ⟨rfl, rfl⟩ (.inl rfl) (operate_exchanges hoperate hs)
  | pushConst _ => exact goes ⟨rfl, rfl⟩ (.inl rfl) (.push _ _)
  | load var _ => cases var <;> exact goes ⟨rfl, rfl⟩ (.inl rfl) (.push _ _)
  | store var ho _ =>
    have hx : Exchanges 1 0 f.operands _ := ⟨[], rfl, (congrArg (drop 1) ho).symm⟩
    cases var <;> exact goes ⟨rfl, rfl⟩ (.inl rfl) hx
  | @arraySet var v _ _ _ _ ho _ _ =>
    have hx : Exchanges 2 1 f.operands _ :=
      ⟨[v], rfl, congrArg (v :: ·) (congrArg (drop 2) ho).symm⟩
    cases var <;> exact goes ⟨rfl, rfl⟩ (.inl rfl) hx
  | jump => exact goes ⟨rfl, rfl⟩ (.inr ⟨_, rfl, rfl⟩) (.refl _)
  | jumpIfFalse ho | jumpIfTrue ho =>
    refine goes ⟨rfl, rfl⟩ ?_ ⟨[], rfl, (congrArg (drop 1) ho).symm⟩
    split
    · exact .inr ⟨_, rfl, rfl⟩
    · exact .inl rfl
  | jumpIfNoStateChange =>
    split
    · exact goes ⟨rfl, rfl⟩ (.inr ⟨_, rfl, rfl⟩) (.refl _)
    · exact goes ⟨rfl, rfl⟩ (.inl rfl) (.refl _)
  | @call index g' _ _ _ hg' hsplit he =>
    obtain ⟨g'', hg'', -, rfl⟩ := enter_ok he
    rw [setTop_frames, htail, hframes]
    refine .calls hr hg hop ⟨rfl, rfl⟩ rfl ?_ (fun _ => ⟨⟨g', hg'⟩, rfl, rfl⟩) ?_
    · show Exchanges ((m.function? index).elim (0, 0) _).1 0 _ _
      rw [hg']
      exact exchanges_split hsplit
    · show (m.function? index).elim 0 _ = ((m.function? index).elim (0, 0) _).2
      rw [hg']
      rfl
  | @callApi index h _ rest v _ hh hsplit _ =>
    obtain ⟨hsame, hpc, new, hnew, hx⟩ := answered_exchanges
    obtain ⟨_, hzero, hrest⟩ := exchanges_split hsplit
    obtain rfl := length_eq_zero_iff.1 hzero
    refine goes ⟨hsame.1, hsame.2⟩ (.inl hpc) ⟨new, ?_, ?_⟩
    · show new.length = (ApiFunction.get? index).elim 0 _
      rw [hh, hnew]
      rfl
    · show _ = new ++ drop ((ApiFunction.get? index).elim 0 _) _
      rw [hx, hh]
      exact congrArg (new ++ ·) hrest
  | ret _ hcs =>
    rw [htail] at hcs
    subst hcs
    rw [hframes]
    by_cases hvoid : g.ret = .void
    · rw [if_pos hvoid]
      refine .returns ⟨rfl, rfl⟩ rfl ?_
      rw [Frame.gives_script hr hg, Ty.arity, if_pos hvoid]
      exact .refl _
    · rw [if_neg hvoid]
      refine .returns ⟨rfl, rfl⟩ rfl ?_
      rw [Frame.gives_script hr hg, Ty.arity, if_neg hvoid]
      exact .push _ _
  | memStatic | memIncr _ | memDecr _ | checkRun _ _ | setState =>
    exact goes ⟨rfl, rfl⟩ (.inl rfl) (.refl _)

theorem step_transfers (h : step env m s w = .next s' w') : Transfers m s.frames s'.frames := by
  cases step_goes h with
  | runs hframes hr hg hop hdoes => exact does_transfers hframes hr hg hop hdoes
  | answers hframes hr hg _ =>
    obtain ⟨hsame, hpc, hx⟩ := answered_exchanges
    rw [hframes]
    refine .returns hsame hpc ?_
    rw [Frame.gives_api hr hg]
    exact hx

theorem pauses_transfers (h : Pauses env m s w s' w') : Transfers m s.frames s'.frames := by
  cases h with
  | checkpoint hframes hr hg hop =>
    rw [setTop_frames, hframes]
    exact .goes hr hg hop ⟨rfl, rfl⟩ (.inl rfl) (.refl _)
  | @asks f fs g i h args rest _ hframes hr hg hop hh hsplit =>
    rw [hframes]
    refine .calls hr hg hop ⟨rfl, rfl⟩ rfl ?_ nofun ?_
    · show Exchanges ((ApiFunction.get? i).elim 0 _) 0 _ _
      rw [hh]
      exact exchanges_split hsplit
    · rfl
  | waits hframes hr _ =>
    rw [hframes]
    exact .waits hr ⟨hr.symm, rfl⟩

/-! ## Faults -/

theorem missing_ne (var : VarRef) : missing var ≠ Operands.missed := by
  cases var <;> nofun

theorem store_finds (hn : 1 ≤ f.operands.length) :
    store s f var w ≠ .halt (.fault Operands.missed) s' w' := by
  intro h
  unfold store at h
  split at h
  · rename_i ho
    rw [ho] at hn
    cases hn
  · dsimp only at h
    split at h
    · cases h
    · exact missing_ne var (Halt.fault.inj (Step.halt.inj h).1)

theorem storeElement_finds (hn : 2 ≤ f.operands.length) :
    storeElement s f var w ≠ .halt (.fault Operands.missed) s' w' := by
  intro h
  unfold storeElement at h
  split at h
  · dsimp only at h
    split at h
    · exact missing_ne var (Halt.fault.inj (Step.halt.inj h).1)
    rename_i v k _ _ _ a _
    split at h
    · cases h
    rename_i he
    obtain rfl := Halt.fault.inj (Step.halt.inj h).1
    exact entries_finds a (fun es => ofValue_finds k (es.set · v)) he
  · rename_i hshort
    match f.operands, hn, hshort with
    | v :: k :: rest, _, hshort => exact hshort v k rest rfl

theorem branch_finds (hn : 1 ≤ f.operands.length) :
    branch s f test target w ≠ .halt (.fault Operands.missed) s' w' := fun h => by
  rw [branch_fault h] at hn
  cases hn

theorem load_finds (he : e ≠ Operands.missed) :
    load s f x e w ≠ .halt (.fault Operands.missed) s' w' := by
  intro h
  unfold load at h
  split at h
  · cases h
  · exact he (Halt.fault.inj (Step.halt.inj h).1)

theorem callFunction_finds (hn : (Op.call i).takes (m.arities ret) ≤ f.operands.length) :
    callFunction m s f i w ≠ .halt (.fault Operands.missed) s' w' := by
  intro h
  obtain hnone | ⟨g, hg, hlt⟩ | ⟨n, he⟩ := callFunction_fault h
  · unfold callFunction at h
    rw [hnone] at h
    cases h
  · have htakes : (Op.call i).takes (m.arities ret) = g.params.length := by
      show ((m.function? i).elim (0, 0) _).1 = _
      rw [hg]
      rfl
    omega
  · cases he

theorem callApi_finds (hn : (Op.callApi i).takes A ≤ f.operands.length) :
    callApi env s f i w ≠ .halt (.fault Operands.missed) s' w' := by
  intro h
  obtain hnone | ⟨g, hg, hlt⟩ | ⟨_, _, he⟩ := callApi_fault h
  · unfold callApi at h
    rw [hnone] at h
    cases h
  · have htakes : (Op.callApi i).takes A = g.params.length := by rw [Op.takes, hg]; rfl
    omega
  · cases he

theorem leave_finds (hn : ret.arity ≤ f.operands.length) :
    leave s f ret w ≠ .halt (.fault Operands.missed) s' w' := by
  intro h
  obtain ⟨hret, ho⟩ := leave_fault h
  rw [Ty.arity, if_neg hret, ho] at hn
  cases hn

theorem exec_finds (hn : op.takes (m.arities ret) ≤ f.operands.length) :
    exec env m ret op f s w ≠ .halt (.fault Operands.missed) s' w' := by
  cases op with
  | pushConst i => exact load_finds nofun
  | loadLocal | loadGlobal => exact load_finds nofun
  | storeLocal | storeGlobal => exact store_finds hn
  | arraySet => exact storeElement_finds hn
  | jumpIfFalse | jumpIfTrue => exact branch_finds hn
  | call => exact callFunction_finds hn
  | callApi => exact callApi_finds hn
  | ret => exact leave_finds hn
  | checkRun => exact fun h => nomatch check_fault h
  | jump | jumpIfNoStateChange | memStatic | setState => nofun
  | memIncr var | memDecr var =>
    intro h
    unfold exec at h
    dsimp only at h
    split at h
    · cases h
    · exact missing_ne var (Halt.fault.inj (Step.halt.inj h).1)
  | _ =>
    intro h
    rw [exec_operate rfl] at h
    obtain ⟨stack, hstack⟩ := replace_fault h
    exact operate_finds rfl hn hstack

/-- A machine misses an operand only if the innermost call has fewer than its instruction takes. -/
theorem step_underflow (h : step env m s w = .halt (.fault Operands.missed) s' w') :
    ∃ f fs g op, s.frames = f :: fs ∧ f.receiver = .script ∧ m.function? f.function = some g ∧
      g.ops[f.pc]? = some op ∧ f.operands.length < op.takes (m.arities g.ret) := by
  cases hframes : s.frames with
  | nil => simp only [step, hframes] at h; cases h
  | cons f fs =>
    obtain ⟨hr, h⟩ | ⟨g, op, hr, hg, hop, h⟩ | ⟨_, ⟨⟩, hc⟩ := step_cons hframes h
    · unfold resumeApi at h
      split at h
      · cases h
      split at h
      · split at h <;> cases h
      · rename_i i w1 he
        cases i <;> cases h
    · refine ⟨f, fs, g, op, rfl, hr, hg, hop, Nat.lt_of_not_le fun hn => ?_⟩
      exact exec_finds (f := { f with pc := f.pc + 1 }) hn h
    · exact absurd rfl hc

end Machine

/-! ## Active calls -/

/-- The operands of a call are above a floor; with those that are awaited they are as many as there
are at its place. -/
def Frame.Rises (L : Nat → Nat) (floor : List Value) (awaited : Nat) (f : Frame) : Prop :=
  ∃ top, f.operands = top ++ floor ∧ top.length + awaited = L f.pc

namespace Frame.Rises

variable {f f' : Frame} {op : Op}

theorem goes (h : f.Rises L floor 0) (hop : op.Leveled A L f.pc)
    (hpc : f'.pc = f.pc + 1 ∨ ∃ target, op.target? = some target ∧ f'.pc = target.toNat)
    (hx : Exchanges (op.takes A) (op.gives A) f.operands f'.operands) : f'.Rises L floor 0 := by
  obtain ⟨top, hoperands, hlevel⟩ := h
  rw [Nat.add_zero] at hlevel
  obtain ⟨top', htop, hlen⟩ := (hoperands ▸ hx).above (hlevel ▸ hop.finds)
  have hnext : L f'.pc = L (f.pc + 1) := by
    obtain hpc | ⟨target, htarget, hpc⟩ := hpc
    · rw [hpc]
    · rw [hpc, hop.lands target htarget]
  exact ⟨top', htop, by rw [hnext, hop.next, Op.shift, ← hlevel, hlen, Nat.add_zero]⟩

theorem calls (h : f.Rises L floor 0) (hop : op.Leveled A L f.pc) (hpc : f'.pc = f.pc + 1)
    (hx : Exchanges (op.takes A) 0 f.operands f'.operands) : f'.Rises L floor (op.gives A) := by
  obtain ⟨top, hoperands, hlevel⟩ := h
  rw [Nat.add_zero] at hlevel
  obtain ⟨top', htop, hlen⟩ := (hoperands ▸ hx).above (hlevel ▸ hop.finds)
  exact ⟨top', htop, by rw [hpc, hop.next, Op.shift, ← hlevel, hlen, Nat.add_zero]⟩

theorem returned (h : f.Rises L floor n) (hpc : f'.pc = f.pc)
    (hx : Exchanges 0 n f.operands f'.operands) : f'.Rises L floor 0 := by
  obtain ⟨top, hoperands, hlevel⟩ := h
  obtain ⟨top', htop, hlen⟩ := (hoperands ▸ hx).above (Nat.zero_le _)
  exact ⟨top', htop, by rw [hpc, ← hlevel, hlen]; rfl⟩

theorem finds (h : f.Rises L floor 0) (hop : op.Leveled A L f.pc) :
    ∃ top, f.operands = top ++ floor ∧ op.takes A ≤ top.length := by
  obtain ⟨top, hoperands, hlevel⟩ := h
  rw [Nat.add_zero] at hlevel
  exact ⟨top, hoperands, hlevel ▸ hop.finds⟩

end Frame.Rises

namespace Machine

/-- The calls above those that `Base` is about have as many operands as their code says. -/
inductive Aligned (m : Module) (Base : Nat → List Frame → Prop) : Nat → List Frame → Prop
  | base : Base n fs → Aligned m Base n fs
  | call {f : Frame} {fs : List Frame} :
      (f.receiver = .script → ∃ g, m.function? f.function = some g ∧ f.Rises (m.level g) [] n) →
      Aligned m Base (f.gives m) fs → Aligned m Base n (f :: fs)

theorem Aligned.opens (hf : f.Opens m) (h : Aligned m Base (f.gives m) fs) :
    Aligned m Base 0 (f :: fs) := by
  refine .call (fun hr => ?_) h
  obtain ⟨⟨g, hg⟩, hpc, hoperands⟩ := hf hr
  exact ⟨g, hg, [], hoperands, by rw [hpc]; rfl⟩

/-- What `Base` is about gets the values that it awaits. -/
def Receives (Base : Nat → List Frame → Prop) : Prop :=
  ∀ {n c c' cs}, Base n (c :: cs) → c.Same c' → c'.pc = c.pc →
    Exchanges 0 n c.operands c'.operands → Base 0 (c' :: cs)

theorem Aligned.returned (hbase : Receives Base) (h : Aligned m Base n (c :: fs))
    (hsame : c.Same c') (hpc : c'.pc = c.pc) (hx : Exchanges 0 n c.operands c'.operands) :
    Aligned m Base 0 (c' :: fs) := by
  cases h with
  | base h => exact .base (hbase h hsame hpc hx)
  | call hc h =>
    refine .call (fun hr => ?_) (hsame.gives m ▸ h)
    obtain ⟨g, hg, hrises⟩ := hc (hsame.receiver ▸ hr)
    exact ⟨g, hsame.function ▸ hg, hrises.returned hpc hx⟩

theorem Transfers.aligned (hm : m.Leveled) (hbase : Receives Base) (h : Transfers m fs fs')
    (ha : Aligned m Base 0 fs) : Aligned m Base 0 fs' ∨ Base 0 fs := by
  cases ha with
  | base hb => exact .inr hb
  | call hf ha =>
    left
    cases h with
    | goes hr hg hop hsame hpc hx =>
      obtain ⟨g', hg', hrises⟩ := hf hr
      obtain rfl := some.inj (hg'.symm.trans hg)
      exact .call (fun _ => ⟨g', hsame.function ▸ hg, hrises.goes ((hm _ _ hg).op hop) hpc hx⟩)
        (hsame.gives m ▸ ha)
    | calls hr hg hop hsame hpc hx hopens hcallee =>
      obtain ⟨g', hg', hrises⟩ := hf hr
      obtain rfl := some.inj (hg'.symm.trans hg)
      refine .opens hopens (.call (fun _ => ⟨g', hsame.function ▸ hg, ?_⟩) (hsame.gives m ▸ ha))
      exact hcallee ▸ hrises.calls ((hm _ _ hg).op hop) hpc hx
    | returns hsame hpc hx => exact ha.returned hbase hsame hpc hx
    | waits hr hsame =>
      exact .call (fun hr' => nomatch (hsame.receiver.trans hr).symm.trans hr') (hsame.gives m ▸ ha)

theorem Aligned.of_outline (h : Aligned m (fun _ fs => fs = []) n fs)
    (heq : fs'.map Frame.outline = fs.map Frame.outline) :
    Aligned m (fun _ fs => fs = []) n fs' := by
  induction h generalizing fs' with
  | base h =>
    subst h
    exact .base (map_eq_nil_iff.1 heq)
  | @call n f fs hf _ ih =>
    cases fs' with
    | nil => cases heq
    | cons f' fs' =>
      obtain ⟨hhead, htail⟩ := cons.inj heq
      have hsame : f.Same f' :=
        ⟨(congrArg Frame.receiver hhead :), (congrArg Frame.function hhead :)⟩
      refine .call (fun hr => ?_) (hsame.gives m ▸ ih htail)
      obtain ⟨g, hg, top, htop, hlevel⟩ := hf (hsame.receiver ▸ hr)
      have hpc : f'.pc = f.pc := (congrArg Frame.pc hhead :)
      have hlen : f'.operands.length = f.operands.length := by
        have := congrArg (length ∘ Frame.operands) hhead
        simpa only [Frame.outline, Function.comp_apply, length_replicate] using this
      refine ⟨g, hsame.function ▸ hg, f'.operands, (append_nil _).symm, ?_⟩
      rw [hpc, hlen, htop, append_nil]
      exact hlevel

theorem Aligned.finds (hm : m.Leveled) (ha : Aligned m Base 0 s.frames)
    (h : step env m s w = .halt (.fault Operands.missed) s' w') : Base 0 s.frames := by
  obtain ⟨f, fs, g, op, hframes, hr, hg, hop, hlt⟩ := step_underflow h
  rw [hframes] at ha ⊢
  cases ha with
  | base h => exact h
  | call hf _ =>
    obtain ⟨g', hg', hrises⟩ := hf hr
    obtain rfl := some.inj (hg'.symm.trans hg)
    obtain ⟨top, htop, hle⟩ := hrises.finds ((hm _ _ hg).op hop)
    rw [htop, append_nil] at hlt
    omega

end Machine

/-- The active calls have as many operands as their code says. -/
def Module.alignment (m : Module) : Regime where
  Idle _ := True
  Active s := Machine.Aligned m (fun _ fs => fs = []) 0 s.frames
  Stopped s := Machine.Aligned m (fun _ fs => fs = []) 0 s.frames
  Target _ := True
  Given _ := True

theorem Machine.Transfers.alignment (hm : m.Leveled)
    (h : Transfers m s.frames s'.frames) (hs : m.alignment.Active s) : m.alignment.Active s' := by
  have hreceives : Receives fun _ fs => fs = [] := fun h => nomatch h
  obtain h' | h' := h.aligned hm hreceives hs
  · exact h'
  · rw [h'] at h
    cases h

/-- Nothing that is done with an instance gets the calls out of line, whatever the environment. -/
theorem Module.Coded.alignment_kept (hcoded : m.Coded script tests) (hm : m.Leveled)
    (settings : Settings) : m.alignment.Kept m settings fun _ => True where
  zero := trivial
  nil := trivial
  handler hf := by
    obtain ⟨he, -, g, hg, -⟩ := hcoded.handler hf
    exact ⟨he, g, hg⟩
  boot h := ⟨hcoded.boot_pending h, trivial⟩
  enter {s s' _ _ _ _} _ hframes _ _ _ _ he := by
    obtain ⟨g, hg, -, rfl⟩ := Machine.enter_ok he
    exact .opens (fun _ => ⟨⟨g, hg⟩, rfl, rfl⟩) (.base hframes)
  next _ hs hstep := (Machine.step_transfers hstep).alignment hm hs
  suspend hs hstep := (Machine.pauses_transfers (Machine.step_pauses hstep)).alignment hm hs
  resume hs := hs
  halt _ _ _ := trivial
  target _ _ _ := trivial
  hop {i j sink} hi hj hrest _ := by
    obtain ⟨e, h⟩ | ⟨s, hc, -, h, houtline⟩ := hi.migrateIn_cases hj hrest sink
    · rw [h]
      exact .inr (.inr rfl)
    · rw [h]
      exact hj.restored hrest hc houtline (fun _ => trivial) (fun _ => trivial)
        fun _ _ hstopped => hstopped.of_outline (congrArg (·.machine.frames) houtline :)

/-! ## Code of expressions -/

theorem Module.Coded.ret_allowed (hcoded : m.Coded script tests) (hg : m.function? i = some g) :
    g.ret = .void ∨ g.ret.Allowed (!m.arrays) := by
  by_cases hi : i.toNat < m.init.toNat
  · obtain ⟨Y, hlaid⟩ := hcoded.exists_laid
    obtain ⟨f, -, -, -, hcode⟩ := hlaid i g hg hi
    generalize g.ops.toList = ops at hcode
    cases hcode
    assumption
  · exact .inl (hcoded.init_of_ge hg hi).1

namespace Machine

/-- A machine goes on or is suspended, whatever surrounds it. -/
def Proceeds (m : Module) (s s' : Machine) : Prop :=
  ∃ (ω : Type) (env : Env ω) (w w' : ω),
    step env m s w = .next s' w' ∨ step env m s w = .halt .suspended s' w'

theorem Proceeds.transfers (h : Proceeds m s s') : Transfers m s.frames s'.frames := by
  obtain ⟨ω, env, w, w', h | h⟩ := h
  · exact step_transfers h
  · exact pauses_transfers (step_pauses h)

/-- A call above some callers is in the code between two places, or waits for another call there. -/
def Inside (callers : List Frame) (lo hi : Nat) (s : Machine) : Prop :=
  ∃ above f, s.frames = above ++ f :: callers ∧ (above = [] → lo ≤ f.pc ∧ f.pc < hi)

variable (m : Module) (callers : List Frame) (lo hi : Nat) (s : Machine) in
/-- The states that a machine goes through as long as a call is inside the code. -/
inductive Traverses : Machine → Prop
  | refl : Traverses s
  | next : Traverses s₁ → s₁.Inside callers lo hi →
      s₁.Proceeds m s' → Traverses s'

/-- The call that was in the code has its operands on top of those that it found. An instruction
takes its own from above those, and at the end there are so many more. -/
structure Above (m : Module) (g : Function) (callers : List Frame) (floor : List Value)
    (lo hi extra : Nat) (s : Machine) : Prop where
  frames : ∃ above f top, s.frames = above ++ f :: callers ∧ f.operands = top ++ floor ∧
    (above = [] → lo ≤ f.pc ∧ f.pc ≤ hi ∧ (f.pc = hi → top.length = extra) ∧
      (f.pc < hi → ∀ op, g.ops[f.pc]? = some op → op.takes (m.arities g.ret) ≤ top.length))
  finds : s.Inside callers lo hi → ∀ (ω : Type) (env : Env ω) (w w' : ω) (s' : Machine),
    step env m s w ≠ .halt (.fault (.corrupt .underflow)) s' w'

/-- Code between two places of a function keeps to its own operands, and leaves so many. It may also
leave the call. -/
def Balances (m : Module) (i : UInt16) (lo hi extra : Nat) : Prop :=
  ∀ g, m.function? i = some g → ∀ (s : Machine) (f : Frame) callers, s.frames = f :: callers →
    f.receiver = .script → f.function = i → f.pc = lo → ∀ s', s.Traverses m callers lo hi s' →
    s'.frames.length ≤ callers.length ∨ s'.Above m g callers f.operands lo hi extra

/-- A call is in the code between two places, with its operands above a floor. -/
def OnCode (i : UInt16) (callers : List Frame) (L : Nat → Nat) (floor : List Value) (lo hi : Nat)
    (awaited : Nat) (fs : List Frame) : Prop :=
  ∃ f, fs = f :: callers ∧ f.receiver = .script ∧ f.function = i ∧ lo ≤ f.pc ∧ f.pc ≤ hi ∧
    f.Rises L floor awaited

variable {L : Nat → Nat}
  {s s' : Machine}

theorem OnCode.receives : Receives (OnCode i callers L floor lo hi) := by
  rintro n c c' cs ⟨f, heq, hr, hf, hlo, hhi, hrises⟩ hsame hpc hx
  cases heq
  exact ⟨c', rfl, hsame.receiver.trans hr, hsame.function.trans hf, hpc ▸ hlo, hpc ▸ hhi,
    hrises.returned hpc hx⟩

theorem Inside.onCode (h : s.Inside callers lo hi)
    (hs : OnCode i callers L floor lo hi n s.frames) :
    ∃ f, s.frames = f :: callers ∧ f.receiver = .script ∧ f.function = i ∧ lo ≤ f.pc ∧ f.pc < hi ∧
      f.Rises L floor n := by
  obtain ⟨f, hframes, hr, hf, hlo, -, hrises⟩ := hs
  obtain ⟨above, f', hframes', hpc⟩ := h
  have habove : above = [] := by
    have hlen := congrArg length (hframes.symm.trans hframes')
    simp only [length_append, length_cons] at hlen
    exact length_eq_zero_iff.1 (by omega)
  subst habove
  cases hframes.symm.trans hframes'
  exact ⟨f, hframes, hr, hf, hlo, (hpc rfl).2, hrises⟩

/-- Between two places of a function instructions find their operands, and jumps stay there. -/
structure Piece (m : Module) (g : Function) (L : Nat → Nat) (lo hi : Nat) : Prop where
  leveled : ∀ {pc op}, lo ≤ pc → pc < hi → g.ops[pc]? = some op → op.Leveled (m.arities g.ret) L pc
  jumps : ∀ {pc op target}, lo ≤ pc → pc < hi → g.ops[pc]? = some op → op.target? = some target →
    lo ≤ target.toNat ∧ target.toNat ≤ hi

theorem Transfers.onCode (hp : Piece m g L lo hi) (hg : m.function? i = some g)
    (hs : s.Inside callers lo hi) (hon : OnCode i callers L floor lo hi 0 s.frames)
    (h : Transfers m s.frames fs') :
    Aligned m (OnCode i callers L floor lo hi) 0 fs' ∨ fs'.length ≤ callers.length := by
  obtain ⟨f, hframes, hr, hf, hlo, hhi, hrises⟩ := hs.onCode hon
  rw [hframes] at h
  cases h with
  | @goes _ f' _ g' op _ hg' hop hsame hpc hx =>
    obtain rfl := some.inj (hg.symm.trans (hf ▸ hg'))
    have hplace : lo ≤ f'.pc ∧ f'.pc ≤ hi := by
      obtain hpc | ⟨target, htarget, hpc⟩ := hpc
      · omega
      · rw [hpc]
        exact hp.jumps hlo hhi hop htarget
    exact .inl (.base ⟨f', rfl, hsame.receiver.trans hr, hsame.function.trans hf, hplace.1,
      hplace.2, hrises.goes (hp.leveled hlo hhi hop) hpc hx⟩)
  | @calls _ f' callee _ g' op _ hg' hop hsame hpc hx hopens hcallee =>
    obtain rfl := some.inj (hg.symm.trans (hf ▸ hg'))
    have hrises' := hrises.calls (hp.leveled hlo hhi hop) hpc hx
    refine .inl (.opens hopens (.base ⟨f', rfl, hsame.receiver.trans hr, hsame.function.trans hf,
      ?_, ?_, hcallee ▸ hrises'⟩))
    · omega
    · omega
  | returns _ _ _ => exact .inr le_rfl
  | waits hapi _ => exact nomatch hr.symm.trans hapi

theorem Aligned.exists_base (h : Aligned m Base n fs) :
    ∃ above rest k, fs = above ++ rest ∧ Base k rest ∧ (above = [] → k = n) := by
  induction h with
  | @base n fs h => exact ⟨[], fs, n, rfl, h, fun _ => rfl⟩
  | @call n f fs _ _ ih =>
    obtain ⟨above, rest, k, rfl, hbase, -⟩ := ih
    exact ⟨f :: above, rest, k, rfl, hbase, nofun⟩

theorem Traverses.aligned (hm : m.Leveled) (hp : Piece m g L lo hi) (hg : m.function? i = some g)
    (hs : OnCode i callers L floor lo hi 0 s.frames) (h : s.Traverses m callers lo hi s') :
    Aligned m (OnCode i callers L floor lo hi) 0 s'.frames ∨ s'.frames.length ≤ callers.length := by
  induction h with
  | refl => exact .inl (.base hs)
  | next _ hinside hstep ih =>
    obtain ih | ih := ih
    · obtain h | hon := hstep.transfers.aligned hm OnCode.receives ih
      · exact .inl h
      · exact hstep.transfers.onCode hp hg hinside hon
    -- there are no more steps inside a call that has been left
    · obtain ⟨above, f, hframes, -⟩ := hinside
      rw [hframes, length_append, length_cons] at ih
      omega

theorem Piece.balances (hp : Piece m g L lo hi) (hm : m.Leveled) (hg : m.function? i = some g)
    (hle : lo ≤ hi) (hlo : L lo = 0) : Balances m i lo hi (L hi) := by
  intro g' hg' s f callers hframes hr hf hpc s' h
  obtain rfl := some.inj (hg.symm.trans hg')
  have hstart : OnCode i callers L f.operands lo hi 0 s.frames :=
    ⟨f, hframes, hr, hf, hpc ▸ le_rfl, hpc ▸ hle, [], rfl, by rw [hpc, hlo]; rfl⟩
  refine (h.aligned hm hp hg hstart).symm.imp_right fun ha =>
    ⟨?_, fun hinside ω env w w' s'' hstep => ?_⟩
  · obtain ⟨above, _, k, hframes', ⟨f', rfl, -, -, hlo', hhi', top, htop, hlevel⟩, hk⟩ :=
      ha.exists_base
    refine ⟨above, f', top, hframes', htop, fun habove => ?_⟩
    -- nothing is awaited in the innermost call
    rw [hk habove, Nat.add_zero] at hlevel
    refine ⟨hlo', hhi', fun hend => hend ▸ hlevel, fun hlt op hop => ?_⟩
    exact hlevel ▸ (hp.leveled hlo' hlt hop).finds
  · obtain ⟨f', hframes', hr', hf', hlo', hhi', hrises⟩ := hinside.onCode (ha.finds hm hstep)
    obtain ⟨f1, fs, g', op, hframes1, -, hg', hop, hlt⟩ := step_underflow hstep
    cases hframes'.symm.trans hframes1
    obtain rfl := some.inj (hg.symm.trans (hf' ▸ hg'))
    obtain ⟨top, htop, hfinds⟩ := hrises.finds (hp.leveled hlo' hhi' hop)
    rw [htop, length_append] at hlt
    omega

end Machine

namespace Compile

/-- The code of an expression of a script is between two places of a function. It was generated with
the names of the script, among variables that have slots and types of values, and has the type. -/
structure Emitted (script : Script) (source : String) (m : Module) (e : Expr) (ty : Ty) (i : UInt16)
    (lo hi : Nat) : Prop where
  occurs : ∃ whole ∈ script.exprs, e ∈ whole.parts
  generated : ∃ (c : Context) (st : State) (code : Code) (st' : State) (marks : List (String × Nat))
    (g : Function), c.names = (namesOf script source).1 ∧
      Scoped (m.linkage false) (st.scopes.map Scope.region) [] st.scopes st.localCount ∧
      genExpr e c st = .done ty code st' ∧ st.pc = lo ∧ st'.pc = hi ∧ m.function? i = some g ∧
      g.ret = c.ret ∧ IsPart lo (opsOf marks code) 0 g.ops.toList

theorem Straight.piece (h : Straight Γ χ fresh lo code S S') (hχ : Γ.Bounds χ)
    (hcode : Each (Op.Leveled (m.arities g.ret) L) lo code)
    (hpart : IsPart lo code 0 g.ops.toList) : Machine.Piece m g L lo (lo + code.length) := by
  have hsits {pc : Nat} {op : Op} (hlo : lo ≤ pc) (hhi : pc < lo + code.length)
      (hop : g.ops[pc]? = some op) : code[pc - lo]? = some op := by
    have hop' := getElem?_eq_getElem (l := code) (i := pc - lo) (by omega)
    obtain ⟨-, hsits⟩ := hpart pc _ ⟨hlo, hop'⟩
    rw [Nat.sub_zero, Array.getElem?_toList, hop] at hsits
    rw [hop', hsits]
  refine ⟨fun hlo hhi hop => ?_, fun {pc op target} hlo hhi hop htarget => ?_⟩
  · have hleveled := each_iff.1 hcode _ _ (hsits hlo hhi hop)
    rwa [Nat.add_sub_cancel' hlo] at hleveled
  · have hproper := each_iff.1 (h.proper (C := fun _ => False)
      (Γ.within_ranges (lo + code.length + 1)) hχ (Nat.lt_succ_self _)) _ _ (hsits hlo hhi hop)
    have hforward := (hproper.jump target htarget).resolve_right id
    exact ⟨by omega, Nat.le_of_lt_succ (Op.target_lt hproper.within htarget)⟩

theorem Compilation.emitted_balances (h : Compilation script source m names b init s)
    (hcoded : m.Coded script false)
    (hreg : script.Regular (script.hasValue · = true)) (he : Emitted script source m e ty i lo hi) :
    Machine.Balances m i lo hi ty.arity := by
  obtain ⟨⟨whole, hwhole, hpart⟩, c, st, code, st', marks, g, hnames, hscoped, hdone, rfl, rfl, hg,
    hret, hplace⟩ := he
  have hknows := h.knows false
  replace hnames : c.names = names := hnames.trans (congrArg Prod.fst h.named)
  have hcore : (!script.arrays) = (m.linkage false).core := h.core_eq
  have hexpr := hcore ▸ hreg.part hwhole hpart
  -- what the code is generated with; its slots and constants are those in use after it
  let Γ : Linkage := { (m.linkage false).withFrame st'.localCount c.ret c.frameStatic with
    constants := st'.constants }
  have hallowed := hret ▸ hcoded.ret_allowed hg
  have hdescribes : Describes Γ (script.hasValue · = true) c := {
    ret := rfl
    frameStatic := rfl
    globals := fun name g hglobal =>
      hknows.globals name g (hnames ▸ (filter_eq_some_iff.1 hglobal).1)
    functions := fun _ => hnames ▸ hknows.functions
    library := fun _ => hknows.library
    tests := fun e he => .inr fun hnone => noValue_of_hasValue h.named he (hnames ▸ hnone.2)
    states := hnames ▸ hknows.states
    ret_allowed := hallowed }
  have hevaluates : Evaluates Γ (st.scopes.map Scope.region) [] marks c (genExpr e) [] _ :=
    genExpr_evaluates hdescribes hexpr []
  obtain ⟨_, ⟨rfl, -⟩, hgen⟩ := hevaluates hdone
    ⟨hscoped.chain, hscoped.static, hscoped.visible, hscoped.below, hscoped.allowed⟩
    (prefix_refl _) le_rfl
  have hcounted : Γ.Counted (m.arities g.ret) :=
    ⟨(m.linkage_counted false st'.localCount g.ret c.frameStatic).call, by rw [hret]; rfl⟩
  obtain ⟨hstop, -, heach⟩ := hgen.straight.levels rfl hcounted
    (counts_operandsAfter (m.arities g.ret) 0 st.pc (opsOf marks code)) (by simp [operandsAfter])
  have hbounds : Γ.Bounds (st.scopes.map Scope.region) := fun v hv =>
    Nat.lt_of_lt_of_le (hscoped.below v hv) hgen.slots
  have hpiece := hgen.straight.piece hbounds (heach trivial) hplace
  rw [opsOf, length_map, ← hgen.pc] at hstop hpiece
  simp only [length_returned] at hstop
  have hbalances := hpiece.balances hcoded.leveled hg (hgen.pc ▸ Nat.le_add_right _ _)
    (by simp [operandsAfter])
  rwa [hstop] at hbalances

end Compile

/-- Compiled code keeps operands in order, unless the type of a call without a value is tested. The
code of an expression never takes what was there before it, and leaves a value, or none if the type
is `void`. So no handler misses an operand, whatever the arguments of events and the answers of the
library are. -/
theorem Module.operands_disciplined {source name : String} {script : Script} {m : Module}
    (hs : Script.ofSource source = .ok script) (hm : Module.ofSource source name = .ok m)
    (hvalued : script.arrays = true → script.valued = true) :
    (∀ e ty i lo hi, Emitted script source m e ty i lo hi →
      Machine.Balances m i lo hi ty.arity) ∧
    ∀ settings i, Instance.Arises m settings i →
      ∀ (σ : Type) (env : Env (Surroundings σ)) (fuel : Nat) (w : σ),
        (∀ event args f i' w', i.startIn env fuel event args w = some ((.error f, i'), w') →
          f.fault ≠ .corrupt .underflow) ∧
        ∀ f i' w', i.resumeIn env fuel w = some ((.error f, i'), w') →
          f.fault ≠ .corrupt .underflow := by
  have hreg := (Script.ofSource_regular hs).valued hvalued
  have hscript := Module.ofScript_of_source hs hm
  obtain ⟨names, b, init, st, h⟩ := Module.ofScript_compilation hscript hreg
  have hcoded : m.Coded script false := Module.ofScript_coded hscript hreg fun _ he => .inr he
  refine ⟨fun e ty i lo hi he => h.emitted_balances hcoded hreg he,
    fun settings i hi σ env fuel w => ?_⟩
  have hR := hcoded.alignment_kept hcoded.leveled settings
  have hraises : ¬ Regime.Kept.Raises m.alignment m settings env Operands.missed := by
    rintro ⟨j, ws, s, ws', hj, hstep⟩
    have hframes : j.machine.frames = [] := hj.machine.finds hcoded.leveled hstep
    obtain ⟨f, fs, g, op, hframes', -⟩ := Machine.step_underflow hstep
    cases hframes.symm.trans hframes'
  have hcode {f : PlacedFault} (hf : f.fault = Operands.missed) : f.fault.IsCodeError := by
    rw [hf]
    trivial
  refine ⟨fun event args f i' w' hstart hf => hraises ?_, fun f i' w' hresume hf => hraises ?_⟩
  · have := hR.raises_of_start hi.boots trivial (hR.stands hi) trivial hstart (hcode hf)
    rwa [hf] at this
  · have := hR.raises_of_resume hi.boots trivial (hR.stands hi) hresume (hcode hf)
    rwa [hf] at this

def counter : String :=
  "XMROption arrays; array seen; integer twice(integer n) \x7b return n + n; \x7d
   default \x7b state_entry() \x7b seen[1] = twice(3) * 2; \x7d
     touch_start(integer n) \x7b
       integer b = seen[n] is integer; llSay(0, (string)(6 / (1 - b))); \x7d \x7d"

theorem Compile.isPart_of_isPrefix (h : code <+: ops.drop lo) : IsPart lo code 0 ops := by
  rintro p op ⟨hp, hop⟩
  obtain ⟨rest, hrest⟩ := h
  refine ⟨Nat.zero_le _, ?_⟩
  have hdrop : (ops.drop lo)[p - lo]? = some op := by
    rw [← hrest, getElem?_append_left (List.getElem?_eq_some_iff.1 hop).1, hop]
  rwa [getElem?_drop, Nat.add_sub_cancel' hp] at hdrop

set_option maxRecDepth 10000 in
/-- The product in the first handler of the counter leaves one value, though it waits for a call; a
touch faults, but not for want of an operand. -/
theorem counter_disciplined :
    Script.Sample counter "counter" 100 fun script m i =>
      ∃ e i₁ i₂ w₁ w₂ f, script.arrays = true ∧ script.valued = true ∧
      Emitted script counter m e .integer 1 3 10 ∧ Machine.Balances m 1 3 10 1 ∧
      i.startIn (Host.recording.env false) 100 .stateEntry [] {} = some ((.ok .idle, i₁), w₁) ∧
      i₁.startIn (Host.recording.env false) 100 .touchStart [.integer 1] {} =
        some ((.error f, i₂), w₂) ∧ f.fault = .divisionByZero ∧ f.fault ≠ .corrupt .underflow := by
  let context (script : Script) : Context :=
    ⟨(namesOf script counter).1, .void, frameSize, [], none⟩
  let start : State := ⟨[.integer 1], 0, [.empty (some 0), .empty none], ⟨1, 1⟩, 3, [], []⟩
  refine .of_test (fun script m i =>
      ∃ g ∈ m.function? 1,
      ∃ whole ∈ script.exprs[1]?, ∃ e ∈ whole.parts[4]?,
      ∃ x ∈ i.startIn (Host.recording.env false) 100 .stateEntry [] {},
      ∃ y ∈ x.1.2.startIn (Host.recording.env false) 100 .touchStart [.integer 1] {},
        script.arrays = true ∧ script.valued = true ∧ g.ret = .void ∧
        (match genExpr e (context script) start with
          | .done ty code st =>
            decide (ty = .integer ∧ st.pc = 10 ∧ opsOf [] code <+: g.ops.toList.drop 3)
          | .failed _ _ => false) = true ∧ x.1.1 = .ok .idle ∧ (match y.1.1 with
          | .ok _ => none
          | .error f => some f.fault) = some .divisionByZero) ?_
  rintro script m i hs hm hmade ⟨g, hg, whole, hwhole, e, he, ⟨⟨_, i₁⟩, w₁⟩, hentry, ⟨⟨r', i₂⟩,
    w₂⟩, htouch, harrays, hvalued, hret, hgen, rfl, hfault⟩
  have hemitted : Emitted script counter m e .integer 1 3 10 := by
    refine ⟨⟨whole, mem_of_getElem? hwhole, mem_of_getElem? he⟩, ?_⟩
    split at hgen
    · rename_i code st hdone
      obtain ⟨rfl, hpc, hpart⟩ := of_decide_eq_true hgen
      refine ⟨context script, start, code, st, [], g, rfl, ?_, hdone, rfl, hpc, hg, hret,
        isPart_of_isPrefix hpart⟩
      exact ⟨rfl, by simp [start, Scope.empty, Scope.region, Region.staticSize], by
        simp [start, Scope.empty], by simp [start, Scope.empty, Scope.region, Chain.vars],
        by simp [start, Scope.empty, Scope.region, Chain.vars]⟩
    · cases hgen
  obtain ⟨hbalances, hsafe⟩ := Module.operands_disciplined hs hm fun _ => hvalued
  cases r' with
  | ok status => cases hfault
  | error f =>
    have hi1 : Instance.Arises m {} i₁ :=
      .start (.new hmade) trivial trivial hentry
    exact ⟨e, i₁, i₂, w₁, w₂, f, harrays, hvalued, hemitted,
      hbalances e .integer 1 3 10 hemitted, hentry, htouch, some.inj hfault,
      (hsafe {} i₁ hi1 _ _ _ _).1 _ _ _ _ _ htouch⟩

def hollow : String :=
  "XMROption arrays; f() \x7b \x7d
   default \x7b touch_start(integer n) \x7b integer b = f() is integer; \x7d \x7d"

/-- There is nothing to test, so the handler misses an operand. -/
theorem hollow_underflows :
    Script.Sample hollow "hollow" 100 fun script _ i =>
      ∃ i' w' f, script.arrays = true ∧ script.valued = false ∧
      i.startIn (Host.recording.env false) 100 .touchStart [.integer 1] {} =
        some ((.error f, i'), w') ∧ f.fault = .corrupt .underflow := by
  refine .of_test (fun script _ i =>
      ∃ x ∈ i.startIn (Host.recording.env false) 100 .touchStart [.integer 1] {},
        script.arrays = true ∧ script.valued = false ∧ (match x.1.1 with
          | .ok _ => none
          | .error f => some f.fault) = some (.corrupt .underflow)) ?_
  rintro script m i hs hm hmade ⟨⟨⟨r, i'⟩, w'⟩, hstart, harrays, hvalued, hfault⟩
  cases r with
  | ok status => cases hfault
  | error f =>
    exact ⟨i', w', f, harrays, hvalued, hstart, some.inj hfault⟩

end EventScript
