import EventScript.Proofs.Steps
import EventScript.Proofs.Streams.Snapshots

/-!
# Frames and values of a machine

Every call has as many variables as its function needs, and a library call that is to be finished
stands on top of a call of the script (`Machine.Shaped`). All arrays are maps (`Machine.Proper`).
Both are so whatever code runs, so a suspended machine has frames that can be read back from a
stream (`Machine.step_stacked`).
-/

namespace EventScript

open List Value

/-! ## Results of operations -/

namespace Value

theorem proper_list : (list vs).Proper ↔ ∀ v ∈ vs, v.Proper := by
  unfold Proper
  rw [all_list]
  exact and_iff_right trivial

theorem proper_default (ty : Ty) : (default ty).Proper := by
  cases ty with
  | list => exact proper_list.2 (by simp)
  | array => exact all_array.2 ⟨⟨nodup_nil, by simp⟩, by simp⟩
  | _ => exact trivial

theorem proper_ofConstant : (ofConstant c).Proper := by
  cases c <;> exact trivial

variable {v r : Value}

theorem Proper.cast {ty : Ty} (hv : v.Proper) (h : v.cast ty = .ok r) : r.Proper := by
  unfold Value.cast at h
  split at h
  · rename_i x hx
    cases h
    cases ty with
    | object => cases hx; exact hv
    | list =>
      cases v with
      | list vs => cases hx; exact hv
      | undefined | array es => cases hx
      | _ => cases hx; exact proper_list.2 (by simp [Proper, All, IsMap])
    | array => cases v <;> cases hx; exact hv
    | void => cases hx
    | _ => cases v <;> cases hx <;> exact trivial
  · cases h

theorem Proper.itemsOf (hv : v.Proper) : ∀ u ∈ BinEval.itemsOf v, u.Proper := by
  cases v with
  | list vs => exact proper_list.1 hv
  | _ => simpa [BinEval.itemsOf] using hv

theorem Proper.result {eval : BinEval} (hl : l.Proper) (hr : r.Proper)
    (h : eval.result l r = .ok v) : v.Proper := by
  unfold BinEval.result at h
  split at h
  · rename_i x hx
    cases h
    cases eval with
    | listAppend =>
      cases hx
      exact proper_list.2 fun u hu => (mem_append.1 hu).elim (hl.itemsOf u) (hr.itemsOf u)
    | listPrepend =>
      cases hx
      refine proper_list.2 fun u hu => ?_
      rcases mem_cons.1 hu with rfl | hu
      · exact hl
      · exact hr.itemsOf u hu
    | intDiv | intMod | floatDiv | floatMod | vecDivScalar =>
      simp only [BinEval.result?] at hx
      split at hx
      · cases hx
      · cases hx; exact trivial
    | _ => cases hx; exact trivial
  · cases h

theorem proper_negate (h : v.negate = .ok r) : r.Proper := by
  cases v <;> cases h <;> exact trivial

theorem proper_component (h : v.component c = .ok r) : r.Proper := by
  unfold component at h
  split at h
  · cases h; exact trivial
  · cases h

theorem proper_setComponent (h : v.setComponent c d = .ok r) : r.Proper := by
  unfold setComponent at h
  split at h
  · rename_i x hx
    cases h
    cases v with
    | vector v =>
      obtain ⟨u, -, rfl⟩ := Option.map_eq_some_iff.1 hx
      exact trivial
    | rotation q => cases hx; exact trivial
    | _ => cases hx
  · cases h

end Value

theorem ArrayKey.proper_toValue (k : ArrayKey) : k.toValue.Proper := by
  cases k <;> exact trivial

/-! ## Arrays -/

namespace Entries

theorem keys_insert (h : (es.map Prod.fst).Nodup) : ((insert k v es).map Prod.fst).Nodup ∧
      ∀ e ∈ insert k v es, e = (k, v) ∨ e ∈ es := by
  induction es with
  | nil => exact ⟨nodup_singleton k, fun e he => .inl (mem_singleton.1 he)⟩
  | cons e es ih =>
    obtain ⟨hnot, hnodup⟩ := nodup_cons.1 h
    unfold insert
    split
    · rename_i hk
      refine ⟨nodup_cons.2 ⟨hk ▸ hnot, hnodup⟩, fun x hx => ?_⟩
      rcases mem_cons.1 hx with rfl | hx
      · exact .inl rfl
      · exact .inr (mem_cons_of_mem _ hx)
    · rename_i hk
      obtain ⟨hkeys, hmem⟩ := ih hnodup
      refine ⟨nodup_cons.2 ⟨fun hin => ?_, hkeys⟩, fun x hx => ?_⟩
      · obtain ⟨x, hx, heq⟩ := mem_map.1 hin
        rcases hmem x hx with rfl | hx
        · exact hk heq.symm
        · exact hnot (heq ▸ mem_map_of_mem hx)
      · rcases mem_cons.1 hx with rfl | hx
        · exact .inr mem_cons_self
        · exact (hmem x hx).imp id (mem_cons_of_mem _)

end Entries

namespace Value

variable {es : Entries}

theorem proper_array : (array es).Proper ↔
    (es.map Prod.fst).Nodup ∧ ∀ e ∈ es, e.2 ≠ undefined ∧ e.2.Proper := by
  unfold Proper
  rw [all_array, forall₂_and]
  exact and_assoc

variable {v : Value}

theorem Proper.set (hes : (array es).Proper) (hv : v.Proper) (key : ArrayKey) :
    (array (es.set key v)).Proper := by
  obtain ⟨hkeys, hvalues⟩ := proper_array.1 hes
  unfold Entries.set
  split
  · refine proper_array.2 ⟨(filter_sublist.map _).nodup hkeys, fun e he => ?_⟩
    exact hvalues e (mem_filter.1 he).1
  · rename_i hdefined
    obtain ⟨hnodup, hmem⟩ := @Entries.keys_insert key v es hkeys
    refine proper_array.2 ⟨hnodup, fun e he => ?_⟩
    rcases hmem e he with rfl | he
    · refine ⟨fun h => hdefined ?_, hv⟩
      change v = undefined at h
      rw [h]
      rfl
    · exact hvalues e he

theorem Proper.setValue (hes : (array es).Proper) (hv : v.Proper)
    (h : es.setValue k v = .ok new) : (array new).Proper := by
  unfold Entries.setValue at h
  cases hk : ArrayKey.ofValue k with
  | error e => rw [hk] at h; cases h
  | ok key =>
    rw [hk] at h
    cases h
    exact hes.set hv key

theorem Proper.get (hes : (array es).Proper) (k : ArrayKey) : (es.get k).Proper := by
  unfold Entries.get
  cases h : es.lookup k with
  | none => exact trivial
  | some v =>
    obtain ⟨l1, l2, heq, -⟩ := lookup_eq_some_iff.1 h
    exact ((proper_array.1 hes).2 (k, v) (by simp [heq])).2

theorem Proper.keyAt (es : Entries) (n : Int32) : (es.keyAt n).Proper := by
  unfold Entries.keyAt
  cases es.at? n with
  | none => exact trivial
  | some e => exact e.1.proper_toValue

theorem Proper.valueAt (hes : (array es).Proper) (n : Int32) : (es.valueAt n).Proper := by
  unfold Entries.valueAt Entries.at?
  split
  · exact trivial
  cases h : es[n.toInt.toNat]? with
  | none => exact trivial
  | some e => exact ((proper_array.1 hes).2 e (mem_of_getElem? h)).2

theorem entries_bind {f : Entries → Except Fault α} (h : (do f (← v.entries)) = .ok a) :
    ∃ es, v = .array es ∧ f es = .ok a := by
  cases v with
  | array es => exact ⟨es, rfl, h⟩
  | _ => cases h

end Value

/-! ## Operands -/

def AllProper (vs : List Value) : Prop := ∀ v ∈ vs, v.Proper

namespace AllProper

theorem cons : AllProper (v :: vs) ↔ v.Proper ∧ AllProper vs := forall_mem_cons

theorem append : AllProper (us ++ vs) ↔ AllProper us ∧ AllProper vs :=
  forall_mem_append

variable (h : AllProper vs)

include h

theorem split
    (hs : Operands.split? n vs = some (args, rest)) : AllProper args ∧ AllProper rest := by
  unfold Operands.split? at hs
  split at hs
  · cases hs
    exact ⟨fun v hv => h v (mem_of_mem_take (mem_reverse.1 hv)),
      fun v hv => h v (mem_of_mem_drop hv)⟩
  · cases hs

theorem unary
    (hf : ∀ v r, v.Proper → f v = .ok r → r.Proper) (hs : Operands.unary f vs = .ok stack) :
    AllProper stack := by
  cases vs with
  | nil => cases hs
  | cons v rest =>
    obtain ⟨hv, hrest⟩ := cons.1 h
    obtain ⟨r, hx, rfl⟩ := Operands.pushResult_ok hs
    exact cons.2 ⟨hf v r hv hx, hrest⟩

theorem binary (hf : ∀ a b r, a.Proper → b.Proper → f a b = .ok r → r.Proper)
    (hs : Operands.binary f vs = .ok stack) : AllProper stack := by
  match vs, h, hs with
  | a :: b :: rest, h, hs =>
    obtain ⟨ha, h⟩ := cons.1 h
    obtain ⟨hb, hrest⟩ := cons.1 h
    obtain ⟨r, hx, rfl⟩ := Operands.pushResult_ok hs
    exact cons.2 ⟨hf a b r ha hb hx, hrest⟩

theorem below
    (hf : ∀ v r, v.Proper → f v = .ok r → r.Proper) (hs : Operands.below f vs = .ok stack) :
    AllProper stack := by
  match vs, h, hs with
  | a :: b :: rest, h, hs =>
    obtain ⟨ha, h⟩ := cons.1 h
    obtain ⟨hb, hrest⟩ := cons.1 h
    cases hx : f b with
    | error e => simp only [Operands.below, hx] at hs; cases hs
    | ok r =>
      simp only [Operands.below, hx] at hs
      cases hs
      exact cons.2 ⟨ha, cons.2 ⟨hf b r hb hx, hrest⟩⟩

theorem gather
    (hf : ∀ args, AllProper args → (f args).Proper) (hs : Operands.gather n f vs = .ok stack) :
    AllProper stack := by
  unfold Operands.gather at hs
  split at hs
  · rename_i args rest hsplit
    cases hs
    obtain ⟨hargs, hrest⟩ := h.split hsplit
    exact cons.2 ⟨hf args hargs, hrest⟩
  · cases hs

theorem operate {op : Op} {g : List Value → Operands}
    (hg : op.operate? = some g) (hs : g vs = .ok stack) : AllProper stack := by
  cases op with
  | pushDefault ty => cases hg; cases hs; exact cons.2 ⟨proper_default ty, h⟩
  | pushUndefined => cases hg; cases hs; exact cons.2 ⟨trivial, h⟩
  | pop =>
    cases hg
    cases vs with
    | nil => cases hs
    | cons v rest => cases hs; exact (cons.1 h).2
  | dup =>
    cases hg
    cases vs with
    | nil => cases hs
    | cons v rest => cases hs; exact cons.2 ⟨(cons.1 h).1, h⟩
  | cast ty => cases hg; exact h.unary (fun _ _ hv => hv.cast) hs
  | castSecond ty => cases hg; exact h.below (fun _ _ hv => hv.cast) hs
  | binary eval => cases hg; exact h.binary (fun _ _ _ => Value.Proper.result) hs
  | neg => cases hg; exact h.unary (fun _ _ _ => proper_negate) hs
  | bitNot | not | isType _ =>
    cases hg
    exact h.unary (fun _ _ _ hr => by cases hr; exact trivial) hs
  | makeList n => cases hg; exact h.gather (fun _ => proper_list.2) hs
  | makeVector =>
    cases hg
    refine h.gather (fun args _ => ?_) hs
    unfold Operands.toVector
    split <;> exact trivial
  | makeRotation =>
    cases hg
    refine h.gather (fun args _ => ?_) hs
    unfold Operands.toRotation
    split <;> exact trivial
  | getField c => cases hg; exact h.unary (fun _ _ _ => proper_component) hs
  | setField c => cases hg; exact h.binary (fun _ _ _ _ _ => proper_setComponent) hs
  | arrayGet =>
    cases hg
    refine h.binary (fun k v r _ hv hr => ?_) hs
    obtain ⟨es, rfl, hr⟩ := Value.entries_bind hr
    cases hk : ArrayKey.ofValue k with
    | error e => simp only [Entries.getValue, hk, bind, Except.bind] at hr; cases hr
    | ok key =>
      simp only [Entries.getValue, hk, bind, Except.bind] at hr
      cases hr
      exact hv.get key
  | arrayCount =>
    cases hg
    refine h.unary (fun v r _ hr => ?_) hs
    obtain ⟨es, -, ⟨⟩⟩ := Value.entries_bind hr
    exact trivial
  | arrayKey =>
    cases hg
    refine h.binary (fun n v r _ _ hr => ?_) hs
    obtain ⟨es, -, ⟨⟩⟩ := Value.entries_bind hr
    exact .keyAt es _
  | arrayValue =>
    cases hg
    refine h.binary (fun n v r _ hv hr => ?_) hs
    obtain ⟨es, rfl, ⟨⟩⟩ := Value.entries_bind hr
    exact hv.valueAt _
  | _ => cases hg

end AllProper

/-! ## Machines -/

structure Frame.Proper (f : Frame) : Prop where
  locals : AllProper f.locals
  operands : AllProper f.operands

theorem Frame.Proper.withOperands {f : Frame} (hf : f.Proper) (h : AllProper stack) : Frame.Proper
    { f with operands := stack } := ⟨hf.locals, h⟩

structure Machine.Proper (s : Machine) : Prop where
  globals : AllProper s.globals
  frames : ∀ f ∈ s.frames, f.Proper

def Frame.IsCaller (m : Module) (f : Frame) : Prop := f.receiver = .script ∧ f.RunsIn m

/-- The frame can be the innermost one, with the given frames around it. -/
def Frame.IsTop (m : Module) (outer : List Frame) (f : Frame) : Prop :=
  match f.receiver with
  | .script => ∃ g, m.function? f.function = some g ∧ f.locals.length = g.localCount.toNat
  | .api => f.Waits ∧ outer ≠ []

/-- Every frame has as many variables as its function needs, and only the innermost one can be of a
library function. -/
def Machine.Shaped (m : Module) : List Frame → Prop
  | [] => True
  | f :: fs => f.IsTop m fs ∧ ∀ g ∈ fs, g.IsCaller m

namespace Machine

variable {ω : Type} {s s' : Machine} {w w' : ω}

theorem fillLocals_length (count : Nat) (args : List Value) :
    (fillLocals count args).length = count := by
  rw [fillLocals, length_append, length_take, length_replicate]
  omega

theorem fillLocals_proper (h : AllProper args) (count : Nat) :
    AllProper (fillLocals count args) := by
  refine AllProper.append.2 ⟨fun v hv => h v (mem_of_mem_take hv), fun v hv => ?_⟩
  rw [eq_of_mem_replicate hv]
  exact trivial

theorem Proper.setTop (hs : s.Proper) (hframes : s.frames = f :: fs) (hf : f'.Proper) :
    (s.setTop f').Proper := by
  refine ⟨hs.globals, fun g hg => ?_⟩
  rw [setTop_frames, hframes] at hg
  rcases mem_cons.1 hg with rfl | hg
  · exact hf
  · exact hs.frames g (by rw [hframes]; exact mem_cons_of_mem _ hg)

theorem Proper.var {var : VarRef} (hs : s.Proper) (hf : f.Proper) (h : s.var? f var = some v) :
    v.Proper := by
  cases var with
  | localVar slot => exact hf.locals v (mem_of_getElem? h)
  | globalVar index => exact hs.globals v (mem_of_getElem? h)

theorem Proper.setVar (hs : s.Proper) (hframes : s.frames = f :: fs) (hf : f'.Proper) (var : VarRef)
    (hv : v.Proper) : (s.setVar f' var v).Proper := by
  have hset {vs : List Value} (hvs : AllProper vs) (n : Nat) : AllProper (vs.set n v) :=
    fun u hu => (mem_or_eq_of_mem_set hu).elim (hvs u) fun h => h ▸ hv
  cases var with
  | localVar slot => exact hs.setTop hframes ⟨hset hf.locals _, hf.operands⟩
  | globalVar index =>
    have := hs.setTop hframes hf
    exact ⟨hset this.globals _, this.frames⟩

theorem answered_proper (hv : g.ret ≠ .void → v.Proper) (hf : f.Proper) :
    (answered g v f).Proper := by
  unfold answered
  split
  · exact hf
  · exact ⟨hf.locals, AllProper.cons.2 ⟨hv ‹_›, hf.operands⟩⟩

theorem enter_proper (hs : s.Proper) (hargs : AllProper args)
    (h : s.enter m i args = .ok s') : s'.Proper := by
  obtain ⟨g, -, -, rfl⟩ := enter_ok h
  refine ⟨hs.globals, fun f hf => ?_⟩
  rcases mem_cons.1 hf with rfl | hf
  · exact ⟨fillLocals_proper hargs _, by simp [AllProper]⟩
  · exact hs.frames f hf

theorem does_proper {ret : Ty} (henv : ∀ g ∈ ApiFunction.table, ∀ args w v w', g.ret ≠ .void →
      env.call g args w = (.ok v, w') → v.Proper) (hs : s.Proper) (hframes : s.frames = f :: fs)
    (hf : f'.Proper) (h : Does env m ret f' s w op s' w') : s'.Proper := by
  have htail : ∀ g ∈ fs, g.Proper := fun g hg =>
    hs.frames g (by rw [hframes]; exact mem_cons_of_mem _ hg)
  cases h with
  | operands hg hstack =>
    exact hs.setTop hframes ⟨hf.locals, hf.operands.operate hg hstack⟩
  | pushConst _ =>
    exact hs.setTop hframes ⟨hf.locals, AllProper.cons.2 ⟨proper_ofConstant, hf.operands⟩⟩
  | load var hv =>
    exact hs.setTop hframes ⟨hf.locals, AllProper.cons.2 ⟨hs.var hf hv, hf.operands⟩⟩
  | store var ho _ =>
    have hops := hf.operands
    rw [ho] at hops
    obtain ⟨hv, hrest⟩ := AllProper.cons.1 hops
    exact hs.setVar hframes (hf.withOperands hrest) var hv
  | @arraySet var _ _ _ _ _ ho hv hnew =>
    have hops := hf.operands
    rw [ho] at hops
    obtain ⟨hval, hops⟩ := AllProper.cons.1 hops
    obtain ⟨-, hrest⟩ := AllProper.cons.1 hops
    exact hs.setVar hframes (hf.withOperands (AllProper.cons.2 ⟨hval, hrest⟩)) var
      ((hs.var hf hv).setValue hval hnew)
  | jump => exact hs.setTop hframes ⟨hf.locals, hf.operands⟩
  | jumpIfFalse ho | jumpIfTrue ho =>
    have hops := hf.operands
    rw [ho] at hops
    exact hs.setTop hframes ⟨hf.locals, (AllProper.cons.1 hops).2⟩
  | jumpIfNoStateChange =>
    split
    · exact hs.setTop hframes ⟨hf.locals, hf.operands⟩
    · exact hs.setTop hframes hf
  | call _ hsplit he =>
    obtain ⟨hargs, hrest⟩ := hf.operands.split hsplit
    exact enter_proper (hs.setTop hframes (hf.withOperands hrest)) hargs he
  | callApi hg hsplit he =>
    obtain ⟨-, hrest⟩ := hf.operands.split hsplit
    refine hs.setTop hframes (answered_proper (fun hne => ?_) (hf.withOperands hrest))
    exact henv _ (mem_of_getElem? hg) _ _ _ _ hne he
  | @ret v caller callers hv hcallers =>
    rw [hframes, tail_cons] at hcallers
    subst hcallers
    have hcaller := htail caller mem_cons_self
    refine ⟨hs.globals, fun g hg => ?_⟩
    rcases mem_cons.1 hg with rfl | hg
    · split
      · exact hcaller
      rename_i hne
      rw [if_neg hne] at hv
      refine ⟨hcaller.locals, AllProper.cons.2 ⟨?_, hcaller.operands⟩⟩
      exact hf.operands v (mem_of_mem_head? hv)
    · exact htail g (mem_cons_of_mem _ hg)
  | memStatic | memIncr _ | memDecr _ | setState =>
    exact ⟨hs.globals, (hs.setTop hframes hf).frames⟩
  | checkRun _ _ => exact hs.setTop hframes hf

theorem step_proper (hcall : ∀ g ∈ ApiFunction.table, ∀ args w v w', g.ret ≠ .void →
      env.call g args w = (.ok v, w') → v.Proper)
    (hresume : ∀ g ∈ ApiFunction.table, ∀ args w v w', g.ret ≠ .void →
      env.resume g args w = (.ok v, w') → v.Proper)
    (hs : s.Proper) (h : step env m s w = .next s' w') : s'.Proper := by
  cases step_goes h with
  | @runs f fs g op s' w' hframes _ _ _ hdoes =>
    have hf : f.Proper := hs.frames f (by rw [hframes]; exact mem_cons_self)
    have hf' : Frame.Proper { f with pc := f.pc + 1 } := ⟨hf.locals, hf.operands⟩
    exact does_proper hcall hs hframes hf' hdoes
  | @answers f caller fs g v w' hframes _ hg he =>
    have hmem {f' : Frame} (hf' : f' ∈ caller :: fs) : f'.Proper :=
      hs.frames f' (by rw [hframes]; exact mem_cons_of_mem _ hf')
    refine ⟨hs.globals, fun f' hf' => ?_⟩
    rcases mem_cons.1 hf' with rfl | hf'
    · refine answered_proper (fun hne => ?_) (hmem mem_cons_self)
      exact hresume _ (mem_of_getElem? hg) _ _ _ _ hne he
    · exact hmem (mem_cons_of_mem _ hf')

theorem pauses_proper (hs : s.Proper) (h : Pauses env m s w s' w') : s'.Proper := by
  cases h with
  | checkpoint hframes _ _ _ =>
    have hf := hs.frames _ (by rw [hframes]; exact mem_cons_self)
    exact hs.setTop hframes ⟨hf.locals, hf.operands⟩
  | asks hframes _ _ _ _ hsplit =>
    have hf := hs.frames _ (by rw [hframes]; exact mem_cons_self)
    obtain ⟨hargs, hrest⟩ := hf.operands.split hsplit
    refine ⟨hs.globals, fun f' hf' => ?_⟩
    rcases mem_cons.1 hf' with rfl | hf'
    · exact ⟨hargs, by simp [AllProper, Frame.waiting]⟩
    rcases mem_cons.1 hf' with rfl | hf'
    · exact ⟨hf.locals, hrest⟩
    · exact hs.frames f' (by rw [hframes]; exact mem_cons_of_mem _ hf')
  | waits hframes _ _ =>
    have hf := hs.frames _ (by rw [hframes]; exact mem_cons_self)
    refine ⟨hs.globals, fun f' hf' => ?_⟩
    rcases mem_cons.1 hf' with rfl | hf'
    · exact ⟨hf.locals, by simp [AllProper, Frame.waiting]⟩
    · exact hs.frames f' (by rw [hframes]; exact mem_cons_of_mem _ hf')

/-! ## Shape -/

section

variable {f : Frame}

theorem enter_shaped (hs : ∀ f ∈ s.frames, f.IsCaller m)
    (h : s.enter m i args = .ok s') : Shaped m s'.frames := by
  obtain ⟨g, hg, -, rfl⟩ := enter_ok h
  exact ⟨⟨g, hg, fillLocals_length _ _⟩, hs⟩

theorem isTop_of_isCaller (h : f.IsCaller m) {f' : Frame} (hr : f'.receiver = f.receiver)
    (hf : f'.function = f.function) (hl : f'.locals.length = f.locals.length) : f'.IsTop m fs := by
  obtain ⟨hscript, g, hg, -, hlocals⟩ := h
  unfold Frame.IsTop
  rw [hr, hscript]
  exact ⟨g, hf ▸ hg, hl.trans hlocals⟩

theorem does_shaped (hframes : s.frames = f :: fs) (hr : f.receiver = .script)
    (hg : m.function? f.function = some g) (hop : g.ops[f.pc]? = some op) (hs : Shaped m s.frames)
    (h : Does env m g.ret { f with pc := f.pc + 1 } s w op s' w') : Shaped m s'.frames := by
  rw [hframes] at hs
  obtain ⟨htop, hcallers⟩ := hs
  have htail : s.frames.tail = fs := by rw [hframes]; rfl
  have hlocals : f.locals.length = g.localCount.toNat := by
    unfold Frame.IsTop at htop
    rw [hr] at htop
    obtain ⟨g', hg', hl⟩ := htop
    rw [hg] at hg'
    cases hg'
    exact hl
  have hpc : f.pc + 1 ≤ g.ops.size := by
    have := (Array.getElem?_eq_some_iff.1 hop).1
    omega
  -- the frame is still one of the same function
  have keep {f' : Frame} (hr' : f'.receiver = f.receiver) (hf' : f'.function = f.function)
      (hl : f'.locals.length = f.locals.length) : Shaped m (f' :: s.frames.tail) := by
    rw [htail]
    refine ⟨?_, hcallers⟩
    unfold Frame.IsTop
    rw [hr', hr]
    exact ⟨g, hf' ▸ hg, hl.trans hlocals⟩
  cases h with
  | store var _ _ | @arraySet var _ _ _ _ _ _ _ _ =>
    cases var with
    | localVar slot => exact keep rfl rfl (length_set ..)
    | globalVar index => exact keep rfl rfl rfl
  | jumpIfNoStateChange =>
    rw [setTop_frames]
    split
    · exact keep rfl rfl rfl
    · exact keep rfl rfl rfl
  | call _ _ he =>
    refine enter_shaped (fun f' hf' => ?_) he
    rw [setTop_frames, htail] at hf'
    rcases mem_cons.1 hf' with rfl | hf'
    · exact ⟨hr, g, hg, hpc, hlocals⟩
    · exact hcallers f' hf'
  | @callApi _ h _ _ v _ _ _ _ =>
    rw [setTop_frames]
    unfold answered
    split
    · exact keep rfl rfl rfl
    · exact keep rfl rfl rfl
  | @ret v caller callers _ hcs =>
    rw [htail] at hcs
    subst hcs
    have hcaller := hcallers caller mem_cons_self
    refine ⟨?_, (forall_mem_cons.1 hcallers).2⟩
    split
    · exact isTop_of_isCaller hcaller rfl rfl rfl
    · exact isTop_of_isCaller hcaller rfl rfl rfl
  | _ => exact keep rfl rfl rfl

end

theorem step_shaped (hs : Shaped m s.frames) (h : step env m s w = .next s' w') :
    Shaped m s'.frames := by
  cases step_goes h with
  | runs hframes hr hg hop hdoes => exact does_shaped hframes hr hg hop hs hdoes
  | @answers f caller fs g v w' hframes _ _ _ =>
    rw [hframes] at hs
    obtain ⟨-, hcallers⟩ := hs
    have hcaller := hcallers caller mem_cons_self
    refine ⟨?_, (forall_mem_cons.1 hcallers).2⟩
    unfold answered
    split
    · exact isTop_of_isCaller hcaller rfl rfl rfl
    · exact isTop_of_isCaller hcaller rfl rfl rfl

theorem stacked_of_callers (hf : f.FitsAt m [] fs)
    (hfs : ∀ g ∈ fs, g.IsCaller m) : Frame.Stacked m (f :: fs) := by
  intro inner g outer heq
  cases inner with
  | nil => cases heq; exact hf
  | cons x inner =>
    cases heq
    obtain ⟨hscript, hruns⟩ := hfs g (by simp)
    unfold Frame.FitsAt
    rw [hscript]
    exact hruns

theorem shaped_of_stacked {frames : List Frame} (h : Frame.Stacked m frames) : Shaped m frames := by
  cases frames with
  | nil => trivial
  | cons f fs =>
    constructor
    · have hf := h [] f fs rfl
      unfold Frame.FitsAt at hf
      unfold Frame.IsTop
      cases hr : f.receiver with
      | script =>
        rw [hr] at hf
        obtain ⟨g, hg, -, hl⟩ := hf
        exact ⟨g, hg, hl⟩
      | api =>
        rw [hr] at hf
        exact ⟨hf.1, hf.2.2⟩
    · intro g hg
      obtain ⟨inner, outer, rfl⟩ := append_of_mem hg
      have hf := h (f :: inner) g outer rfl
      unfold Frame.FitsAt at hf
      split at hf
      · exact ⟨‹_›, hf⟩
      · exact absurd hf.2.1 (cons_ne_nil _ _)

theorem step_stacked (hs : Shaped m s.frames) (h : step env m s w = .halt .suspended s' w') :
    Frame.Stacked m s'.frames := by
  cases step_pauses h with
  | @checkpoint f fs g w' hframes hr hg hop =>
    rw [hframes] at hs
    obtain ⟨htop, hcallers⟩ := hs
    rw [setTop_frames, hframes]
    refine stacked_of_callers ?_ hcallers
    unfold Frame.IsTop at htop
    rw [hr] at htop ⊢
    obtain ⟨g', hg', hl⟩ := htop
    rw [hg] at hg'
    cases hg'
    have hpc := (Array.getElem?_eq_some_iff.1 hop).1
    exact ⟨g, hg, hpc, hl⟩
  | @asks f fs g i k args rest w' hframes hr hg hop hi hsplit =>
    rw [hframes] at hs
    obtain ⟨htop, hcallers⟩ := hs
    have hargs : args.length = k.params.length := by
      unfold Operands.split? at hsplit
      split at hsplit
      · cases hsplit
        rw [length_reverse, length_take]
        omega
      · cases hsplit
    refine stacked_of_callers ⟨⟨k, hi, hargs, rfl, rfl⟩, rfl, cons_ne_nil _ _⟩ fun g' hg' => ?_
    rcases mem_cons.1 hg' with rfl | hg'
    · unfold Frame.IsTop at htop
      rw [hr] at htop
      obtain ⟨g', hg', hl⟩ := htop
      rw [hg] at hg'
      cases hg'
      have hpc := (Array.getElem?_eq_some_iff.1 hop).1
      exact ⟨hr, g, hg, hpc, hl⟩
    · exact hcallers g' hg'
  | @waits f fs g w' hframes hr hg =>
    rw [hframes] at hs
    obtain ⟨htop, hcallers⟩ := hs
    unfold Frame.IsTop at htop
    rw [hr] at htop
    obtain ⟨⟨g', hg', hl, -, -⟩, hne⟩ := htop
    exact stacked_of_callers ⟨⟨g', hg', hl, rfl, rfl⟩, rfl, hne⟩ hcallers

end Machine

end EventScript
