import EventScript.Proofs.Interpretation.Stores

/-!
# Running functions

`Bench` is a running function of a compiled script together with what its code was generated from,
and `Bench.At` says that a machine is at a place in that code where an interpretation is.

1. `Agrees`: what does not depend on the function, which is the globals and the surroundings.
2. `Leaving` and `Calls`: how functions of the script are left, and that calls of them follow the
   interpretation.
3. `Bench.At`, and what single instructions do to it.
-/

namespace EventScript

open List

namespace Compile

/-! ## Variables in initializers -/

/-- A variable that has no value yet has no name in the initializer. -/
def hideFrom (limit : Nat) (p : String × GlobalVar) : String × GlobalVar :=
  if p.2.index.toNat < limit then p else ("", p.2)

/-- The names of a script, as far as they can be used. -/
def Context.seen (c : Context) : Names :=
  match c.globalLimit with
  | none => c.names
  | some limit => { c.names with globals := c.names.globals.map (hideFrom limit) }

variable {l : List (String × GlobalVar)} {limit j : Nat}

theorem index_of_lookup (hl : ∀ k p, l[k]? = some p → p.2.index.toNat = j + k)
    (h : l.lookup name = some g) : j ≤ g.index.toNat := by
  obtain ⟨k, hk⟩ := mem_iff_getElem?.1 (mem_of_lookup h)
  have := hl k _ hk
  dsimp only at this
  omega

theorem lookup_hideFrom (hl : ∀ k p, l[k]? = some p → p.2.index.toNat = j + k) :
    (∀ g, l.lookup name = some g → g.index.toNat < limit →
      (l.map (hideFrom limit)).lookup name = some g) ∧
    ((∀ g, l.lookup name = some g → limit ≤ g.index.toNat) → name ≠ "" →
      (l.map (hideFrom limit)).lookup name = none) := by
  induction l generalizing j with
  | nil => exact ⟨nofun, fun _ _ => rfl⟩
  | cons p l ih =>
    have hp : p.2.index.toNat = j := hl 0 p rfl
    have hrest : ∀ k q, l[k]? = some q → q.2.index.toNat = j + 1 + k := fun k q hq => by
      have := hl (k + 1) q hq
      omega
    obtain ⟨ih1, ih2⟩ := ih hrest
    rw [map_cons, lookup_cons, lookup_cons]
    unfold hideFrom
    by_cases hlt : p.2.index.toNat < limit
    · rw [if_pos hlt]
      cases name == p.1 with
      | true => exact ⟨fun g hg _ => hg, fun hno _ => absurd (hno _ rfl) (by omega)⟩
      | false => exact ⟨ih1, ih2⟩
    · -- the variables behind it have no values either
      rw [if_neg hlt]
      have hlater : ∀ g, l.lookup name = some g → limit ≤ g.index.toNat := fun g hg => by
        have := index_of_lookup hrest hg
        omega
      refine ⟨fun g hg hg' => ?_, fun _ hname => ?_⟩
      · split at hg
        · cases hg
          exact absurd hg' hlt
        · exact absurd (hlater g hg) (by omega)
      · rw [show (name == "") = false by simpa using hname]
        exact ih2 hlater hname

end Compile

namespace Interp

open Compile Machine

variable {ω : Type}

/-! ## Global variables -/

def globalSlots (names : Names) : List (String × LocalVar) :=
  names.globals.map fun p => (p.1, ⟨p.2.index, p.2.ty⟩)

structure Numbered (names : Names) : Prop where
  numbered : ∀ (k : Nat) (p : String × GlobalVar), names.globals[k]? = some p → p.2.index.toNat = k
  globals : ∀ p ∈ names.globals, p.2.ty.Allowed true

/-- The names of a script without the array extension stand for what the module has. -/
structure Reflects (script : Script) (m : Module) (names : Names) : Prop extends Numbered names where
  function : ∀ name sig, names.functions.lookup name = some sig →
    ∃ f g, script.functions.find? (·.name == name) = some f ∧ sig.params = f.params.map Param.ty ∧
      sig.ret = f.ret ∧ m.function? sig.index = some g ∧ g.params = sig.params ∧ g.ret = sig.ret ∧
      (∀ ty ∈ sig.params, ty.Allowed true) ∧ (sig.ret = .void ∨ sig.ret.Allowed true)
  noFunction : ∀ name, names.functions.lookup name = none →
    script.functions.find? (·.name == name) = none
  state : ∀ name i, names.states.lookup name = some i →
    script.states.findIdx? (·.name == name) = some i.toNat

/-- The machine has the globals and the surroundings of the interpretation. -/
structure Agrees (names : Names) (σ : Store ω) (s : Machine) (w : ω) : Prop where
  world : σ.world = w
  pending : s.pending = none
  length : s.globals.length = names.globals.length
  globals : Mirrors s.globals (globalSlots names) σ.globals

theorem Numbered.slots (h : Numbered names) :
    (globalSlots names).map (fun p => p.2.slot.toNat) = List.range names.globals.length := by
  refine ext_getElem? fun k => ?_
  unfold globalSlots
  rw [map_map, getElem?_map]
  cases hk : names.globals[k]? with
  | none =>
    have hle := List.getElem?_eq_none_iff.1 hk
    rw [getElem?_eq_none (by rwa [length_range])]
    rfl
  | some p =>
    rw [getElem?_range (List.getElem?_eq_some_iff.1 hk).1]
    exact congrArg some (h.numbered k p hk)

theorem Mirrors.values_eq (h : Mirrors values vars cells)
    (hslots : vars.map (fun p => p.2.slot.toNat) = range values.length) :
    values = cells.values := by
  refine ext_getElem? fun k => ?_
  have hlen := h.length_eq
  have hvars : vars.length = values.length := by
    have := congrArg length hslots
    rwa [length_map, length_range] at this
  unfold Vars.values
  rw [getElem?_map]
  by_cases hk : k < values.length
  · have hv : k < vars.length := by omega
    have hc : k < cells.length := by omega
    have hstored : Stored values vars[k] cells[k] := List.Forall₂.get h hv hc
    have hslot : vars[k].2.slot.toNat = k := by
      have := congrArg (·[k]?) hslots
      simpa [hv, hk] using this
    rw [getElem?_eq_getElem hc]
    have hvalue := hstored.value
    rw [hslot] at hvalue
    exact hvalue
  · rw [getElem?_eq_none (by omega), getElem?_eq_none (by omega)]
    rfl

theorem Numbered.seen {c : Context} (h : Numbered c.names) : Numbered c.seen := by
  unfold Context.seen
  cases c.globalLimit with
  | none => exact h
  | some limit =>
    have hsame : ∀ p, (hideFrom limit p).2 = p.2 := fun p => by unfold hideFrom; split <;> rfl
    refine ⟨fun k p hk => ?_, fun p hp => ?_⟩
    · rw [getElem?_map] at hk
      obtain ⟨q, hq, rfl⟩ := Option.map_eq_some_iff.1 hk
      rw [hsame]
      exact h.numbered k q hq
    · obtain ⟨q, hq, rfl⟩ := mem_map.1 hp
      rw [hsame]
      exact h.globals q hq

theorem Numbered.lookup_seen (h : Numbered c.names) (hg : Gen.globalOf? c name = some g) :
    c.seen.globals.lookup name = some g := by
  obtain ⟨hg, hlimit⟩ := Option.filter_eq_some_iff.1 hg
  unfold Context.seen
  cases hc : c.globalLimit with
  | none => exact hg
  | some limit =>
    rw [hc] at hlimit
    exact (lookup_hideFrom (j := 0) (by simpa using h.numbered)).1 g hg (by simpa using hlimit)

theorem Numbered.lookup_unseen (h : Numbered c.names) (hg : Gen.globalOf? c name = none)
    (hname : name ≠ "") : c.seen.globals.lookup name = none := by
  have hno := Option.filter_eq_none_iff.1 hg
  unfold Context.seen
  cases hc : c.globalLimit with
  | none =>
    rw [hc] at hno
    exact Option.eq_none_iff_forall_ne_some.2 fun g hg => hno g hg rfl
  | some limit =>
    rw [hc] at hno
    exact (lookup_hideFrom (j := 0) (by simpa using h.numbered)).2
      (fun g hg => by simpa using hno g hg) hname

theorem Agrees.values (h : Agrees names σ s w) (hr : Numbered names) :
    s.globals = σ.globals.values :=
  h.globals.values_eq (by rw [hr.slots, h.length])

theorem Agrees.move (h : Agrees names σ s w) (hworld : σ'.world = σ.world)
    (hcells : σ'.globals = σ.globals) (hpending : s'.pending = s.pending)
    (hglobals : s'.globals = s.globals) : Agrees names σ' s' w where
  world := hworld.trans h.world
  pending := hpending.trans h.pending
  length := by rw [hglobals, h.length]
  globals := by rw [hglobals, hcells]; exact h.globals

theorem globalSlots_lookup : (globalSlots names).lookup name =
      (names.globals.lookup name).map fun g => ⟨g.index, g.ty⟩ := by
  unfold globalSlots
  induction names.globals with
  | nil => rfl
  | cons p ps ih =>
    rw [map_cons, lookup_cons, lookup_cons]
    cases name == p.1 with
    | true => rfl
    | false => exact ih

/-! ## Calls -/

/-- A function with the return type can give the value. -/
def Gives (ret : Ty) : Option Value → Prop
  | none => ret = .void
  | some v => ret ≠ .void ∧ ret.Admits v

/-- The innermost function is at its end and returns a value to the given callers. -/
structure Leaving (m : Module) (callers : List Frame) (ret : Ty) (v : Option Value) (s : Machine) :
    Prop where
  gives : Gives ret v
  exits : ∃ f g, s.frames = f :: callers ∧ f.receiver = .script ∧ m.function? f.function = some g ∧
    g.ret = ret ∧ g.ops[f.pc]? = some .ret ∧ ∀ x, v = some x → f.operands.head? = some x

/-- Calls of functions of the script follow the interpretation, up to the return. -/
def Calls (env : Env ω) (script : Script) (m : Module) (names : Names) (bound : Nat)
    (call : FuncDecl → List Value → Interp ω (Option Value)) : Prop :=
  ∀ name sig f, names.functions.lookup name = some sig →
    script.functions.find? (·.name == name) = some f →
    ∀ σ s w s₀ args, Agrees names σ s w → Ty.AdmitAll sig.params args →
      s.enter m sig.index args = .ok s₀ →
      Follows True env m bound ((call f args).run σ) (fun v σ' s' w' =>
        σ'.scopes = σ.scopes ∧ Agrees names σ' s' w' ∧ Leaving m s.frames sig.ret v s') s₀ w

theorem Gives.read {operands : List Value} (h : Gives ret v)
    (hv : ∀ x, v = some x → operands.head? = some x) :
    (if ret = .void then some .undefined else operands.head?) = some (v.getD .undefined) := by
  cases v with
  | none => exact if_pos h
  | some v => exact (if_neg h.1).trans (hv v rfl)

theorem Leaving.returns (h : Leaving m (caller :: callers) ret v s) :
    step env m s w = .next { s with frames :=
      { caller with operands := v.toList ++ caller.operands } :: callers } w := by
  obtain ⟨hgives, f, g, hframes, hr, hg, rfl, hop, hvalue⟩ := h
  have htail : s.frames.tail = caller :: callers := by rw [hframes]; rfl
  have hd : Does env m g.ret { f with pc := f.pc + 1 } s w .ret { s with frames :=
      (if g.ret = .void then caller else caller.push (v.getD .undefined)) :: callers } w :=
    .ret (hgives.read hvalue) htail
  rw [step_script hframes hr hg hop, exec_of_does hd]
  cases v with
  | none => rw [if_pos (show g.ret = .void from hgives)]; rfl
  | some v => rw [if_neg hgives.1]; rfl

theorem Leaving.completes (h : Leaving m [] ret v s) :
    step env m s w = .halt (.completed (v.getD .undefined)) { s with frames := [] } w := by
  obtain ⟨hgives, f, g, hframes, hr, hg, rfl, hop, hvalue⟩ := h
  rw [step_script hframes hr hg hop]
  simp only [Machine.exec, Machine.leave, hgives.read hvalue, setTop_frames, tail_cons, hframes]
  rfl

/-- What code counts on that calls functions, returns, or has checkpoints. -/
structure Linked (I : Setting ω) (m : Module) (c : Context) (g : Function) : Prop where
  unlimited : c.globalLimit = none
  ret : g.ret = c.ret
  setting_ret : I.ret = c.ret
  ret_allowed : c.ret = .void ∨ c.ret.Allowed true
  reflects : Reflects I.script m c.names
  polls : ∀ w, (I.env.poll w).2 = w
  typed : I.env.Typed
  calls : Calls I.env I.script m c.names I.turns I.call

/-- A function of a compiled script that is running. -/
structure Bench (ω : Type) where
  /-- What the meaning of its code depends on. -/
  setting : Setting ω
  module : Module
  /-- What was known when its code was generated. -/
  context : Context
  /-- The labels of its code. -/
  marks : List (String × Nat)
  index : UInt16
  function : Function
  callers : List Frame
  found : module.function? index = some function
  ordered : Numbered context.names
  /-- The code may call functions and be cut off. -/
  calling : Prop
  linked : calling → Linked setting module context function

namespace Bench

variable (B : Bench ω)

def slots : Nat := B.function.localCount.toNat

abbrev names : Names := B.context.seen

theorem numbered : Numbered B.names := B.ordered.seen

theorem names_eq (hB : B.calling) : B.names = B.context.names := by
  unfold names Context.seen
  rw [(B.linked hB).unlimited]

abbrev Leads (Q : Machine → ω → Prop) : Machine → ω → Prop :=
  Interp.Leads B.calling B.setting.env B.module Q

abbrev Follows {β : Type} (r : Except (Stop ω) (β × Store ω))
    (Q : β → Store ω → Machine → ω → Prop) : Machine → ω → Prop :=
  Interp.Follows B.calling B.setting.env B.module B.setting.turns r Q

/-- The instructions stand at a place in the code. -/
def Has (pc : Nat) (ops : List Op) : Prop :=
  ∀ (k : Nat) (op : Op), ops[k]? = some op → B.function.ops[pc + k]? = some op

/-- The machine is at a place in the code, with the given variables and operands, where the
interpretation is. -/
structure At (pc : Nat) (scopes : List Compile.Scope) (locals operands : List Value)
    (σ : Store ω) (s : Machine) (w : ω) : Prop extends Agrees B.names σ s w where
  frames : s.frames = ⟨.script, B.index, pc, locals, operands⟩ :: B.callers
  locals_length : locals.length = B.slots
  shows : List.Forall₂ (Shows locals) scopes σ.scopes

/-- The machine is at a place in the code where the interpretation is. -/
def Placed (pc : Nat) (scopes : List Compile.Scope) (operands : List Value) (σ : Store ω)
    (s : Machine) (w : ω) : Prop := ∃ locals, B.At pc scopes locals operands σ s w

variable {B}

theorem Has.head (h : B.Has pc (op :: ops)) : B.function.ops[pc]? = some op := h 0 op rfl

theorem Has.tail (h : B.Has pc (op :: ops)) : B.Has (pc + 1) ops := fun k op' hk => by
  rw [Nat.add_assoc, Nat.add_comm 1 k]
  exact h (k + 1) op' hk

theorem Has.left (h : B.Has pc (ops ++ ops')) : B.Has pc ops := fun k op hk =>
  h k op (by rw [getElem?_append_left (List.getElem?_eq_some_iff.1 hk).1, hk])

theorem Has.right (h : B.Has pc (ops ++ ops')) : B.Has (pc + ops.length) ops' :=
  fun k op hk => by
    rw [Nat.add_assoc]
    exact h _ op (by rw [getElem?_append_right (by omega), Nat.add_sub_cancel_left, hk])

namespace At

variable {σ : Store ω} {w : ω} (h : B.At pc scopes locals operands σ s w)

include h

theorem step_eq (hop : B.function.ops[pc]? = some op) :
    step B.setting.env B.module s w = Machine.exec B.setting.env B.module B.function.ret op
      ⟨.script, B.index, pc + 1, locals, operands⟩ s w :=
  step_script h.frames rfl B.found hop

theorem step_does (hop : B.function.ops[pc]? = some op)
    (hd : Does B.setting.env B.module B.function.ret ⟨.script, B.index, pc + 1, locals, operands⟩ s w
      op s' w') : step B.setting.env B.module s w = .next s' w' := by
  rw [h.step_eq hop, exec_of_does hd]

theorem goto (hframes : s'.frames = ⟨.script, B.index, pc', locals', operands'⟩ :: B.callers)
    (hlength : locals'.length = B.slots) (hshows : List.Forall₂ (Shows locals') scopes' σ'.scopes)
    (hworld : σ'.world = σ.world) (hcells : σ'.globals = σ.globals)
    (hpending : s'.pending = s.pending) (hglobals : s'.globals = s.globals) :
    B.At pc' scopes' locals' operands' σ' s' w :=
  { h.toAgrees.move hworld hcells hpending hglobals with
    frames := hframes
    locals_length := hlength
    shows := hshows }

theorem tail : s.frames.tail = B.callers := by
  rw [h.frames]; rfl

theorem moved (pc' : Nat) (stack : List Value) :
    B.At pc' scopes locals stack σ (s.setTop ⟨.script, B.index, pc', locals, stack⟩) w :=
  h.goto (by rw [setTop_frames, h.tail]) h.locals_length h.shows rfl rfl rfl rfl

theorem next (hop : B.function.ops[pc]? = some op)
    (hd : Does B.setting.env B.module B.function.ret ⟨.script, B.index, pc + 1, locals, operands⟩ s w
      op s' w') (hQ : Q s' w') : B.Leads Q s w :=
  .next (h.step_does hop hd) (.here hQ)

/-! ## Instructions -/

theorem operate (hop : B.function.ops[pc]? = some op)
    (hg : op.operate? = some g) (hstack : g operands = .ok stack) :
    B.Leads (B.At (pc + 1) scopes locals stack σ) s w :=
  h.next hop (.operands hg hstack) (h.moved _ _)

theorem compute (hop : B.function.ops[pc]? = some op)
    (hg : op.operate? = some g) {result : Value → List Value}
    (hok : ∀ v, x = .ok v → g operands = .ok (result v))
    (herror : ∀ e, x = .error e → e = .divisionByZero ∧ ∃ rest, g operands = .error (e, rest)) :
    B.Follows ((lift x).run σ)
      (fun v σ' s' w' => x = .ok v ∧ B.At (pc + 1) scopes locals (result v) σ s' w' ∧ σ' = σ) s w := by
  cases x with
  | ok v =>
    exact (h.operate hop hg (hok v rfl)).mono fun s' w' hs => ⟨rfl, hs, rfl⟩
  | error e =>
    obtain ⟨rfl, rest, hrest⟩ := herror e rfl
    refine Follows.abandoned (.inr rfl) ⟨s.setTop ⟨.script, B.index, pc + 1, locals, rest⟩, ?_,
      h.values B.numbered, h.pending⟩
    rw [h.step_eq hop, exec_operate hg, hrest, h.world]
    rfl

theorem pushConst (hop : B.function.ops[pc]? = some (.pushConst i))
    (hc : B.module.constant? i = some c) :
    B.Leads (B.At (pc + 1) scopes locals (.ofConstant c :: operands) σ) s w :=
  h.next hop (.pushConst hc) (h.moved _ _)

theorem loadLocal (hop : B.function.ops[pc]? = some (.loadLocal k))
    (hv : locals[k.toNat]? = some v) :
    B.Leads (B.At (pc + 1) scopes locals (v :: operands) σ) s w :=
  h.next hop (.load (.localVar k) hv) (h.moved _ _)

theorem jump (hop : B.function.ops[pc]? = some (.jump target)) :
    B.Leads (B.At target.toNat scopes locals operands σ) s w := h.next hop .jump (h.moved _ _)

theorem jumpIfNoStateChange (hop : B.function.ops[pc]? = some (.jumpIfNoStateChange target)) :
    B.Leads (B.At target.toNat scopes locals operands σ) s w := by
  refine h.next hop .jumpIfNoStateChange ?_
  rw [h.pending]
  exact h.moved _ _

omit h

theorem storeLocal (h : B.At pc scopes locals (v :: operands) σ s w)
    (hop : B.function.ops[pc]? = some (.storeLocal k)) (hk : k.toNat < B.slots)
    (hfree : k.toNat ∉ slotsOf scopes) :
    B.Leads (B.At (pc + 1) scopes (locals.set k.toNat v) operands σ) s w := by
  have hlt : k.toNat < locals.length := h.locals_length ▸ hk
  have hold := getElem?_eq_getElem hlt
  refine h.next hop (.store (.localVar k) rfl hold) (h.goto ?_ ?_
    (shows_set_other h.shows hfree v) rfl rfl rfl rfl)
  · exact congrArg (_ :: ·) h.tail
  · rw [length_set, h.locals_length]

theorem jumpIfFalse (h : B.At pc scopes locals (v :: operands) σ s w)
    (hop : B.function.ops[pc]? = some (.jumpIfFalse target)) :
    B.Leads (B.At (if v.truthy then pc + 1 else target.toNat) scopes locals operands σ) s w := by
  refine h.next hop (.jumpIfFalse rfl) ?_
  cases v.truthy <;> exact h.moved _ _

theorem jumpIfTrue (h : B.At pc scopes locals (v :: operands) σ s w)
    (hop : B.function.ops[pc]? = some (.jumpIfTrue target)) :
    B.Leads (B.At (if v.truthy then target.toNat else pc + 1) scopes locals operands σ) s w :=
  h.next hop (.jumpIfTrue rfl) (h.moved _ _)

end At

/-! ## Instructions that keep account of the memory -/

/-- The instruction changes nothing but the account of the memory, unless it is a checkpoint at
which the machine is cut off. -/
def Idle (B : Bench ω) : Op → Prop
  | .memStatic _ => True
  | .checkRun => B.calling
  | .memIncr (.localVar k) | .memDecr (.localVar k) => k.toNat < B.slots
  | .memIncr (.globalVar k) | .memDecr (.globalVar k) => k.toNat < B.names.globals.length
  | _ => False

namespace At

variable {σ : Store ω} {w : ω} (h : B.At pc scopes locals operands σ s w)

include h

theorem var?_of_slot (hk : k.toNat < B.slots) :
    ∃ v, s.var? ⟨.script, B.index, pc', locals, stack⟩ (.localVar k) = some v :=
  ⟨_, getElem?_eq_getElem (h.locals_length ▸ hk)⟩

theorem var?_of_global (hk : k.toNat < B.names.globals.length) :
    ∃ v, s.var? f (.globalVar k) = some v := ⟨_, getElem?_eq_getElem (h.length ▸ hk)⟩

theorem charged (n : Int32) : B.At pc scopes locals operands σ { s with memUsage := n } w :=
  h.goto h.frames h.locals_length h.shows rfl rfl rfl rfl

theorem check (hB : B.calling) (hop : B.function.ops[pc]? = some .checkRun) :
    (∃ s', step B.setting.env B.module s w = .next s' w ∧
      B.At (pc + 1) scopes locals operands σ s' w) ∨
    ∃ why s' w', step B.setting.env B.module s w = .halt why s' w' ∧ why.cuts = true := by
  have hstep := h.step_eq hop
  simp only [Machine.exec, Machine.check] at hstep
  have hpoll := (B.linked hB).polls w
  split at hstep
  · exact .inr ⟨_, _, _, hstep, rfl⟩
  split at hstep
  · exact .inr ⟨_, _, _, hstep, rfl⟩
  rename_i hp
  rw [hp] at hpoll
  cases hpoll
  exact .inl ⟨_, hstep, h.moved _ _⟩

theorem idle (hop : B.function.ops[pc]? = some op)
    (hidle : B.Idle op) : B.Leads (B.At (pc + 1) scopes locals operands σ) s w := by
  cases op with
  | memStatic n => exact h.next hop .memStatic ((h.moved _ _).charged _)
  | checkRun =>
    obtain ⟨s', hstep, hs'⟩ | ⟨_, _, _, hstep, hcut⟩ := h.check hidle hop
    · exact .next hstep (.here hs')
    · exact .cut hidle hstep hcut
  | memIncr var | memDecr var =>
    obtain ⟨v, hv⟩ : ∃ v, s.var? ⟨.script, B.index, pc + 1, locals, operands⟩ var = some v := by
      cases var with
      | localVar k => exact h.var?_of_slot hidle
      | globalVar k => exact h.var?_of_global hidle
    first
    | exact h.next hop (.memIncr hv) ((h.moved _ _).charged _)
    | exact h.next hop (.memDecr hv) ((h.moved _ _).charged _)
  | _ => exact hidle.elim

theorem idles (hops : B.Has pc ops) (hidle : ∀ op ∈ ops, B.Idle op) :
    B.Leads (B.At (pc + ops.length) scopes locals operands σ) s w := by
  induction ops generalizing pc s w with
  | nil => exact .here h
  | cons op ops ih =>
    refine (h.idle hops.head (hidle op mem_cons_self)).bind fun s w hs => ?_
    rw [length_cons, Nat.add_comm ops.length, ← Nat.add_assoc]
    exact ih hs hops.tail (forall_mem_cons.1 hidle).2

end At

/-! ## Calls of functions -/

theorem split?_reverse (args operands : List Value) :
    Operands.split? args.length (args.reverse ++ operands) = some (args, operands) := by
  have htake : (args.reverse ++ operands).take args.length = args.reverse :=
    take_left' length_reverse
  have hdrop : (args.reverse ++ operands).drop args.length = operands := drop_left' length_reverse
  unfold Operands.split?
  rw [if_pos (by simp), htake, hdrop, reverse_reverse]

namespace At

theorem call (hB : B.calling) (h : B.At pc scopes locals (args.reverse ++ operands) σ s w)
    (hop : B.function.ops[pc]? = some (.call sig.index))
    (hsig : B.context.names.functions.lookup name = some sig)
    (hf : B.setting.script.functions.find? (·.name == name) = some f)
    (hargs : Ty.AdmitAll sig.params args) :
    B.Follows ((B.setting.call f args).run σ) (fun v σ' s' w' =>
      Gives sig.ret v ∧ B.At (pc + 1) scopes locals (v.toList ++ operands) σ' s' w') s w := by
  obtain ⟨-, g, -, -, -, hg, hparams, -, -⟩ := (B.linked hB).reflects.function name sig hsig
  have hsplit := split?_reverse args operands
  rw [← hargs.length_eq, ← hparams] at hsplit
  have hmoved := h.moved (pc + 1) operands
  have hstep := h.step_eq hop
  simp only [Machine.exec, callFunction, hg, hsplit] at hstep
  split at hstep
  · rename_i s0 hs0
    have hcall := (B.linked hB).calls name sig f hsig hf σ _ w s0 args
      (B.names_eq hB ▸ hmoved.toAgrees) hargs hs0
    rw [← B.names_eq hB] at hcall
    refine Follows.step hstep ((hcall.of_calling hB).bind_post ?_)
    rintro v σ' s' w' ⟨hscopes, hagrees, hleaving⟩
    rw [hmoved.frames] at hleaving
    refine .next hleaving.returns (.here ⟨hleaving.gives, ?_⟩)
    exact {
      hagrees with
      frames := rfl
      locals_length := h.locals_length
      shows := hscopes ▸ h.shows }
  · rename_i he
    unfold Machine.enter at he
    rw [hg] at he
    dsimp only at he
    split at he
    · cases he
      exact .cut hB hstep rfl
    · cases he

theorem callApi (hB : B.calling) (h : B.At pc scopes locals (args.reverse ++ operands) σ s w)
    (hop : B.function.ops[pc]? = some (.callApi i))
    (hg : ApiFunction.get? i = some g) (hargs : args.length = g.params.length) :
    B.Follows ((library B.setting.env g args).run σ) (fun v σ' s' w' =>
      Gives g.ret v ∧ B.At (pc + 1) scopes locals (v.toList ++ operands) σ' s' w') s w := by
  have hsplit := split?_reverse args operands
  rw [hargs] at hsplit
  have hstep := h.step_eq hop
  simp only [Machine.exec, Machine.callApi, hg, hsplit] at hstep
  show B.Follows (library B.setting.env g args σ) _ s w
  unfold library
  rw [h.world]
  cases hcall : B.setting.env.call g args w with
  | mk r w' =>
    rw [hcall] at hstep
    cases r with
    | ok v =>
      refine Follows.step hstep (.here ?_)
      have hframes : (s.setTop (answered g v ⟨.script, B.index, pc + 1, locals, operands⟩)).frames =
          answered g v ⟨.script, B.index, pc + 1, locals, operands⟩ :: B.callers :=
        congrArg (_ :: ·) h.tail
      unfold answered at hframes ⊢
      by_cases hv : g.ret = .void
      · rw [if_pos hv] at hframes ⊢
        rw [if_pos hv]
        exact ⟨hv, { h.toAgrees with
          world := rfl, frames := hframes, locals_length := h.locals_length, shows := h.shows }⟩
      · rw [if_neg hv] at hframes ⊢
        rw [if_neg hv]
        have hadmits : g.ret.Admits v :=
          .inr ((B.linked hB).typed.call g (mem_of_getElem? hg) args w v w' hv hcall)
        exact ⟨⟨hv, hadmits⟩, { h.toAgrees with
          world := rfl, frames := hframes, locals_length := h.locals_length, shows := h.shows }⟩
    | error i =>
      cases i <;> exact Follows.abandoned (.inl hB) ⟨_, hstep, h.values B.numbered, h.pending⟩

end At

/-! ## Names -/

variable (B : Bench ω) (scopes : List Compile.Scope) (name : String) in
/-- The variable that a name stands for where the scopes are open. -/
inductive Resolves : VarRef → Ty → Prop
  | ofLocal : Gen.localOf? name scopes = some v → Resolves (.localVar v.slot) v.ty
  | ofGlobal : Gen.localOf? name scopes = none → B.names.globals.lookup name = some g →
      Resolves (.globalVar g.index) g.ty

theorem resolves_of_meaning (h : Gen.meaningOf? B.context gs name = some (.var var ty)) :
    B.Resolves gs.scopes name var ty := by
  unfold Gen.meaningOf? at h
  split at h
  · rename_i hv
    cases h
    exact .ofLocal hv
  · rename_i hv
    split at h
    · rename_i hg
      cases h
      exact .ofGlobal hv (B.ordered.lookup_seen hg)
    · rw [Option.map_eq_some_iff] at h
      obtain ⟨_, _, h⟩ := h
      cases h

theorem constant_of_meaning (h : Gen.meaningOf? B.context gs name = some (.constant c)) :
    Gen.localOf? name gs.scopes = none ∧ B.names.globals.lookup name = none ∧
      Constant.ofName? name = some c := by
  unfold Gen.meaningOf? at h
  split at h
  · cases h
  rename_i hv
  split at h
  · cases h
  rename_i hg
  rw [Option.map_eq_some_iff] at h
  obtain ⟨_, hc, h⟩ := h
  cases h
  exact ⟨hv, B.ordered.lookup_unseen hg (by rintro rfl; cases hc), hc⟩

theorem Resolves.allowed (h : B.Resolves scopes name var ty) (hs : Apart scopes n) :
    ty.Allowed true := by
  cases h with
  | ofLocal hv =>
    obtain ⟨scope, hscope, hlookup⟩ := exists_of_findSome?_eq_some hv
    exact hs.allowed scope hscope _ (mem_append_left _ (mem_of_lookup hlookup))
  | ofGlobal _ hg => exact B.numbered.globals _ (mem_of_lookup hg)

theorem Resolves.idle (h : B.Resolves scopes name var ty) (hs : Apart scopes n) (hn : n ≤ B.slots) :
    B.Idle (.memIncr var) ∧ B.Idle (.memDecr var) := by
  cases h with
  | ofLocal hv =>
    have hlt := Nat.lt_of_lt_of_le (hs.below _ (localOf?_mem hv)) hn
    exact ⟨hlt, hlt⟩
  | ofGlobal _ hg =>
    obtain ⟨k, hk⟩ := mem_iff_getElem?.1 (mem_of_lookup hg)
    have hlt := (List.getElem?_eq_some_iff.1 hk).1
    rw [← B.numbered.numbered k _ hk] at hlt
    exact ⟨hlt, hlt⟩

namespace At

variable {σ : Store ω} {w : ω} (h : B.At pc scopes locals operands σ s w)

include h

theorem localCell?_none (hv : Gen.localOf? name scopes = none) :
    σ.cell? name = σ.globals.lookup name := by
  unfold Store.cell?
  rw [shows_lookup_none h.shows hv]
  rfl

theorem cell (hr : B.Resolves scopes name var ty)
    (pc' : Nat) (stack : List Value) : ∃ x, σ.cell? name = some x ∧ x.ty = ty ∧ ty.Admits x.value ∧
      s.var? ⟨.script, B.index, pc', locals, stack⟩ var = some x.value := by
  cases hr with
  | ofLocal hv =>
    obtain ⟨x, hx, hstored⟩ := shows_lookup h.shows hv
    refine ⟨x, ?_, hstored.ty, hstored.admits, hstored.value⟩
    unfold Store.cell?
    rw [hx]
    rfl
  | @ofGlobal g hv hg =>
    have hslot : (globalSlots B.names).lookup name = some ⟨g.index, g.ty⟩ := by
      rw [globalSlots_lookup, hg]; rfl
    obtain ⟨x, hx, hstored⟩ := h.globals.lookup hslot
    exact ⟨x, (h.localCell?_none hv).trans hx, hstored.ty, hstored.admits, hstored.value⟩

theorem load (hr : B.Resolves scopes name var ty)
    (hop : B.function.ops[pc]? = some var.loadOp) (hx : σ.cell? name = some x) :
    B.Leads (B.At (pc + 1) scopes locals (x.value :: operands) σ) s w := by
  obtain ⟨y, hy, -, -, hvar⟩ := h.cell hr (pc + 1) operands
  obtain rfl := Option.some.inj (hy.symm.trans hx)
  exact h.next hop (.load var hvar) (h.moved _ _)

theorem assign?_isSome (hr : B.Resolves scopes name var ty) (hs : Apart scopes n) (hv : ty.Admits v) :
    ∃ σ', σ.assign? name v = some σ' := by
  obtain ⟨x, hx, -⟩ := h.cell hr pc operands
  unfold Store.assign?
  cases hr with
  | ofLocal hu =>
    obtain ⟨ys, hys, -⟩ := shows_set h.shows hu hs.nodup hv
    rw [hys]
    exact ⟨_, rfl⟩
  | ofGlobal hl hg =>
    rw [setLocal?_none (shows_lookup_none h.shows hl)]
    rw [h.localCell?_none hl] at hx
    rw [hx, if_pos (by rfl)]
    exact ⟨_, rfl⟩

omit h

theorem store (h : B.At pc scopes locals (v :: operands) σ s w) (hr : B.Resolves scopes name var ty)
    (hop : B.function.ops[pc]? = some var.storeOp) (hs : Apart scopes n) (hv : ty.Admits v)
    (hσ' : σ.assign? name v = some σ') :
    B.Leads (fun s w => ∃ locals', (∀ k, k ∉ slotsOf scopes → locals'[k]? = locals[k]?) ∧
      B.At (pc + 1) scopes locals' operands σ' s w) s w := by
  obtain ⟨x, hx, -, -, hvar⟩ := h.cell hr (pc + 1) (v :: operands)
  have hdoes : Does B.setting.env B.module B.function.ret
      ⟨.script, B.index, pc + 1, locals, v :: operands⟩ s w var.storeOp
      (s.setVar ⟨.script, B.index, pc + 1, locals, operands⟩ var v) w := .store var rfl hvar
  refine h.next hop hdoes ?_
  unfold Store.assign? at hσ'
  cases hr with
  | @ofLocal u hu =>
    obtain ⟨ys, hys, hshows⟩ := shows_set h.shows hu hs.nodup hv
    rw [hys] at hσ'
    cases hσ'
    refine ⟨locals.set u.slot.toNat v, fun k hk => ?_, ?_⟩
    · have hmem := localOf?_mem hu
      exact getElem?_set_ne (by rintro rfl; exact hk hmem)
    · refine h.goto (congrArg (_ :: ·) h.tail) ?_ hshows rfl rfl rfl rfl
      rw [length_set, h.locals_length]
  | @ofGlobal g hl hg =>
    have hslot : (globalSlots B.names).lookup name = some ⟨g.index, g.ty⟩ := by
      rw [globalSlots_lookup, hg]; rfl
    rw [setLocal?_none (shows_lookup_none h.shows hl)] at hσ'
    rw [h.localCell?_none hl] at hx
    rw [hx, if_pos (by rfl)] at hσ'
    cases hσ'
    refine ⟨locals, fun _ _ => rfl, ?_⟩
    have hnodup : ((globalSlots B.names).map fun p => p.2.slot.toNat).Nodup := by
      rw [B.numbered.slots]; exact nodup_range
    exact {
      world := h.world
      pending := h.pending
      length := (length_set ..).trans h.length
      globals := h.globals.set hslot hnodup hv
      frames := congrArg (_ :: ·) h.tail
      locals_length := h.locals_length
      shows := h.shows }

theorem storeOps (h : B.At pc scopes locals (v :: operands) σ s w)
    (hr : B.Resolves scopes name var ty) (hops : B.Has pc (Compile.storeOps var ty))
    (hs : Apart scopes n) (hn : n ≤ B.slots) (hv : ty.Admits v) (hσ' : σ.assign? name v = some σ') :
    B.Leads (fun s w => ∃ locals', (∀ k, k ∉ slotsOf scopes → locals'[k]? = locals[k]?) ∧
      B.At (pc + (Compile.storeOps var ty).length) scopes locals' operands σ' s w) s w := by
  obtain ⟨hincr, hdecr⟩ := hr.idle hs hn
  unfold Compile.storeOps at hops ⊢
  split at hops
  · refine (h.idle hops.head hdecr).bind fun s w h1 => ?_
    refine (h1.store hr hops.tail.head hs hv hσ').bind ?_
    rintro s w ⟨locals', hkeeps, h2⟩
    refine (h2.idle hops.tail.tail.head hincr).mono fun s w h3 => ⟨locals', hkeeps, ?_⟩
    rwa [if_pos ‹_›]
  · refine (h.store hr hops.head hs hv hσ').mono ?_
    rintro s w ⟨locals', hkeeps, h1⟩
    exact ⟨locals', hkeeps, by rwa [if_neg ‹_›]⟩

end At

end Bench

end Interp

end EventScript
