import EventScript.Proofs.Instructions

/-!
# Assertions about the code of a function

A function is looked at from the inside: its variables, its operands, the global variables, and the
memory in use less what the calls below it account for (`Local`). `wp` says when an instruction
leads only to states with given assertions, whatever the other functions and the library do within
the terms of a `Contract`. Assertions that hold together at the places of a function are an
`Annotated` function.

The same notion serves for the types of values and for the account of memory. For types a contract
says which values pass between functions; for memory it says that a call gives back what it takes.
-/

namespace EventScript

theorem forall₂_getElem? {as : List α} {bs : List β}
    (h : List.Forall₂ R as bs) {i : Nat} {b : β} (ha : as[i]? = some a)
    (hb : bs[i]? = some b) : R a b := by
  induction h generalizing i with
  | nil => cases ha
  | cons hr _ ih =>
    cases i with
    | zero => cases ha; cases hb; exact hr
    | succ i => exact ih ha hb

theorem forall2_set (h : List.Forall₂ R as bs) (ha : as[i]? = some a) (hr : R a b) :
    List.Forall₂ R as (bs.set i b) := by
  induction h generalizing i with
  | nil => cases ha
  | cons hr' h ih =>
    cases i with
    | zero => cases ha; exact .cons hr h
    | succ i => exact .cons hr' (ih ha)

structure Local where
  locals : List Value
  /-- The operands, top first. -/
  operands : List Value
  globals : List Value
  /-- The memory in use, less what the active calls below account for. -/
  mem : Int

namespace Local

def push (x : Local) (v : Value) : Local := { x with operands := v :: x.operands }

def var? (x : Local) : VarRef → Option Value
  | .localVar slot => x.locals[slot.toNat]?
  | .globalVar index => x.globals[index.toNat]?

def setVar (x : Local) (var : VarRef) (v : Value) : Local :=
  match var with
  | .localVar slot => { x with locals := x.locals.set slot.toNat v }
  | .globalVar index => { x with globals := x.globals.set index.toNat v }

end Local

def contentCost (ty : Ty) (v : Value) : Int := if ty.hasDynamicSize then v.dynSize.toInt else 0

/-- The cost of variables of the given types and their contents. -/
def globalsCost : List Ty → List Value → Int
  | ty :: tys, v :: vs => ty.staticSize.toInt + contentCost ty v + globalsCost tys vs
  | ty :: tys, [] => ty.staticSize.toInt + globalsCost tys []
  | [], _ => 0

def answer (ret : Ty) (v : Value) (operands : List Value) : List Value :=
  if ret = .void then operands else v :: operands

/-- The terms on which the functions of a module work together. -/
structure Terms where
  /-- The types of the global variables. -/
  globals : List Ty
  constants : List Constant
  /-- The parameters and the return types of the functions that can be called. -/
  functions : List (List Ty × Ty)
  states : Nat
  /-- What is so of the global variables at all times. -/
  Shared : List Value → Prop
  /-- What is so of a value of a type that is passed to a function or returned by one. -/
  Passed : Ty → Value → Prop
  /-- A function gives back the memory that it accounts for. -/
  balanced : Bool

structure Contract extends Terms where
  ret : Ty
  /-- What is so of the variables, and of what the function accounts for, where it calls another or
  can be stopped. -/
  Check : Nat → List Value → Int → Prop
  /-- The function finds what its instructions need. -/
  strict : Bool
  /-- What is so of the variables at a place. -/
  Here : Nat → List Value → Prop := fun _ _ => True

def Fault.isCorrupt : Fault → Bool
  | .corrupt _ => true
  | _ => false

def Fault.IsCodeError : Fault → Prop
  | .corrupt _ | .badCast _ _ => True
  | _ => False

def Local.Finds (K : Contract) (x : Local) : Op → Prop
  | .pushConst i => i.toNat < K.constants.length
  | .loadLocal slot => (x.var? (.localVar slot)).isSome
  | .loadGlobal index => (x.var? (.globalVar index)).isSome
  | .storeLocal slot => x.operands ≠ [] ∧ (x.var? (.localVar slot)).isSome
  | .storeGlobal index => x.operands ≠ [] ∧ (x.var? (.globalVar index)).isSome
  | .arraySet _ => False
  | .jumpIfFalse _ | .jumpIfTrue _ => x.operands ≠ []
  | .ret => K.ret ≠ .void → x.operands ≠ []
  | .memIncr var | .memDecr var => (x.var? var).isSome
  | .call i => ∀ params ret, K.functions[i.toNat]? = some (params, ret) →
      params.length ≤ x.operands.length
  | .callApi i => ∀ f, ApiFunction.get? i = some f → f.params.length ≤ x.operands.length
  | op => ∀ g, op.operate? = some g → ∀ e rest, g x.operands = .error (e, rest) → ¬ e.IsCodeError

def Local.charge (T : Terms) (x : Local) : Int := x.mem - globalsCost T.globals x.globals

/-- Whatever a call of a function of the given type does and returns, the assertion holds after
it. -/
def Resumes (T : Terms) (locals rest : List Value) (charge : Int) (ret : Ty) (P : Local → Prop) :
    Prop :=
  ∀ globals v, T.Shared globals → (ret ≠ .void → T.Passed ret v) →
    P ⟨locals, answer ret v rest, globals, globalsCost T.globals globals + charge⟩

def Calls (K : Contract) (pc : Nat) (x : Local) (params : List Ty) (ret : Ty)
    (P : Local → Prop) : Prop :=
  ∀ args rest, Operands.split? params.length x.operands = some (args, rest) →
    List.Forall₂ K.Passed params args ∧ K.Check pc x.locals (x.charge K.toTerms) ∧
    Resumes K.toTerms x.locals rest (x.charge K.toTerms) ret P

/-- The states after an instruction at a place have the assertions `I`. -/
def LeadsTo (K : Contract) (pc : Nat) (x : Local) (I : Nat → Local → Prop) : Op → Prop
  | .pushConst i => ∀ c, K.constants[i.toNat]? = some c → I (pc + 1) (x.push (.ofConstant c))
  | .loadLocal slot => ∀ v, x.var? (.localVar slot) = some v → I (pc + 1) (x.push v)
  | .loadGlobal index => ∀ v, x.var? (.globalVar index) = some v → I (pc + 1) (x.push v)
  | .storeLocal slot => ∀ v rest old, x.operands = v :: rest → x.var? (.localVar slot) = some old →
      I (pc + 1) ({ x with operands := rest }.setVar (.localVar slot) v)
  | .storeGlobal index => ∀ v rest old, x.operands = v :: rest →
      x.var? (.globalVar index) = some old →
      I (pc + 1) ({ x with operands := rest }.setVar (.globalVar index) v)
  | .arraySet var => ∀ v k rest old new, x.operands = v :: k :: rest →
      x.var? var = some (.array old) → Entries.setValue old k v = .ok new →
      I (pc + 1) ({ x with operands := v :: rest }.setVar var (.array new))
  | .jump target => I target.toNat x
  | .jumpIfFalse target | .jumpIfTrue target => ∀ v rest, x.operands = v :: rest →
      I (pc + 1) { x with operands := rest } ∧ I target.toNat { x with operands := rest }
  | .jumpIfNoStateChange target => I (pc + 1) x ∧ I target.toNat x
  | .call i => ∃ params ret, K.functions[i.toNat]? = some (params, ret) ∧
      Calls K pc x params ret (I (pc + 1))
  | .callApi i => ∃ f, ApiFunction.get? i = some f ∧
      Calls K pc x f.signature f.ret (I (pc + 1))
  | .ret => (K.balanced = true → x.charge K.toTerms = 0) ∧
      (K.ret ≠ .void → ∀ v ∈ x.operands.head?, K.Passed K.ret v)
  | .memStatic n => I (pc + 1) { x with mem := x.mem + n.toInt }
  | .memIncr var => ∀ v, x.var? var = some v → I (pc + 1) { x with mem := x.mem + v.dynSize.toInt }
  | .memDecr var => ∀ v, x.var? var = some v → I (pc + 1) { x with mem := x.mem - v.dynSize.toInt }
  | .checkRun => K.Check pc x.locals (x.charge K.toTerms) ∧ I (pc + 1) x
  | .setState i => i.toNat < K.states ∧ I (pc + 1) x
  | op => ∀ g stack, op.operate? = some g → g x.operands = .ok stack →
      I (pc + 1) { x with operands := stack }

/-- What is so of a state at a place, whatever the instruction. -/
structure Local.Stands (K : Contract) (pc : Nat) (x : Local) : Prop where
  shared : K.Shared x.globals
  here : K.Here pc x.locals

/-- The instruction at a place leads only to states with the assertions `I`. -/
structure Wp (K : Contract) (op : Op) (pc : Nat) (x : Local) (I : Nat → Local → Prop) : Prop
    extends Local.Stands K pc x where
  finds : K.strict = true → x.Finds K op
  leads : LeadsTo K pc x I op

variable {x : Local}

theorem leadsTo_of_operate (hg : op.operate? = some g) :
    LeadsTo K pc x I op ↔ ∀ stack, g x.operands = .ok stack →
      I (pc + 1) { x with operands := stack } := by
  have h : LeadsTo K pc x I op = ∀ g stack, op.operate? = some g → g x.operands = .ok stack →
      I (pc + 1) { x with operands := stack } := by
    cases op <;> first | rfl | cases hg
  rw [h, hg]
  exact ⟨fun h stack => h g stack rfl, fun h _ stack hg' => Option.some.inj hg' ▸ h stack⟩

theorem finds_of_operate (hg : op.operate? = some g) :
    x.Finds K op ↔ ∀ e rest, g x.operands = .error (e, rest) → ¬ e.IsCodeError := by
  have h : x.Finds K op = ∀ g, op.operate? = some g → ∀ e rest, g x.operands = .error (e, rest) →
      ¬ e.IsCodeError := by
    cases op <;> first | rfl | cases hg
  rw [h, hg]
  exact ⟨fun h => h g rfl, fun h _ hg' => Option.some.inj hg' ▸ h⟩

/-- What leads to states with some assertions leads to states with weaker ones. -/
theorem LeadsTo.mono (h : ∀ p y, I p y → I' p y)
    (hl : LeadsTo K pc x I op) : LeadsTo K pc x I' op := by
  have calls : ∀ {params ret}, Calls K pc x params ret (I (pc + 1)) →
      Calls K pc x params ret (I' (pc + 1)) := by
    intro params ret hc args rest hs
    obtain ⟨ha, hcheck, hr⟩ := hc args rest hs
    exact ⟨ha, hcheck, fun globals v hg hv => h _ _ (hr globals v hg hv)⟩
  cases op with
  | pushConst i => exact fun c hc => h _ _ (hl c hc)
  | loadLocal slot | loadGlobal index | memIncr var | memDecr var =>
    exact fun v hv => h _ _ (hl v hv)
  | storeLocal slot | storeGlobal index => exact fun v rest old ho hv => h _ _ (hl v rest old ho hv)
  | arraySet var => exact fun v k rest old new ho hv hs => h _ _ (hl v k rest old new ho hv hs)
  | jump target | memStatic n => exact h _ _ hl
  | jumpIfFalse target | jumpIfTrue target =>
    exact fun v rest ho => ⟨h _ _ (hl v rest ho).1, h _ _ (hl v rest ho).2⟩
  | jumpIfNoStateChange target => exact ⟨h _ _ hl.1, h _ _ hl.2⟩
  | call i =>
    obtain ⟨params, ret, hf, hc⟩ := hl
    exact ⟨params, ret, hf, calls hc⟩
  | callApi i =>
    obtain ⟨f, hf, hc⟩ := hl
    exact ⟨f, hf, calls hc⟩
  | ret => exact hl
  | checkRun | setState i => exact ⟨hl.1, h _ _ hl.2⟩
  | _ => exact fun g stack hg hs => h _ _ (hl g stack hg hs)

theorem Wp.mono (h : ∀ p y, I p y → I' p y) (hw : Wp K op pc x I) : Wp K op pc x I' :=
  ⟨hw.toStands, hw.finds, hw.leads.mono h⟩

/-- The assertions hold together at the places of the code. -/
def Annotated (K : Contract) (ops : List Op) (I : Nat → Local → Prop) : Prop :=
  ∀ p x, I p x → ∃ op, ops[p]? = some op ∧ Wp K op p x I

/-! ## Pieces of code -/

/-- The instruction is at a place of code that starts at `pc`. -/
def Sits (pc : Nat) (ops : List Op) (p : Nat) (op : Op) : Prop :=
  pc ≤ p ∧ ops[p - pc]? = some op

/-- Assertions are extended with ones at the places of some code. From these the code leads to
assertions, or to the places `L` of labels. -/
structure Extends (K : Contract) (L : Nat → Local → Prop) (pc : Nat) (ops : List Op)
    (I I' : Nat → Local → Prop) : Prop where
  le : ∀ p x, I p x → I' p x
  step : ∀ p x, I' p x → I p x ∨ ∃ op, Sits pc ops p op ∧ Wp K op p x fun q y => I' q y ∨ L q y

/-- From states with the assertion `P` the code leads to ones with the assertion `Q` at its end, or
to the places `L` of labels. It can also be entered at the places `entries`, with assertions of
their own. -/
def Flows (K : Contract) (L : Nat → Local → Prop) (pc : Nat) (ops : List Op) (P Q : Local → Prop)
    (entries : List (Nat × (Local → Prop))) : Prop :=
  ∀ I, (∀ x, Q x → I (pc + ops.length) x) → ∃ I', Extends K L pc ops I I' ∧
    (∀ x, P x → I' pc x) ∧ ∀ e ∈ entries, ∀ x, e.2 x → I' e.1 x

variable {I : Nat → Local → Prop}
  {P Q : Local → Prop}

def IsPart (pc : Nat) (ops : List Op) (pc' : Nat) (ops' : List Op) : Prop :=
  ∀ p op, Sits pc ops p op → Sits pc' ops' p op

theorem isPart_append_left (pc : Nat) (a b : List Op) : IsPart pc a pc (a ++ b) := by
  rintro p op ⟨hp, ho⟩
  exact ⟨hp, by rw [List.getElem?_append_left (List.getElem?_eq_some_iff.1 ho).1, ho]⟩

theorem isPart_append_right (pc : Nat) (a b : List Op) : IsPart (pc + a.length) b pc (a ++ b) := by
  rintro p op ⟨hp, ho⟩
  refine ⟨by omega, ?_⟩
  rw [List.getElem?_append_right (by omega), ← ho]
  congr 1
  omega

namespace Extends

theorem refl (I : Nat → Local → Prop) : Extends K L pc ops I I := ⟨fun _ _ => id, fun _ _ => .inl⟩

theorem trans (h1 : Extends K L pc ops I I1) (h2 : Extends K L pc ops I1 I2) :
    Extends K L pc ops I I2 where
  le := fun p x hx => h2.le p x (h1.le p x hx)
  step := fun p x hx => by
    rcases h2.step p x hx with hx | hx
    · rcases h1.step p x hx with hx | ⟨op, hop, hw⟩
      · exact .inl hx
      · exact .inr ⟨op, hop, hw.mono fun q y => Or.imp (h2.le q y) id⟩
    · exact .inr hx

theorem part (h : Extends K L pc ops I I1)
    (hp : IsPart pc ops pc' ops') : Extends K L pc' ops' I I1 where
  le := h.le
  step := fun p x hx => (h.step p x hx).imp id fun ⟨op, hop, hw⟩ => ⟨op, hp p op hop, hw⟩

theorem add (op : Op) (hop : Sits pc ops p op)
    (hw : ∀ x, P x → Wp K op p x fun q y => I q y ∨ L q y) :
    Extends K L pc ops I fun q y => I q y ∨ q = p ∧ P y where
  le := fun _ _ => .inl
  step := fun q x hx => by
    rcases hx with hx | ⟨rfl, hx⟩
    · exact .inl hx
    · exact .inr ⟨op, hop, (hw x hx).mono fun _ _ => Or.imp .inl id⟩

end Extends

namespace Flows

theorem mono (h : Flows K L pc ops P Q e1) (hP : ∀ x, P' x → P x)
    (hQ : ∀ x, Q x → Q' x) : Flows K L pc ops P' Q' e1 := by
  intro I hI
  obtain ⟨I', he, hP', hs⟩ := h I fun x hx => hI x (hQ x hx)
  exact ⟨I', he, fun x hx => hP' x (hP x hx), hs⟩

theorem labels (h : Flows K L pc ops P Q e1)
    (hL : ∀ p x, L p x → L' p x) : Flows K L' pc ops P Q e1 := by
  intro I hI
  obtain ⟨I', he, hP, hs⟩ := h I hI
  refine ⟨I', ⟨he.le, fun p x hx => (he.step p x hx).imp id fun ⟨op, hop, hw⟩ => ?_⟩, hP, hs⟩
  exact ⟨op, hop, hw.mono fun q y => Or.imp id (hL q y)⟩

theorem nil (h : ∀ x, P x → Q x) : Flows K L pc [] P Q [] := fun I hI =>
  ⟨I, .refl I, fun x hx => hI x (h x hx), nofun⟩

theorem append (h1 : Flows K L pc a P Q e1) (h2 : Flows K L (pc + a.length) b Q R e2) :
    Flows K L pc (a ++ b) P R (e1 ++ e2) := by
  intro I hI
  obtain ⟨I2, he2, hQ, hs2⟩ := h2 I fun x hx => by
    have := hI x hx
    rwa [List.length_append, ← Nat.add_assoc] at this
  obtain ⟨I1, he1, hP, hs1⟩ := h1 I2 hQ
  refine ⟨I1, (he2.part (isPart_append_right pc a b)).trans (he1.part (isPart_append_left pc a b)),
    hP, fun e he x hx => ?_⟩
  rcases List.mem_append.1 he with he | he
  · exact hs1 e he x hx
  · exact he1.le _ _ (hs2 e he x hx)

theorem op {op : Op} (h : ∀ x I, P x → (∀ y, Q y → I (pc + 1) y) → (∀ p y, L p y → I p y) →
    Wp K op pc x I) : Flows K L pc [op] P Q [] := by
  intro I hI
  have hop : Sits pc [op] pc op := ⟨le_rfl, by rw [Nat.sub_self]; rfl⟩
  refine ⟨_, .add op hop fun x hx => ?_, fun x hx => .inr ⟨rfl, hx⟩, nofun⟩
  exact h x _ hx (fun y hy => .inl (hI y hy)) fun _ _ => .inr

theorem entry (h : Flows K L pc ops P Q e1) : Flows K L pc ops P Q ((pc, P) :: e1) := by
  intro I hI
  obtain ⟨I', he, hP, hs⟩ := h I hI
  refine ⟨I', he, hP, fun e hmem x hx => ?_⟩
  rcases List.mem_cons.1 hmem with rfl | hmem
  · exact hP x hx
  · exact hs e hmem x hx

theorem entries (h : Flows K L pc ops P Q e1)
    (he : ∀ e ∈ e2, ∃ e' ∈ e1, e'.1 = e.1 ∧ ∀ x, e.2 x → e'.2 x) : Flows K L pc ops P Q e2 := by
  intro I hI
  obtain ⟨I', hext, hP, hs⟩ := h I hI
  refine ⟨I', hext, hP, fun e hmem x hx => ?_⟩
  obtain ⟨e', hmem', heq, himp⟩ := he e hmem
  exact heq ▸ hs e' hmem' x (himp x hx)

theorem subset (h : Flows K L pc ops P Q e1) (he : ∀ e ∈ e2, e ∈ e1) : Flows K L pc ops P Q e2 :=
  h.entries fun e hmem => ⟨e, he e hmem, rfl, fun _ => id⟩

/-- A label that is a place of the code or its end is not a place outside. -/
theorem resolve (h : Flows K (fun p y => L p y ∨ p = q ∧ R y) pc ops P Q e1)
    (hq : (q = pc + ops.length ∧ ∀ x, R x → Q x) ∨ (q, R) ∈ e1) : Flows K L pc ops P Q e1 := by
  intro I hI
  obtain ⟨I', he, hP, hs⟩ := h I hI
  have hR : ∀ x, R x → I' q x := by
    rcases hq with ⟨rfl, hq⟩ | hq
    · exact fun x hx => he.le _ _ (hI x (hq x hx))
    · exact hs (q, R) hq
  refine ⟨I', ⟨he.le, fun p x hx => (he.step p x hx).imp id fun ⟨op, hop, hw⟩ => ?_⟩, hP, hs⟩
  refine ⟨op, hop, hw.mono fun p y => ?_⟩
  rintro (hy | hy | ⟨rfl, hy⟩)
  · exact .inl hy
  · exact .inr hy
  · exact .inl (hR y hy)

end Flows

end EventScript
