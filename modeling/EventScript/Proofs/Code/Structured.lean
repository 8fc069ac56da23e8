import EventScript.Compile
import EventScript.Proofs.Instructions
import EventScript.Proofs.Syntax

/-!
# Structured code

The shapes that compiled code has, apart from the syntax trees that it comes from.

1. `Straight`: code without loops that takes the operand stack from some types to others. It reads
   and assigns variables, calls functions, and a state change that a call asks for ends it.
2. `Structured`: statements, made of straight code, branches, loops, blocks with variables, labels
   and jumps to labels of the blocks around them.
3. `FunctionCode` and `InitCode`: whole functions, and the initializer of the global variables.

They are relations between code and the variables in scope. That generated code has these shapes is
proved in the modules on expressions, statements and functions; what such code does is proved from
the relations alone.
-/

namespace EventScript

def Ty.HasComponent (ty : Ty) (c : Component) : Prop := ty = .vector ∧ c ≠ .s ∨ ty = .rotation

/-- Values of the first type are converted to the second, by a cast or as operands: an operator on
truth values also takes lists. -/
def Ty.Converts (t u : Ty) : Prop := t.canCast u true = true ∨ t = .list ∧ u = .bool

instance (t u : Ty) : Decidable (t.Converts u) := inferInstanceAs (Decidable (_ ∨ _))

def BinEval.resultTy : BinEval → Ty
  | .intAdd | .intSub | .intMul | .intDiv | .intMod | .intAnd | .intOr | .intXor | .intShl
  | .intShr => .integer
  | .floatAdd | .floatSub | .floatMul | .floatDiv | .floatMod | .vecDot => .float
  | .strConcat => .string
  | .listAppend | .listPrepend => .list
  | .vecAdd | .vecSub | .vecCross | .vecScale | .scaleVec | .vecDivScalar | .vecRotate
  | .vecUnrotate => .vector
  | .rotAdd | .rotSub | .rotMul | .rotDiv => .rotation
  | _ => .bool

theorem find?_of_nodup [BEq β] [LawfulBEq β] (key : α → β) {l : List α}
    (h : (l.map key).Nodup) (ha : a ∈ l) : l.find? (key · == key a) = some a := by
  induction l with
  | nil => cases ha
  | cons b l ih =>
    obtain ⟨hb, hl⟩ := List.nodup_cons.1 h
    rcases List.mem_cons.1 ha with rfl | ha
    · exact List.find?_cons_of_pos (beq_self_eq_true _)
    have hne : key b ≠ key a := fun heq => hb (heq ▸ List.mem_map_of_mem ha)
    rw [List.find?_cons_of_neg (by simpa using hne)]
    exact ih hl ha

namespace Compile

/-! ## Variables in scope -/

/-- The variables of a block, or the parameters. -/
structure Region where
  block : Option Nat
  vars : List LocalVar
  deriving Inhabited

namespace Region

def staticSize (r : Region) : Int32 := r.vars.foldl (fun n v => n + v.ty.staticSize) 0

def dynamicSlots (r : Region) : List UInt16 :=
  (r.vars.filter (·.ty.hasDynamicSize)).map LocalVar.slot

end Region

def Scope.region (s : Scope) : Region := ⟨s.block, s.owned⟩

/-- The regions around a place in the code, the innermost first. -/
abbrev Chain := List Region

def Chain.vars (χ : Chain) : List LocalVar := χ.flatMap Region.vars

/-- What the code of a function refers to outside itself. -/
structure Linkage where
  globals : List Ty
  constants : List Constant
  /-- The parameters and the return types of the functions of the script. -/
  functions : List (List Ty × Ty)
  states : Nat
  /-- The number of slots of a frame. -/
  slots : Nat
  ret : Ty
  /-- The cost of a frame with the parameters and the variables of the body. -/
  frameStatic : Int32
  /-- The array extension is off. -/
  core : Bool
  /-- The operand of a test of a type may be missing. Nothing that is said about operands is so
  then. -/
  tests : Bool
  /-- Functions of the library can be called. -/
  library : Bool

/-- A variable has a type and can be used; the `fresh` ones cannot be used yet. -/
def Linkage.HasVar (Γ : Linkage) (χ : Chain) (fresh : List LocalVar) : VarRef → Ty → Prop
  | .localVar slot, ty => ⟨slot, ty⟩ ∈ χ.vars ∧ (⟨slot, ty⟩ : LocalVar) ∉ fresh
  | .globalVar index, ty => Γ.globals[index.toNat]? = some ty

/-! ## Pieces of code -/

/-- Stores the value on top and keeps account of the contents of the variable. -/
def storeOps (var : VarRef) (ty : Ty) : List Op :=
  if ty.hasDynamicSize then [.memDecr var, var.storeOp, .memIncr var] else [var.storeOp]

/-- Stores the float on top in a component of a variable, by way of a temporary slot. -/
def componentOps (var : VarRef) (ty : Ty) (c : Component) (temporary : UInt16) : List Op :=
  [.storeLocal temporary, var.loadOp, .loadLocal temporary, .setField c] ++ storeOps var ty ++
    [.loadLocal temporary]

def releaseOps (slots : List UInt16) : List Op := slots.map fun slot => .memDecr (.localVar slot)

def Region.leaveOps (r : Region) : List Op :=
  releaseOps r.dynamicSlots ++ if r.staticSize ≠ 0 then [.memStatic (-r.staticSize)] else []

def initOps (vars : List LocalVar) : List Op :=
  vars.flatMap fun v => [.pushDefault v.ty, .storeLocal v.slot]

/-- Adds the cost of a region and gives its variables their default values. -/
def Region.enterOps (r : Region) : List Op :=
  (if r.staticSize ≠ 0 then [.memStatic r.staticSize] else []) ++ initOps r.vars

/-- Takes off the cost of all regions and of the frame. -/
def leaveFrameOps (frameStatic : Int32) (χ : Chain) : List Op :=
  (χ.take (χ.length - 2)).flatMap Region.leaveOps ++
    releaseOps ((χ.drop (χ.length - 2)).flatMap Region.dynamicSlots) ++ [.memStatic (-frameStatic)]

def returnOps (Γ : Linkage) (χ : Chain) : List Op := leaveFrameOps Γ.frameStatic χ ++ [.ret]

def returnDefaultOps (Γ : Linkage) (χ : Chain) : List Op :=
  (if Γ.ret ≠ .void then [.pushDefault Γ.ret] else []) ++ returnOps Γ χ

/-! What holds of the instructions of a piece of code. -/

section

open List

variable {P : Op → Prop}

theorem forall_mem_ite {p : Prop} [Decidable p] (h : P op) :
    ∀ op' ∈ (if p then [op] else []), P op' := by
  split
  · exact forall_mem_singleton.2 h
  · exact forall_mem_nil _

theorem forall_mem_storeOps {var : VarRef} (hstore : P var.storeOp) (hdecr : P (.memDecr var))
    (hincr : P (.memIncr var)) : ∀ op ∈ storeOps var ty, P op := by
  unfold storeOps
  split
  · exact forall_mem_cons.2 ⟨hdecr, forall_mem_cons.2 ⟨hstore, forall_mem_singleton.2 hincr⟩⟩
  · exact forall_mem_singleton.2 hstore

theorem forall_mem_componentOps {var : VarRef} (hstore : ∀ op ∈ storeOps var ty, P op)
    (hload : P var.loadOp) (hspill : P (.storeLocal k)) (hreload : P (.loadLocal k))
    (hset : P (.setField c)) : ∀ op ∈ componentOps var ty c k, P op := by
  refine forall_mem_append.2 ⟨forall_mem_append.2 ⟨?_, hstore⟩, forall_mem_singleton.2 hreload⟩
  exact forall_mem_cons.2 ⟨hspill, forall_mem_cons.2 ⟨hload, forall_mem_cons.2
    ⟨hreload, forall_mem_singleton.2 hset⟩⟩⟩

theorem forall_mem_leaveOps {r : Region} (hstatic : ∀ n, P (.memStatic n))
    (h : ∀ slot ∈ r.dynamicSlots, P (.memDecr (.localVar slot))) : ∀ op ∈ r.leaveOps, P op :=
  forall_mem_append.2 ⟨forall_mem_map.2 h, forall_mem_ite (hstatic _)⟩

theorem forall_mem_flatMap_leaveOps {χ : Chain} (hstatic : ∀ n, P (.memStatic n))
    (h : ∀ r ∈ χ, ∀ slot ∈ r.dynamicSlots, P (.memDecr (.localVar slot))) :
    ∀ op ∈ χ.flatMap Region.leaveOps, P op :=
  forall_mem_flatMap.2 fun r hr => forall_mem_leaveOps hstatic (h r hr)

theorem forall_mem_leaveFrameOps {χ : Chain} (hstatic : ∀ n, P (.memStatic n))
    (h : ∀ r ∈ χ, ∀ slot ∈ r.dynamicSlots, P (.memDecr (.localVar slot))) :
    ∀ op ∈ leaveFrameOps k χ, P op := by
  refine forall_mem_append.2 ⟨forall_mem_append.2 ⟨forall_mem_flatMap_leaveOps hstatic
    fun r hr => h r (mem_of_mem_take hr), forall_mem_map.2 ?_⟩, forall_mem_singleton.2 (hstatic _)⟩
  exact forall_mem_flatMap.2 fun r hr => h r (mem_of_mem_drop hr)

theorem forall_mem_initOps (hdefault : ∀ ty, P (.pushDefault ty))
    (hstore : ∀ v ∈ vars, P (.storeLocal v.slot)) : ∀ op ∈ initOps vars, P op :=
  forall_mem_flatMap.2 fun v hv =>
    forall_mem_cons.2 ⟨hdefault v.ty, forall_mem_singleton.2 (hstore v hv)⟩

end

def returned (ret : Ty) (stack : List Ty) : List Ty := if ret = .void then stack else ret :: stack

/-! ## Straight code -/

variable (Γ : Linkage) (χ : Chain) (fresh : List LocalVar) in
/-- What single instructions do to the types of the operands, top first. -/
inductive Plain : Op → List Ty → List Ty → Prop
  | const {c : Constant} {S : List Ty} : Γ.constants[i.toNat]? = some c →
      Plain (.pushConst i) S (c.ty :: S)
  | default : ty.Allowed Γ.core → Plain (.pushDefault ty) S (ty :: S)
  | undefined : Γ.core = false → Plain .pushUndefined S (.object :: S)
  | pop : Plain .pop (t :: S) S
  | dup : Plain .dup (t :: S) (t :: t :: S)
  | load : Γ.HasVar χ fresh var ty → Plain var.loadOp S (ty :: S)
  | cast : t.Allowed Γ.core → u.Allowed Γ.core → t.Converts u → Plain (.cast u) (t :: S) (u :: S)
  | castSecond : t.Allowed Γ.core → u.Allowed Γ.core →
      t.Converts u → Plain (.castSecond u) (a :: t :: S) (a :: u :: S)
  | binary : Plain (.binary eval) (l :: r :: S) (eval.resultTy :: S)
  | neg : t ∈ [Ty.integer, .float, .vector, .rotation] → Plain .neg (t :: S) (t :: S)
  | bitNot : Plain .bitNot (t :: S) (.integer :: S)
  | not : Plain .not (t :: S) (.bool :: S)
  | isType : Γ.core = false → Γ.tests = true ∨ t ≠ .void →
      Plain (.isType ty) (returned t S) (.bool :: S)
  | makeList : items.length = n.toNat → Plain (.makeList n) (items ++ S) (.list :: S)
  | makeVector : Plain .makeVector (z :: y :: x :: S) (.vector :: S)
  | makeRotation : Plain .makeRotation (s :: z :: y :: x :: S) (.rotation :: S)
  | getField : t.HasComponent c → Plain (.getField c) (t :: S) (.float :: S)
  | arrayGet : Γ.core = false → Plain .arrayGet (k :: a :: S) (.object :: S)
  | arrayCount : Γ.core = false → Plain .arrayCount (a :: S) (.integer :: S)
  | arrayKey : Γ.core = false → Plain .arrayKey (n :: a :: S) (.object :: S)
  | arrayValue : Γ.core = false → Plain .arrayValue (n :: a :: S) (.object :: S)
  | callApi : Γ.library = true → ApiFunction.get? i = some f →
      Plain (.callApi i) (f.signature.reverse ++ S) (returned f.ret S)
  | checkRun : Γ.library = true → Plain .checkRun S S

/-- The slot is one of the frame and is not that of a variable in scope. -/
def Linkage.Spare (Γ : Linkage) (χ : Chain) (slot : UInt16) : Prop :=
  slot.toNat < Γ.slots ∧ ∀ v ∈ χ.vars, v.slot ≠ slot

/-- The variables of a region have slots of their own. -/
structure Linkage.NewRegion (Γ : Linkage) (χ : Chain) (r : Region) : Prop where
  allowed : ∀ v ∈ r.vars, v.ty.Allowed Γ.core
  nodup : (r.vars.map LocalVar.slot).Nodup
  spare : ∀ v ∈ r.vars, Γ.Spare χ v.slot

variable (Γ : Linkage) (χ : Chain) (fresh : List LocalVar) in
/-- Straight code at a place, with the types of the operands before and after it. -/
inductive Straight : (pc : Nat) → List Op → (before after : List Ty) → Prop
  | nil : Straight pc [] S S
  | append {S S₁ S₂ : List Ty} :
      Straight pc a S S₁ → Straight (pc + a.length) b S₁ S₂ → Straight pc (a ++ b) S S₂
  | plain : Plain Γ χ fresh op S S' → Straight pc [op] S S'
  | store : Γ.HasVar χ fresh var ty → Straight pc (storeOps var ty) (ty :: S) S
  | component : Γ.HasVar χ fresh var ty → ty.HasComponent c → Γ.Spare χ k →
      Straight pc (componentOps var ty c k) (.float :: S) (.float :: S)
  | arraySet {var : VarRef} {t k : Ty} {S : List Ty} : Γ.core = false →
      Γ.HasVar χ fresh var .array → Straight pc [.arraySet var] (t :: k :: S) (t :: S)
  /-- A call. It goes on, or returns if the callee asked for another state. -/
  | call {params : List Ty} {ret : Ty} {target : UInt32} {S : List Ty} :
      Γ.functions[i.toNat]? = some (params, ret) →
      target.toNat = pc + 2 + (returnDefaultOps Γ χ).length →
      Straight pc (.call i :: .jumpIfNoStateChange target :: returnDefaultOps Γ χ)
        (params.reverse ++ S) (returned ret S)
  /-- A value is kept in a slot that is no variable. -/
  | spill : Γ.core = false → Γ.Spare χ k → Straight pc [.storeLocal k] (t :: S) S
  | reload : Γ.core = false → Γ.Spare χ k → Straight pc [.loadLocal k] S (.object :: S)

/-! ## Structured code -/

/-- The code of the statements of a block. -/
structure Extent where
  /-- The number of the block. -/
  id : Nat
  /-- The region of the block and those around it. -/
  chain : Chain
  start : Nat
  stop : Nat

def Extent.shape (e : Extent) : Nat × List Ty :=
  (e.id, (e.chain.head?.elim [] Region.vars).map LocalVar.ty)

/-- A label in the code. -/
structure Site where
  name : String
  pc : Nat
  chain : Chain

def Site.mark (site : Site) : String × Nat := (site.name, site.pc)

/-- What is known about the labels of a function: the block that each stands in, its place in the
code, and whether there is a checkpoint. -/
structure Labels where
  blockOf : String → Option Nat
  mark : String → Option Nat
  checked : String → Bool

variable (Γ : Linkage) (Λ : Labels) in
/-- Structured code at a place. `fresh` are the variables of the innermost block whose declarations
come before any other statement and have not been reached. The code of the blocks and the places of
the labels in it are given as well. -/
inductive Structured : (χ : Chain) → (fresh : List LocalVar) → (pc : Nat) → List Op →
    (fresh' : List LocalVar) → List Extent → List Site → Prop
  | nil : Structured χ fresh pc [] fresh [] []
  | append {pc : Nat} {a b : List Op} {o₁ o₂ : List Extent} {l₁ l₂ : List Site} :
      Structured χ fresh pc a fresh₁ o₁ l₁ → Structured χ fresh₁ (pc + a.length) b fresh₂ o₂ l₂ →
      Structured χ fresh pc (a ++ b) fresh₂ (o₁ ++ o₂) (l₁ ++ l₂)
  | straight : Straight Γ χ [] pc code [] [] → Structured χ [] pc code [] [] []
  /-- A variable gets its first value. -/
  | declare : Straight Γ χ (v :: fresh) pc code [] [v.ty] → Structured χ (v :: fresh) pc
        (code ++ (.storeLocal v.slot ::
          if v.ty.hasDynamicSize then [.memIncr (.localVar v.slot)] else [])) fresh [] []
  /-- A variable keeps its default value. -/
  | declareDefault : Structured χ (v :: fresh) pc [] fresh [] []
  | block {id : Nat} {fresh : List LocalVar} {pc : Nat} {code : List Op}
      {o : List Extent} {l : List Site} (r : Region) : r.block = some id →
      Γ.NewRegion χ r → fresh.Sublist r.vars →
      Structured (r :: χ) fresh (pc + r.enterOps.length) code [] o l →
      Structured χ [] pc (r.enterOps ++ code ++ r.leaveOps) []
        (⟨id, r :: χ, pc + r.enterOps.length, pc + r.enterOps.length + code.length⟩ :: o) l
  | ifThen {cond body : List Op} {t : Ty} {target : UInt32}
      {o : List Extent} {l : List Site} : Straight Γ χ [] pc cond [] [t] →
      Structured χ [] (pc + cond.length + 1) body [] o l →
      target.toNat = pc + cond.length + 1 + body.length →
      Structured χ [] pc (cond ++ .jumpIfFalse target :: body) [] o l
  | ifElse {cond body other : List Op} {t : Ty}
      {middle target : UInt32} {o₁ o₂ : List Extent} {l₁ l₂ : List Site} :
      Straight Γ χ [] pc cond [] [t] → Structured χ [] (pc + cond.length + 1) body [] o₁ l₁ →
      Structured χ [] (pc + cond.length + 1 + body.length + 1) other [] o₂ l₂ →
      middle.toNat = pc + cond.length + 1 + body.length + 1 →
      target.toNat = pc + cond.length + 1 + body.length + 1 + other.length → Structured χ [] pc
        (cond ++ .jumpIfFalse middle :: (body ++ .jump target :: other)) [] (o₁ ++ o₂) (l₁ ++ l₂)
  | loop {cond body : List Op} {t : Ty} {top target : UInt32}
      {o : List Extent} {l : List Site} : Straight Γ χ [] (pc + 1) cond [] [t] →
      Structured χ [] (pc + 1 + cond.length + 1) body [] o l → top.toNat = pc →
      target.toNat = pc + 1 + cond.length + 1 + body.length + 1 → Structured χ [] pc
        (.checkRun :: (cond ++ .jumpIfFalse target :: (body ++ [.jump top]))) [] o l
  | forever {o : List Extent}
      {l : List Site} : Structured χ [] (pc + 1) body [] o l → top.toNat = pc →
      Structured χ [] pc (.checkRun :: (body ++ [.jump top])) [] o l
  | doWhile {cond : List Op} {t : Ty} {top : UInt32}
      {o : List Extent} {l : List Site} : Structured χ [] (pc + 1) body [] o l →
      Straight Γ χ [] (pc + 1 + body.length) cond [] [t] → top.toNat = pc →
      Structured χ [] pc (.checkRun :: (body ++ (cond ++ [.jumpIfTrue top]))) [] o l
  | label {name : String} {pc : Nat} :
      χ.head?.bind Region.block = Λ.blockOf name → Λ.blockOf name ≠ none → Λ.mark name = some pc →
      Structured χ [] pc (if Λ.checked name then [.checkRun] else []) [] [] [⟨name, pc, χ⟩]
  /-- A jump. One that goes back goes to a checkpoint. -/
  | jump {left rest : Chain} {r : Region} {name : String} {pc : Nat} {target : UInt32} :
      χ = left ++ r :: rest → r.block = Λ.blockOf name → Λ.blockOf name ≠ none →
      (∀ place, Λ.mark name = some place → target.toNat = place ∧
        (place ≤ pc + (left.flatMap Region.leaveOps).length → Λ.checked name = true)) →
      Structured χ [] pc (left.flatMap Region.leaveOps ++ [.jump target]) [] [] []
  | ret : Straight Γ χ [] pc code [] (returned Γ.ret []) →
      Structured χ [] pc (code ++ returnOps Γ χ) [] [] []
  | state : i.toNat < Γ.states → Structured χ [] pc (.setState i :: returnDefaultOps Γ χ) [] [] []

/-! ## Functions -/

/-- The innermost block at a place, of blocks that are listed before the ones inside them; `χ` is
around them all. -/
def openAt (o : List Extent) (χ : Chain) (pc : Nat) : Chain :=
  (o.filter fun e => decide (e.start ≤ pc ∧ pc < e.stop)).getLast?.elim χ Extent.chain

structure Layout where
  /-- The parameters. -/
  outer : Region
  body : Region
  /-- The blocks inside the body. -/
  extents : List Extent
  deriving Inhabited

namespace Layout

def frame (Y : Layout) : Chain := [Y.body, Y.outer]

def chainAt (Y : Layout) (pc : Nat) : Chain := openAt Y.extents Y.frame pc

def frameStatic (Y : Layout) : Int32 := frameSize + Y.body.staticSize + Y.outer.staticSize

/-- Adds the cost of a frame and of the contents of the parameters, and gives the variables of the
body their default values. -/
def enterOps (Y : Layout) : List Op :=
  .memStatic Y.frameStatic :: (Y.outer.dynamicSlots.map fun slot => .memIncr (.localVar slot)) ++
    initOps Y.body.vars ++ [.checkRun]

end Layout

/-- The code of a function with the given parameters and blocks, the body being the first. -/
inductive FunctionCode (Γ : Linkage) (params : List Ty) (blocks : List (Nat × List Ty))
    (Y : Layout) : List Op → Prop
  | mk {id : Nat} {fresh : List LocalVar} {code : List Op} {l : List Site} :
      Γ.frameStatic = Y.frameStatic → (Γ.ret = .void ∨ Γ.ret.Allowed Γ.core) →
      Y.outer.block = none → Γ.NewRegion [] Y.outer → Y.outer.vars.map LocalVar.ty = params →
      Y.outer.vars.map (·.slot.toNat) = List.range params.length →
      Y.body.block = some id → Γ.NewRegion [Y.outer] Y.body → fresh.Sublist Y.body.vars →
      Structured Γ Λ Y.frame fresh Y.enterOps.length code [] Y.extents l →
      blocks = (id, Y.body.vars.map LocalVar.ty) :: Y.extents.map Extent.shape →
      (blocks.map Prod.fst).Nodup → (∀ name b, Λ.blockOf name = some b →
        ∃ site ∈ l, site.name = name ∧ Λ.mark name = some site.pc) →
      FunctionCode Γ params blocks Y (Y.enterOps ++ code ++ returnDefaultOps Γ Y.frame)

/-- The linkage of the first value of a global variable: it can use the variables before it, and
no functions. -/
def Linkage.before (Γ : Linkage) (i : Nat) : Linkage :=
  { Γ with globals := Γ.globals.take i, functions := [], library := false }

/-- The code that gives global variables their first values, from the one with the given number on.
Each value can use the variables before it. -/
inductive InitCode (Γ : Linkage) : (i pc : Nat) → List Op → Prop
  | nil : InitCode Γ Γ.globals.length pc [.ret]
  | cons {ty : Ty} {index : UInt16} {code rest : List Op} :
      Γ.globals[i]? = some ty → index.toNat = i →
      Straight (Γ.before i) [] [] (pc + 1) code [] [ty] →
      InitCode Γ (i + 1) (pc + (.memStatic ty.staticSize :: (code ++ .storeGlobal index ::
        if ty.hasDynamicSize then [.memIncr (.globalVar index)] else [])).length) rest →
      InitCode Γ i pc (.memStatic ty.staticSize :: (code ++ .storeGlobal index ::
        if ty.hasDynamicSize then [.memIncr (.globalVar index)] else []) ++ rest)

end Compile

end EventScript
