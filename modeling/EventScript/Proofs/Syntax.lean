import EventScript.Script
import Mathlib.Tactic

/-!
# Syntax trees

Induction over expressions and statements (`Expr.induct`, `Stmt.induct`), and what is so of every
tree that comes from a text: the types that it names, where declarations stand and which of them
are hoisted, and the numbers of its blocks.
-/

namespace EventScript

open List

/-! ## Induction -/

/-- Induction over expressions. The case of an assignment also has the key of an element. -/
theorem Expr.induct {P : Expr → Prop} (integer : ∀ n span, P (.integer n span))
    (float : ∀ d span, P (.float d span)) (string : ∀ s span, P (.string s span))
    (name : ∀ id span, P (.name id span)) (undefined : ∀ span, P (.undefined span))
    (list : ∀ items span, (∀ e ∈ items, P e) → P (.list items span))
    (vector : ∀ x y z span, P x → P y → P z → P (.vector x y z span))
    (rotation : ∀ x y z s span, P x → P y → P z → P s → P (.rotation x y z s span))
    (cast : ∀ ty operand span, P operand → P (.cast ty operand span))
    (call : ∀ name args span, (∀ e ∈ args, P e) → P (.call name args span))
    (binary : ∀ op left right span, P left → P right → P (.binary op left right span))
    (unary : ∀ op operand span, P operand → P (.unary op operand span))
    (assign : ∀ op target value span, P value →
      (∀ array key keySpan, target = .index array key keySpan → P key) →
      P (.assign op target value span))
    (bump : ∀ target up before span, P (.bump target up before span))
    (field : ∀ object name span, P object → P (.field object name span))
    (index : ∀ array key span, P array → P key → P (.index array key span))
    (method : ∀ object name args span, P object → (∀ e ∈ args, P e) →
      P (.method object name args span))
    (isType : ∀ operand ty span, P operand → P (.isType operand ty span)) (e : Expr) : P e := by
  have bounded : ∀ (n : Nat) (e : Expr), sizeOf e < n → P e := by
    intro n
    induction n with
    | zero => intro e h; omega
    | succ n ih =>
      intro e h
      have items : ∀ es : List Expr, sizeOf es < n → ∀ e ∈ es, P e := fun es hes e he =>
        ih e (by have := sizeOf_lt_of_mem he; omega)
      cases e with
      | integer k span => exact integer k span
      | float d span => exact float d span
      | string s span => exact string s span
      | name id span => exact name id span
      | undefined span => exact undefined span
      | list es span => exact list es span (items es (by simp at h; omega))
      | vector x y z span =>
        simp at h
        exact vector x y z span (ih x (by omega)) (ih y (by omega)) (ih z (by omega))
      | rotation x y z s span =>
        simp at h
        exact rotation x y z s span (ih x (by omega)) (ih y (by omega)) (ih z (by omega))
          (ih s (by omega))
      | cast ty operand span => simp at h; exact cast ty operand span (ih operand (by omega))
      | call f args span => exact call f args span (items args (by simp at h; omega))
      | binary op left right span =>
        simp at h
        exact binary op left right span (ih left (by omega)) (ih right (by omega))
      | unary op operand span => simp at h; exact unary op operand span (ih operand (by omega))
      | assign op target value span =>
        simp at h
        refine assign op target value span (ih value (by omega)) ?_
        rintro array key keySpan rfl
        simp at h
        exact ih key (by omega)
      | bump target up before span => exact bump target up before span
      | field object f span => simp at h; exact field object f span (ih object (by omega))
      | index array key span =>
        simp at h
        exact index array key span (ih array (by omega)) (ih key (by omega))
      | method object f args span =>
        simp at h
        exact method object f args span (ih object (by omega)) (items args (by omega))
      | isType operand ty span => simp at h; exact isType operand ty span (ih operand (by omega))
  exact bounded (sizeOf e + 1) e (Nat.lt_succ_self _)

theorem Stmt.induct {P : Stmt → Prop} (decl : ∀ d, P (.decl d)) (expr : ∀ e, P (.expr e))
    (block : ∀ id stmts span, (∀ s ∈ stmts, P s) → P (.block id stmts span))
    (ifThen : ∀ cond body span, P body → P (.ifThen cond body span))
    (ifElse : ∀ cond body other span, P body → P other → P (.ifElse cond body other span))
    (whileDo : ∀ cond body span, P body → P (.whileDo cond body span))
    (doWhile : ∀ body cond span, P body → P (.doWhile body cond span))
    (forDo : ∀ init cond step body span, P body → P (.forDo init cond step body span))
    (foreach : ∀ key value array body span, P body → P (.foreach key value array body span))
    (jump : ∀ label span, P (.jump label span)) (label : ∀ name span, P (.label name span))
    (ret : ∀ value span, P (.ret value span)) (state : ∀ name span, P (.state name span))
    (null : ∀ span, P (.null span)) (s : Stmt) : P s := by
  have bounded : ∀ (n : Nat) (s : Stmt), sizeOf s < n → P s := by
    intro n
    induction n with
    | zero => intro s h; omega
    | succ n ih =>
      intro s h
      cases s with
      | decl d => exact decl d
      | expr e => exact expr e
      | block id stmts span =>
        simp at h
        exact block id stmts span fun s hs => ih s (by have := sizeOf_lt_of_mem hs; omega)
      | ifThen cond body span => simp at h; exact ifThen cond body span (ih body (by omega))
      | ifElse cond body other span =>
        simp at h
        exact ifElse cond body other span (ih body (by omega)) (ih other (by omega))
      | whileDo cond body span => simp at h; exact whileDo cond body span (ih body (by omega))
      | doWhile body cond span => simp at h; exact doWhile body cond span (ih body (by omega))
      | forDo init cond step body span =>
        simp at h
        exact forDo init cond step body span (ih body (by omega))
      | foreach key value array body span =>
        simp at h
        exact foreach key value array body span (ih body (by omega))
      | jump l span => exact jump l span
      | label l span => exact label l span
      | ret value span => exact ret value span
      | state l span => exact state l span
      | null span => exact null span
  exact bounded (sizeOf s + 1) s (Nat.lt_succ_self _)

/-! ## Types -/

/-- The type can be the type of a variable or of an expression with a value; `core` leaves out the
types of the array extension. -/
def Ty.Allowed (core : Bool) (ty : Ty) : Prop :=
  ty ≠ .void ∧ (core = true → ty ≠ .array ∧ ty ≠ .object)

namespace Expr

def Any (_ : Expr) : Prop := True

mutual

/-- The expression names allowed types only. `core` leaves out what is written with the array
extension alone, and `is` says which operands have their types tested. -/
def Regular (core : Bool) (is : Expr → Prop) : Expr → Prop
  | .integer .. | .float .. | .string .. | .name .. => True
  | .undefined _ => core = false
  | .list items _ => AllRegular core is items
  | .vector x y z _ => x.Regular core is ∧ y.Regular core is ∧ z.Regular core is
  | .rotation x y z s _ =>
    x.Regular core is ∧ y.Regular core is ∧ z.Regular core is ∧ s.Regular core is
  | .cast ty operand _ => ty.Allowed core ∧ operand.Regular core is
  | .call _ args _ => AllRegular core is args
  | .binary _ left right _ => left.Regular core is ∧ right.Regular core is
  | .unary _ operand _ => operand.Regular core is
  | .assign _ target value _ => target.Regular core is ∧ value.Regular core is
  | .bump target .. => target.Regular core is
  | .field object .. => object.Regular core is
  | .index array key _ => core = false ∧ array.Regular core is ∧ key.Regular core is
  | .method object _ args _ => core = false ∧ object.Regular core is ∧ AllRegular core is args
  | .isType operand _ _ => core = false ∧ is operand ∧ operand.Regular core is

def AllRegular (core : Bool) (is : Expr → Prop) : List Expr → Prop
  | [] => True
  | e :: es => e.Regular core is ∧ AllRegular core is es

end

variable {e : Expr}

theorem AllRegular.of_mem (h : AllRegular core is es) (he : e ∈ es) : e.Regular core is := by
  induction es with
  | nil => cases he
  | cons x xs ih =>
    rcases mem_cons.1 he with rfl | he
    · exact h.1
    · exact ih h.2 he

theorem AllRegular.of_forall (h : ∀ e ∈ es, e.Regular core is) : AllRegular core is es := by
  induction es with
  | nil => trivial
  | cons e es ih => exact ⟨h e mem_cons_self, ih (forall_mem_cons.1 h).2⟩

mutual

def parts : Expr → List Expr
  | .integer n span => [.integer n span]
  | .float d span => [.float d span]
  | .string s span => [.string s span]
  | .name id span => [.name id span]
  | .undefined span => [.undefined span]
  | .list items span => .list items span :: allParts items
  | .vector x y z span => .vector x y z span :: (x.parts ++ y.parts ++ z.parts)
  | .rotation x y z s span =>
    .rotation x y z s span :: (x.parts ++ y.parts ++ z.parts ++ s.parts)
  | .cast ty operand span => .cast ty operand span :: operand.parts
  | .call f args span => .call f args span :: allParts args
  | .binary op left right span => .binary op left right span :: (left.parts ++ right.parts)
  | .unary op operand span => .unary op operand span :: operand.parts
  | .assign op target value span => .assign op target value span :: (target.parts ++ value.parts)
  | .bump target up before span => .bump target up before span :: target.parts
  | .field object f span => .field object f span :: object.parts
  | .index array key span => .index array key span :: (array.parts ++ key.parts)
  | .method object f args span => .method object f args span :: (object.parts ++ allParts args)
  | .isType operand ty span => .isType operand ty span :: operand.parts

def allParts : List Expr → List Expr
  | [] => []
  | e :: es => e.parts ++ allParts es

end

def tested? : Expr → Option Expr
  | .isType operand _ _ => some operand
  | _ => none

/-- What is asked of an expression apart from the expressions inside it. -/
def Suits (core : Bool) (is : Expr → Prop) : Expr → Prop
  | .undefined _ | .index .. | .method .. => core = false
  | .cast ty .. => ty.Allowed core
  | .isType operand .. => core = false ∧ is operand
  | _ => True

theorem Suits.restrict {is' : Expr → Prop} (h : e.Suits core is)
    (ht : core = false → ∀ operand ∈ e.tested?, is' operand) : e.Suits core is' := by
  cases e with
  | isType operand ty span => exact ⟨h.1, ht h.1 operand rfl⟩
  | _ => exact h

mutual

theorem regular_iff {is : Expr → Prop} : ∀ e : Expr,
    e.Regular core is ↔ ∀ p ∈ e.parts, p.Suits core is
  | .integer .. | .float .. | .string .. | .name .. | .undefined _ => by
    simp [Regular, parts, Suits]
  | .list items _ | .call _ items _ => by
    simp [Regular, parts, Suits, allRegular_iff items]
  | .vector x y z _ => by
    simp only [Regular, parts, Suits, regular_iff x, regular_iff y, regular_iff z,
      forall_mem_cons, forall_mem_append, true_and, and_assoc]
  | .rotation x y z s _ => by
    simp only [Regular, parts, Suits, regular_iff x, regular_iff y, regular_iff z, regular_iff s,
      forall_mem_cons, forall_mem_append, true_and, and_assoc]
  | .cast _ operand _ | .unary _ operand _ | .bump operand .. | .field operand .. => by
    simp [Regular, parts, Suits, regular_iff operand]
  | .binary _ left right _ | .assign _ left right _ | .index left right _ => by
    simp only [Regular, parts, Suits, regular_iff left, regular_iff right, forall_mem_cons,
      forall_mem_append, true_and]
  | .method object _ args _ => by
    simp only [Regular, parts, Suits, regular_iff object, allRegular_iff args,
      forall_mem_cons, forall_mem_append]
  | .isType operand _ _ => by
    simp only [Regular, parts, Suits, regular_iff operand, forall_mem_cons, and_assoc]

theorem allRegular_iff {is : Expr → Prop} : ∀ es : List Expr,
    AllRegular core is es ↔ ∀ p ∈ allParts es, p.Suits core is
  | [] => by simp [AllRegular, allParts]
  | e :: es => by
    simp only [AllRegular, allParts, regular_iff e, allRegular_iff es, forall_mem_append]

end

mutual

theorem Regular.part {is : Expr → Prop} : ∀ e : Expr, e.Regular core is →
    ∀ p ∈ e.parts, p.Regular core is
  | .integer .., h | .float .., h | .string .., h | .name .., h | .undefined _, h => by
    simpa only [parts, forall_mem_singleton] using h
  | .list items _, h | .call _ items _, h => forall_mem_cons.2 ⟨h, AllRegular.part items h⟩
  | .vector x y z _, h => by
    simp only [parts, forall_mem_cons, forall_mem_append]
    exact ⟨h, ⟨Regular.part x h.1, Regular.part y h.2.1⟩, Regular.part z h.2.2⟩
  | .rotation x y z s _, h => by
    simp only [parts, forall_mem_cons, forall_mem_append]
    exact ⟨h, ⟨⟨Regular.part x h.1, Regular.part y h.2.1⟩, Regular.part z h.2.2.1⟩,
      Regular.part s h.2.2.2⟩
  | .cast _ operand _, h => forall_mem_cons.2 ⟨h, Regular.part operand h.2⟩
  | .unary _ operand _, h | .bump operand .., h | .field operand .., h =>
    forall_mem_cons.2 ⟨h, Regular.part operand h⟩
  | .binary _ left right _, h | .assign _ left right _, h =>
    forall_mem_cons.2 ⟨h, forall_mem_append.2
      ⟨Regular.part left h.1, Regular.part right h.2⟩⟩
  | .index left right _, h =>
    forall_mem_cons.2 ⟨h, forall_mem_append.2
      ⟨Regular.part left h.2.1, Regular.part right h.2.2⟩⟩
  | .method object _ args _, h =>
    forall_mem_cons.2 ⟨h, forall_mem_append.2
      ⟨Regular.part object h.2.1, AllRegular.part args h.2.2⟩⟩
  | .isType operand _ _, h => forall_mem_cons.2 ⟨h, Regular.part operand h.2.2⟩

theorem AllRegular.part {is : Expr → Prop} : ∀ es : List Expr,
    AllRegular core is es → ∀ p ∈ allParts es, p.Regular core is
  | [], _ => nofun
  | e :: es, h => forall_mem_append.2 ⟨Regular.part e h.1, AllRegular.part es h.2⟩

end

theorem Regular.restrict {is' : Expr → Prop} (h : e.Regular core is)
    (ht : core = false → ∀ p ∈ e.parts, ∀ operand ∈ p.tested?, is' operand) : e.Regular core is' :=
  (regular_iff e).2 fun p hp => ((regular_iff e).1 h p hp).restrict fun hc => ht hc p hp

mutual

def tests : Expr → Bool
  | .integer .. | .float .. | .string .. | .name .. | .undefined _ => false
  | .list items _ => anyTests items
  | .vector x y z _ => x.tests || y.tests || z.tests
  | .rotation x y z s _ => x.tests || y.tests || z.tests || s.tests
  | .cast _ operand _ | .unary _ operand _ => operand.tests
  | .call _ args _ => anyTests args
  | .binary _ left right _ => left.tests || right.tests
  | .assign _ target value _ => target.tests || value.tests
  | .bump target .. => target.tests
  | .field object .. => object.tests
  | .index array key _ => array.tests || key.tests
  | .method object _ args _ => object.tests || anyTests args
  | .isType .. => true

def anyTests : List Expr → Bool
  | [] => false
  | e :: es => e.tests || anyTests es

end

mutual

theorem tests_iff : ∀ e : Expr, e.tests = true ↔ ∃ p ∈ e.parts, p.tested?.isSome
  | .integer .. | .float .. | .string .. | .name .. | .undefined _ => by
    simp [tests, parts, tested?]
  | .list items _ | .call _ items _ => by simp [tests, parts, tested?, anyTests_iff items]
  | .vector x y z _ => by
    simp [tests, parts, tested?, tests_iff x, tests_iff y, tests_iff z, or_and_right, exists_or,
      or_assoc]
  | .rotation x y z s _ => by
    simp [tests, parts, tested?, tests_iff x, tests_iff y, tests_iff z, tests_iff s, or_and_right,
      exists_or, or_assoc]
  | .cast _ operand _ | .unary _ operand _ | .bump operand .. | .field operand .. => by
    simp [tests, parts, tested?, tests_iff operand]
  | .binary _ left right _ | .assign _ left right _ | .index left right _ => by
    simp [tests, parts, tested?, tests_iff left, tests_iff right, or_and_right, exists_or]
  | .method object _ args _ => by
    simp [tests, parts, tested?, tests_iff object, anyTests_iff args, or_and_right, exists_or]
  | .isType .. => by simp [tests, parts, tested?]

theorem anyTests_iff : ∀ es : List Expr, anyTests es = true ↔ ∃ p ∈ allParts es, p.tested?.isSome
  | [] => by simp [anyTests, allParts]
  | e :: es => by
    simp [anyTests, allParts, tests_iff e, anyTests_iff es, or_and_right, exists_or]

end

theorem anyTests_eq (es : List Expr) : anyTests es = es.any tests := by
  induction es with
  | nil => rfl
  | cons e es ih => rw [anyTests, ih, any_cons]

end Expr

/-! ## Declarations, blocks and labels -/

namespace Stmt

def declares? : Stmt → Option VarDecl
  | .decl d => some d
  | _ => none

def decls (stmts : List Stmt) : List VarDecl := stmts.filterMap declares?

mutual

/-- The statement is one that can be written: its expressions are regular, and a declaration stands
directly in a block and knows whether another statement is before it. `place` says so for the
statement itself: whether another statement is before it in its block, if it is directly in one. -/
def Regular (core : Bool) (is : Expr → Prop) : Stmt → (place : Option Bool) → Prop
  | .decl d, place => place = some d.hoisted ∧ d.ty.Allowed core ∧ ∀ e ∈ d.init, e.Regular core is
  | .expr e, _ => e.Regular core is
  | .block _ stmts _, _ => ItemsRegular core is stmts false
  | .ifThen cond body _, _ => cond.Regular core is ∧ body.Regular core is none
  | .ifElse cond body other _, _ =>
    cond.Regular core is ∧ body.Regular core is none ∧ other.Regular core is none
  | .whileDo cond body _, _ => cond.Regular core is ∧ body.Regular core is none
  | .doWhile body cond _, _ => body.Regular core is none ∧ cond.Regular core is
  | .forDo init cond step body _, _ =>
    Expr.AllRegular core is init ∧ (∀ e ∈ cond, e.Regular core is) ∧
      Expr.AllRegular core is step ∧ body.Regular core is none
  | .foreach _ _ array body _, _ =>
    core = false ∧ array.Regular core is ∧ body.Regular core is none
  | .jump .., _ | .label .., _ | .state .., _ | .null _, _ => True
  | .ret value _, _ => ∀ e ∈ value, e.Regular core is

/-- The declarations and statements of a block, after another statement when `hoisted`. -/
def ItemsRegular (core : Bool) (is : Expr → Prop) : List Stmt → (hoisted : Bool) → Prop
  | [], _ => True
  | s :: ss, hoisted =>
    s.Regular core is (some hoisted) ∧ ItemsRegular core is ss (hoisted || s.endsDeclarations)

end

mutual

def tests : Stmt → Bool
  | .decl d => d.init.any Expr.tests
  | .expr e => e.tests
  | .block _ stmts _ => anyTests stmts
  | .ifThen cond body _ | .whileDo cond body _ | .doWhile body cond _ => cond.tests || body.tests
  | .ifElse cond body other _ => cond.tests || body.tests || other.tests
  | .forDo init cond step body _ =>
    Expr.anyTests init || cond.any Expr.tests || Expr.anyTests step || body.tests
  | .foreach _ _ array body _ => array.tests || body.tests
  | .ret value _ => value.any Expr.tests
  | .jump .. | .label .. | .state .. | .null _ => false

def anyTests : List Stmt → Bool
  | [] => false
  | s :: ss => s.tests || anyTests ss

end

mutual

def exprs : Stmt → List Expr
  | .decl d => d.init.toList
  | .expr e => [e]
  | .block _ stmts _ => allExprs stmts
  | .ifThen cond body _ | .whileDo cond body _ | .doWhile body cond _ => cond :: body.exprs
  | .ifElse cond body other _ => cond :: (body.exprs ++ other.exprs)
  | .forDo init cond step body _ => init ++ cond.toList ++ step ++ body.exprs
  | .foreach _ _ array body _ => array :: body.exprs
  | .ret value _ => value.toList
  | .jump .. | .label .. | .state .. | .null _ => []

def allExprs : List Stmt → List Expr
  | [] => []
  | s :: ss => s.exprs ++ allExprs ss

end

mutual

/-- Regularity depends on the expressions of a statement and on where its declarations stand. -/
theorem Regular.imp : ∀ (s : Stmt) (place : Option Bool), s.Regular core is place →
    (∀ e ∈ s.exprs, e.Regular core is → e.Regular core is') → s.Regular core is' place
  | .decl d, _, h, hi => ⟨h.1, h.2.1, fun e he => hi e (Option.mem_toList.2 he) (h.2.2 e he)⟩
  | .expr e, _, h, hi => hi e mem_cons_self h
  | .block _ stmts _, _, h, hi => ItemsRegular.imp stmts false h hi
  | .ifThen _ body _, _, h, hi | .whileDo _ body _, _, h, hi => by
    obtain ⟨hcond, hbody⟩ := forall_mem_cons.1 hi
    exact ⟨hcond h.1, Regular.imp body none h.2 hbody⟩
  | .ifElse _ body other _, _, h, hi => by
    obtain ⟨hcond, hrest⟩ := forall_mem_cons.1 hi
    obtain ⟨hbody, hother⟩ := forall_mem_append.1 hrest
    exact ⟨hcond h.1, Regular.imp body none h.2.1 hbody, Regular.imp other none h.2.2 hother⟩
  | .doWhile body _ _, _, h, hi => by
    obtain ⟨hcond, hbody⟩ := forall_mem_cons.1 hi
    exact ⟨Regular.imp body none h.1 hbody, hcond h.2⟩
  | .forDo _ _ _ body _, _, h, hi => by
    simp only [exprs, forall_mem_append] at hi
    obtain ⟨⟨⟨hinit, hcond⟩, hstep⟩, hbody⟩ := hi
    exact ⟨.of_forall fun e he => hinit e he (h.1.of_mem he),
      fun e he => hcond e (Option.mem_toList.2 he) (h.2.1 e he),
      .of_forall fun e he => hstep e he (h.2.2.1.of_mem he), Regular.imp body none h.2.2.2 hbody⟩
  | .foreach _ _ _ body _, _, h, hi => by
    obtain ⟨harray, hbody⟩ := forall_mem_cons.1 hi
    exact ⟨h.1, harray h.2.1, Regular.imp body none h.2.2 hbody⟩
  | .ret _ _, _, h, hi => fun e he => hi e (Option.mem_toList.2 he) (h e he)
  | .jump .., _, _, _ | .label .., _, _, _ | .state .., _, _, _ | .null _, _, _, _ => trivial

theorem ItemsRegular.imp : ∀ (ss : List Stmt) (hoisted : Bool), ItemsRegular core is ss hoisted →
    (∀ e ∈ allExprs ss, e.Regular core is → e.Regular core is') → ItemsRegular core is' ss hoisted
  | [], _, _, _ => trivial
  | s :: ss, hoisted, h, hi => by
    obtain ⟨hs, hss⟩ := forall_mem_append.1 hi
    exact ⟨Regular.imp s (some hoisted) h.1 hs, ItemsRegular.imp ss _ h.2 hss⟩

end

mutual

theorem Regular.of_mem_exprs : ∀ (s : Stmt) (place : Option Bool), s.Regular core is place →
    ∀ e ∈ s.exprs, e.Regular core is
  | .decl _, _, h => fun e he => h.2.2 e (Option.mem_toList.1 he)
  | .expr _, _, h => forall_mem_singleton.2 h
  | .block _ stmts _, _, h => ItemsRegular.of_mem_exprs stmts false h
  | .ifThen _ body _, _, h | .whileDo _ body _, _, h =>
    forall_mem_cons.2 ⟨h.1, Regular.of_mem_exprs body none h.2⟩
  | .ifElse _ body other _, _, h =>
    forall_mem_cons.2 ⟨h.1, forall_mem_append.2
      ⟨Regular.of_mem_exprs body none h.2.1, Regular.of_mem_exprs other none h.2.2⟩⟩
  | .doWhile body _ _, _, h =>
    forall_mem_cons.2 ⟨h.2, Regular.of_mem_exprs body none h.1⟩
  | .forDo _ _ _ body _, _, h => by
    simp only [exprs, forall_mem_append]
    exact ⟨⟨⟨fun e he => h.1.of_mem he, fun e he => h.2.1 e (Option.mem_toList.1 he)⟩,
      fun e he => h.2.2.1.of_mem he⟩, Regular.of_mem_exprs body none h.2.2.2⟩
  | .foreach _ _ _ body _, _, h =>
    forall_mem_cons.2 ⟨h.2.1, Regular.of_mem_exprs body none h.2.2⟩
  | .ret _ _, _, h => fun e he => h e (Option.mem_toList.1 he)
  | .jump .., _, _ | .label .., _, _ | .state .., _, _ | .null _, _, _ => nofun

theorem ItemsRegular.of_mem_exprs : ∀ (ss : List Stmt) (hoisted : Bool),
    ItemsRegular core is ss hoisted → ∀ e ∈ allExprs ss, e.Regular core is
  | [], _, _ => nofun
  | s :: ss, hoisted, h => forall_mem_append.2
      ⟨Regular.of_mem_exprs s (some hoisted) h.1, ItemsRegular.of_mem_exprs ss _ h.2⟩

end

theorem any_toList (e? : Option Expr) : e?.toList.any Expr.tests = e?.any Expr.tests := by
  cases e? <;> simp

mutual

theorem tests_eq : ∀ s : Stmt, s.tests = s.exprs.any Expr.tests
  | .decl _ | .ret .. => (any_toList _).symm
  | .expr _ => (Bool.or_false _).symm
  | .block _ stmts _ => anyTests_eq stmts
  | .ifThen _ body _ | .whileDo _ body _ | .doWhile body _ _ | .foreach _ _ _ body _ => by
    rw [tests, exprs, any_cons, tests_eq body]
  | .ifElse _ body other _ => by
    rw [tests, exprs, any_cons, any_append, tests_eq body, tests_eq other, Bool.or_assoc]
  | .forDo init cond step body _ => by
    rw [tests, exprs, any_append, any_append, any_append, any_toList, tests_eq body,
      Expr.anyTests_eq, Expr.anyTests_eq]
  | .jump .. | .label .. | .state .. | .null _ => rfl

theorem anyTests_eq : ∀ ss : List Stmt, anyTests ss = (allExprs ss).any Expr.tests
  | [] => rfl
  | s :: ss => by rw [anyTests, allExprs, any_append, tests_eq s, anyTests_eq ss]

end

mutual

/-- The blocks of a statement in the order of the text: their numbers and the types of the variables
that are declared directly in them. -/
def blocks : Stmt → List (Nat × List Ty)
  | .block id stmts _ => (id, (decls stmts).map VarDecl.ty) :: blocksAll stmts
  | .ifThen _ body _ | .whileDo _ body _ | .doWhile body _ _ | .forDo _ _ _ body _
  | .foreach _ _ _ body _ => body.blocks
  | .ifElse _ body other _ => body.blocks ++ other.blocks
  | _ => []

def blocksAll : List Stmt → List (Nat × List Ty)
  | [] => []
  | s :: ss => s.blocks ++ blocksAll ss

end

mutual

/-- The labels and jumps of a statement inside a block, in the order of the text: a label with the
innermost block around it, a jump with none. -/
def mentions (block : Nat) : Stmt → List (String × Option Nat)
  | .label name _ => [(name, some block)]
  | .jump name _ => [(name, none)]
  | .block id stmts _ => mentionsAll id stmts
  | .ifThen _ body _ | .whileDo _ body _ | .doWhile body _ _ | .forDo _ _ _ body _
  | .foreach _ _ _ body _ => body.mentions block
  | .ifElse _ body other _ => body.mentions block ++ other.mentions block
  | _ => []

def mentionsAll (block : Nat) : List Stmt → List (String × Option Nat)
  | [] => []
  | s :: ss => s.mentions block ++ mentionsAll block ss

end

def labelled (ms : List (String × Option Nat)) : List (String × Nat) :=
  ms.filterMap fun m => m.2.map (m.1, ·)

@[simp] theorem labelled_append (ms ns : List (String × Option Nat)) :
    labelled (ms ++ ns) = labelled ms ++ labelled ns := filterMap_append

end Stmt

/-! ## Scripts -/

/-- The numbers of the blocks of a function and the types of the variables declared in them. -/
def FuncDecl.blocks (f : FuncDecl) : List (Nat × List Ty) :=
  (f.body.id, (Stmt.decls f.body.stmts).map VarDecl.ty) :: Stmt.blocksAll f.body.stmts

structure FuncDecl.Regular (core : Bool) (is : Expr → Prop) (f : FuncDecl) : Prop where
  params : ∀ p ∈ f.params, p.ty.Allowed core
  ret : f.ret = .void ∨ f.ret.Allowed core
  body : Stmt.ItemsRegular core is f.body.stmts false
  /-- Blocks have numbers of their own. -/
  blocks : (f.blocks.map Prod.fst).Nodup

/-- The functions and the handlers of a script, in the order of their numbers. -/
def Script.decls (script : Script) : List FuncDecl :=
  script.functions ++ script.states.flatMap StateDecl.handlers

structure Script.Regular (is : Expr → Prop) (script : Script) : Prop where
  functions : ∀ f ∈ script.functions, f.Regular (!script.arrays) is
  handlers : ∀ state ∈ script.states, ∀ f ∈ state.handlers,
    f.Regular (!script.arrays) is ∧ f.ret = .void
  globals : ∀ d ∈ script.globals,
    d.ty.Allowed (!script.arrays) ∧ ∀ e ∈ d.init, e.Regular (!script.arrays) is
  states : script.states ≠ []

def Script.tests (script : Script) : Bool :=
  script.decls.any (fun f => Stmt.anyTests f.body.stmts) ||
    script.globals.any fun d => d.init.any Expr.tests

theorem FuncDecl.Regular.imp {core : Bool} {f : FuncDecl} (h : f.Regular core is)
    (hi : ∀ e ∈ Stmt.allExprs f.body.stmts, e.Regular core is → e.Regular core is') :
    f.Regular core is' :=
  ⟨h.params, h.ret, Stmt.ItemsRegular.imp _ _ h.body hi, h.blocks⟩

/-- The expressions of a script: those of the functions and handlers, and the first values of the
global variables. -/
def Script.exprs (script : Script) : List Expr :=
  script.decls.flatMap (fun f => Stmt.allExprs f.body.stmts) ++
    script.globals.flatMap fun d => d.init.toList

theorem Script.Regular.imp {script : Script} (h : script.Regular is)
    (hi : ∀ e ∈ script.exprs, e.Regular (!script.arrays) is → e.Regular (!script.arrays) is') :
    script.Regular is' := by
  have hdecl : ∀ f ∈ script.decls, ∀ e ∈ Stmt.allExprs f.body.stmts,
      e.Regular (!script.arrays) is → e.Regular (!script.arrays) is' := fun f hf e he =>
    hi e (mem_append_left _ (mem_flatMap.2 ⟨f, hf, he⟩))
  refine ⟨fun f hf => ?_, fun state hs f hf => ?_, fun d hd => ?_, h.states⟩
  · exact (h.functions f hf).imp (hdecl f (mem_append_left _ hf))
  · have hmem : f ∈ script.decls := mem_append_right _ (mem_flatMap.2 ⟨state, hs, hf⟩)
    exact ⟨(h.handlers state hs f hf).1.imp (hdecl f hmem), (h.handlers state hs f hf).2⟩
  · refine ⟨(h.globals d hd).1, fun e he => hi e ?_ ((h.globals d hd).2 e he)⟩
    exact mem_append_right _ (mem_flatMap.2 ⟨d, hd, Option.mem_toList.2 he⟩)

theorem Script.Regular.part {script : Script} (h : script.Regular is) (he : e ∈ script.exprs)
    (hp : p ∈ e.parts) : p.Regular (!script.arrays) is := by
  refine Expr.Regular.part e ?_ p hp
  rcases mem_append.1 he with he | he
  · obtain ⟨f, hf, he⟩ := mem_flatMap.1 he
    rcases mem_append.1 hf with hf | hf
    · exact Stmt.ItemsRegular.of_mem_exprs _ _ (h.functions f hf).body e he
    · obtain ⟨state, hs, hf⟩ := mem_flatMap.1 hf
      exact Stmt.ItemsRegular.of_mem_exprs _ _ (h.handlers state hs f hf).1.body e he
  · obtain ⟨d, hd, he⟩ := mem_flatMap.1 he
    exact (h.globals d hd).2 e (Option.mem_toList.1 he)

theorem Script.tests_eq (script : Script) : script.tests = script.exprs.any Expr.tests := by
  simp only [tests, exprs, any_append, any_flatMap, Stmt.anyTests_eq, Stmt.any_toList]

end EventScript
