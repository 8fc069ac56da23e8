import EventScript.Compile
import EventScript.Proofs.Lexing
import EventScript.Proofs.Syntax

/-!
# Scripts that can be written

Every script that is read from a text is regular (`Script.ofSource_regular`): it names the types that
a text can name, declarations stand where the grammar has them, blocks have numbers of their own, and
what belongs to the array extension occurs only where that is on.

A reader of tokens is described by what it yields from a state with so many tokens left
(`Parser.Yields`), and readers in a row by `Parser.Yields.bind`. The description has two readers, the
same one with different numbers of calls, and says that they do the same. What is read has every
property that the grammar keeps (`Parser.ExprLaw`, `Parser.StmtLaw`).
-/

namespace EventScript

open List hiding after span

/-! ## Tokens -/

/-- The token can come from a text. Without the array extension its words are names. -/
def Token.Allowed (arrays : Bool) : Token → Prop
  | .typeName t => t.Allowed (!arrays)
  | .keyword k => arrays = false → k ∉ Keyword.extended
  | _ => True

theorem Token.Allowed.of_core {t : Token} (h : t.Allowed arrays) : t.Allowed true := by
  cases t with
  | typeName t => exact ⟨h.1, nofun⟩
  | keyword k => exact nofun
  | _ => trivial

theorem Keyword.not_mem_extended (h : k ∈ Keyword.core) : k ∉ Keyword.extended := by
  cases k <;> revert h <;> decide

theorem Ty.allowed_of_mem {t : Ty}
    (h : t ∈ if arrays then Token.coreTypes ++ Token.extendedTypes else Token.coreTypes) :
    t.Allowed (!arrays) := by
  revert h
  cases arrays <;> cases t <;>
    simp [Ty.Allowed, Token.coreTypes, Token.extendedTypes]

theorem Token.ofWord_allowed : (Token.ofWord arrays word).Allowed arrays := by
  unfold Token.ofWord
  dsimp only
  split
  · rename_i hk
    rintro rfl
    exact Keyword.not_mem_extended (mem_of_find?_eq_some hk)
  · rename_i ht
    exact Ty.allowed_of_mem (mem_of_find?_eq_some ht)
  · trivial

namespace Lexer

variable {t : Token}

theorem Spells.allowed (h : Spells on t w rest) : t.Allowed on := by
  cases h with
  | numeral h => obtain ⟨_, rfl⟩ | ⟨_, rfl⟩ := numeral_token h <;> trivial
  | string | mark => trivial
  | word => exact Token.ofWord_allowed

theorem Gap.allowed (h : Gap on text rest on') (ht : t.Allowed on) : t.Allowed on' := by
  induction h with
  | none => exact ht
  | blank _ _ ih => exact ih ht
  | pragma => exact ht.of_core

theorem Laid.allowed (h : Laid text rest on found) : ∀ l ∈ found, l.token.Allowed on := by
  induction h with
  | start => exact nofun
  | token _ hgap ht _ ih =>
    rw [forall_mem_cons]
    exact ⟨ht.allowed, fun l hl => hgap.allowed (ih l hl)⟩

end Lexer

theorem TokenStream.ofSource_allowed (h : TokenStream.ofSource source = .ok t) :
    ∀ l ∈ t.lexemes, l.token.Allowed t.arrays := by
  obtain ⟨⟨r, on, hlaid, hgap⟩, -⟩ := TokenStream.ofSource_laid h
  exact fun l hl => hgap.allowed (hlaid.allowed l (mem_reverse.2 hl))

/-! ## Statements -/

/-- The statement ends with an `if` that an `else` after it would belong to. -/
def Stmt.isOpen : Stmt → Bool
  | .ifThen .. => true
  | .ifElse _ _ other _ => other.isOpen
  | .whileDo _ body _ | .forDo _ _ _ body _ | .foreach _ _ _ body _ => body.isOpen
  | _ => false

namespace Parser

/-! ## What readers yield -/

def State.next (s : State) : Option Token := s.rest.head?.map Lexeme.token

/-- Reading takes tokens from the front and adds numbers of blocks and errors. -/
structure State.Follows (s s' : State) : Prop where
  arrays : s'.arrays = s.arrays
  rest : s'.rest <:+ s.rest
  nextBlock : s.nextBlock ≤ s'.nextBlock
  errors : s.errors <:+ s'.errors

theorem State.Follows.refl (s : State) : s.Follows s :=
  ⟨rfl, suffix_refl _, le_rfl, suffix_refl _⟩

theorem State.Follows.trans {s : State} (h : s.Follows s') (h' : s'.Follows s'') :
    s.Follows s'' :=
  ⟨h'.arrays.trans h.arrays, h'.rest.trans h.rest, h.nextBlock.trans h'.nextBlock,
    h.errors.trans h'.errors⟩

theorem State.Follows.moved {s : State} (h : s.Follows s') :
    s'.rest.length < s.rest.length ∨ s'.rest = s.rest := by
  rcases Nat.lt_or_ge s'.rest.length s.rest.length with hlt | hge
  · exact .inl hlt
  · exact .inr (h.rest.eq_of_length_le hge)

/-- The tokens that there can be, and whether the array extension is on. -/
structure Supply where
  arrays : Bool
  token : Token → Prop

/-- The next block has the number `n`, and `b` tokens are left, the first of which is `t`. -/
structure State.At (G : Supply) (n b : Nat) (t : Option Token) (s : State) : Prop where
  arrays : s.arrays = G.arrays
  tokens : ∀ l ∈ s.rest, G.token l.token
  nextBlock : s.nextBlock = n
  left : s.rest.length = b
  next : s.next = t

/-- From such a state two readers do the same. What they read has a property, which may depend on
where they stop. -/
def Yields {α : Type} (G : Supply) (n b : Nat) (t : Option Token) (p q : Parser α)
    (T : Nat → Nat → Option Token → α → Prop) : Prop :=
  ∀ s, s.At G n b t → q s = p s ∧
    match p s with
    | .ok a s' => s.Follows s' ∧ T s'.nextBlock s'.rest.length s'.next a
    | .error e s' => (∃ d, e = .wrong d) ∧ s.Follows s'

variable {α β : Type} {p : Parser α}

theorem State.At.follows {s : State} (hs : s.At G n b t) (h : s.Follows s') :
    s'.At G s'.nextBlock s'.rest.length s'.next :=
  ⟨h.arrays.trans hs.arrays, fun l hl => hs.tokens l (h.rest.subset hl), rfl, rfl, rfl⟩

theorem State.At.token {s : State} (hs : s.At G n b t) : ∀ x ∈ t, G.token x ∧ 0 < b := by
  intro x hx
  obtain ⟨l, hl, rfl⟩ := Option.map_eq_some_iff.1 (hs.next.trans hx)
  have hmem := mem_of_mem_head? hl
  exact ⟨hs.tokens l hmem, hs.left ▸ length_pos_of_mem hmem⟩

theorem Yields.bind (hp : Yields G n b t p q T) (hf : ∀ {n' b' t'} a, n ≤ n' → b' ≤ b →
    T n' b' t' a → Yields G n' b' t' (f a) (g a) U) : Yields G n b t (p >>= f) (q >>= g) U := by
  intro s hs
  obtain ⟨hq, h⟩ := hp s hs
  change EStateM.bind q g s = EStateM.bind p f s ∧ match EStateM.bind p f s with
    | .ok _ _ => _
    | .error _ _ => _
  unfold EStateM.bind
  rw [hq]
  cases hr : p s with
  | ok a s' =>
    rw [hr] at h
    obtain ⟨hle, ha⟩ := h
    obtain ⟨hq', h'⟩ := hf a (hs.nextBlock ▸ hle.nextBlock) (hs.left ▸ hle.rest.length_le) ha s'
      (hs.follows hle)
    refine ⟨hq', ?_⟩
    dsimp only
    cases hr' : f a s' with
    | ok b s'' =>
      rw [hr'] at h'
      exact ⟨hle.trans h'.1, h'.2⟩
    | error d s'' =>
      rw [hr'] at h'
      exact ⟨h'.1, hle.trans h'.2⟩
  | error d s' =>
    rw [hr] at h
    exact ⟨rfl, h⟩

theorem Yields.pure (h : T n b t a) : Yields G n b t (pure a) (pure a) T := by
  rintro s ⟨-, -, rfl, rfl, rfl⟩
  exact ⟨rfl, .refl s, h⟩

theorem Yields.mono (h : Yields G n b t p q T)
    (hT : ∀ {n' b' t'} a, n ≤ n' → b' ≤ b → T n' b' t' a → T' n' b' t' a) :
    Yields G n b t p q T' := by
  intro s hs
  obtain ⟨hq, h⟩ := h s hs
  refine ⟨hq, ?_⟩
  cases hr : p s with
  | ok a s' =>
    rw [hr] at h
    exact ⟨h.1, hT a (hs.nextBlock ▸ h.1.nextBlock) (hs.left ▸ h.1.rest.length_le) h.2⟩
  | error d s' =>
    rw [hr] at h
    exact h

/-! ## Tokens one at a time -/

theorem Yields.peek {f : Option Token → Parser β}
    (h : (∀ x ∈ t, G.token x ∧ 0 < b) → Yields G n b t (f t) (g t) U) :
    Yields G n b t (peek >>= f) (peek >>= g) U := by
  intro s hs
  have hr := h hs.token s hs
  rw [← hs.next] at hr
  exact hr

theorem Yields.peekAt (k : Nat) {f : Option Token → Parser β}
    (h : ∀ x, Yields G n b t (f x) (g x) U) : Yields G n b t (peekAt k >>= f) (peekAt k >>= g) U :=
  fun s hs => h (s.rest[k]?.map Lexeme.token) s hs

theorem Yields.here {f : Span → Parser β} (h : ∀ span, Yields G n b t (f span) (g span) U) :
    Yields G n b t (here >>= f) (here >>= g) U :=
  fun s hs => h _ s hs

theorem Yields.get {f : State → Parser β}
    (h : ∀ s, s.arrays = G.arrays → Yields G n b t (f s) (g s) U) :
    Yields G n b t (get >>= f) (get >>= g) U :=
  fun s hs => h s hs.arrays s hs

/-- What is read has a property, and a token has been used. -/
abbrev Uses (b : Nat) (R : α → Prop) : Nat → Nat → Option Token → α → Prop :=
  fun _ b' _ a => b' < b ∧ R a

theorem advance_yields (hb : 0 < b) : Yields G n b t advance advance (Uses b fun _ => True) := by
  rintro s ⟨-, -, rfl, rfl, -⟩
  refine ⟨rfl, ⟨rfl, tail_suffix _, le_rfl, suffix_refl _⟩, ?_, trivial⟩
  exact length_tail.trans_lt (Nat.sub_one_lt hb.ne')

theorem Yields.advance {f : Unit → Parser β} (hb : 0 < b)
    (h : ∀ {n' b' t'}, n ≤ n' → b' < b → Yields G n' b' t' (f ()) (g ()) U) :
    Yields G n b t (advance >>= f) (advance >>= g) U :=
  (advance_yields hb).bind fun _ hn _ hb => h hn hb.1

theorem Yields.throw (d : Diagnostic) : Yields G n b t (throw (.wrong d)) (throw (.wrong d)) T :=
  fun s _ => ⟨rfl, ⟨d, rfl⟩, .refl s⟩

theorem Yields.failHere (e : Option Token → GrammarError) :
    Yields G n b t (failHere e) (failHere e) T :=
  .peek fun _ => .here fun _ => .throw _

theorem Yields.eat {f : Bool → Parser β}
    (hyes : ∀ {n' b' t'}, t = some x → n ≤ n' → b' < b → Yields G n' b' t' (f true) (g true) U)
    (hno : t ≠ some x → Yields G n b t (f false) (g false) U) :
    Yields G n b t (eat x >>= f) (eat x >>= g) U := by
  unfold Parser.eat
  rw [bind_assoc, bind_assoc]
  refine .peek fun hx => ?_
  by_cases ht : t = some x
  · rw [if_pos ht, bind_assoc, bind_assoc]
    exact (advance_yields (hx x ht).2).bind fun _ hn _ hb => hyes ht hn hb.1
  · rw [if_neg ht]
    exact hno ht

theorem expect_yields (x : Token) :
    Yields G n b t (expect x) (expect x) (Uses b fun _ => True) := by
  refine .peek fun hx => ?_
  split
  · rename_i ht
    exact .here fun _ => (advance_yields (hx x ht).2).bind fun _ _ _ hb => .pure hb
  · exact .failHere _

theorem Yields.mark {f : Span → Parser β}
    (h : ∀ {n' b' t'} span, n ≤ n' → b' < b → Yields G n' b' t' (f span) (g span) U) :
    Yields G n b t (expectMark m >>= f) (expectMark m >>= g) U :=
  (expect_yields (.mark m)).bind fun span hn _ hb => h span hn hb.1

theorem expectName_yields : Yields G n b t expectName expectName (Uses b fun _ => True) := by
  refine .peek fun hx => ?_
  split
  · exact .here fun _ => (advance_yields (hx _ rfl).2).bind fun _ _ _ hb => .pure hb
  · exact .failHere _

theorem Yields.name {f : String × Span → Parser β}
    (h : ∀ {n' b' t'} word, n ≤ n' → b' < b → Yields G n' b' t' (f word) (g word) U) :
    Yields G n b t (expectName >>= f) (expectName >>= g) U :=
  (expectName_yields).bind fun word hn _ hb => h word hn hb.1

theorem expectType_yields :
    Yields G n b t expectType expectType (Uses b fun ty => G.token (.typeName ty.1)) := by
  refine .peek fun hx => ?_
  split
  · exact .here fun _ => (advance_yields (hx _ rfl).2).bind fun _ _ _ hb =>
      .pure ⟨hb.1, (hx _ rfl).1⟩
  · exact .failHere _

theorem Yields.peekMark {f : Option Mark → Parser β}
    (h : ∀ m, (∀ x, m = some x → t = some (.mark x) ∧ 0 < b) → Yields G n b t (f m) (g m) U) :
    Yields G n b t (peekMark >>= f) (peekMark >>= g) U := by
  unfold Parser.peekMark
  rw [bind_assoc, bind_assoc]
  refine .peek fun hx => ?_
  split
  · exact h _ fun x hm => ⟨congrArg _ (congrArg _ (Option.some.inj hm)), (hx _ rfl).2⟩
  · exact h none nofun

theorem Yields.atCast {f : Bool → Parser β}
    (h : ∀ cast, (cast = true → 0 < b) → Yields G n b t (f cast) (g cast) U) :
    Yields G n b t (atCast >>= f) (atCast >>= g) U := by
  unfold Parser.atCast
  simp only [bind_assoc]
  refine .peekAt 1 fun _ => .peek fun hx => .peekAt 2 fun _ => h _ fun hc => ?_
  exact (hx _ (of_decide_eq_true hc).1).2

/-! ## Expressions -/

/-- A property of expressions that what is read from left to right has, since it is kept by all that
the grammar builds from expressions that have it. -/
structure ExprLaw (G : Supply) (E : Expr → Prop) : Prop where
  integer : E (.integer v span)
  float : E (.float d span)
  string : E (.string s span)
  name : E (.name word span)
  undefined : G.token (.keyword .undefined) → E (.undefined span)
  list : (∀ e ∈ es, E e) → E (.list es span)
  vector : E x → E y → E z → E (.vector x y z span)
  rotation : E x → E y → E z → E w → E (.rotation x y z w span)
  cast : G.token (.typeName ty) → E e → E (.cast ty e span)
  call : (∀ e ∈ es, E e) → E (.call word es span)
  binary : E l → E r → E (.binary op l r span)
  unary : E e → E (.unary op e span)
  assign : assignOp? m = some op → l.isTarget = true → E l → E r → E (.assign op l r span)
  bump : e.isTarget = true → E e → E (.bump e up after span)
  field : E e → E (.field e word span)
  index : G.arrays = true → E e → E key → E (.index e key span)
  method : G.arrays = true → E e → (∀ e ∈ es, E e) → E (.method e word es span)
  isType : G.token (.keyword .isType) → E e → E (.isType e ty span)

variable {E : Expr → Prop}

/-- What readers of expressions do with so many calls, if there are enough for the tokens. A reader
has one call more than those that it calls before it uses a token. -/
structure Exprs (G : Supply) (E : Expr → Prop) (k : Nat) : Prop where
  expr : ∀ {n b t}, 8 * b + 4 < k → Yields G n b t (expr k) (expr (k + 1)) (Uses b E)
  binary : ∀ {n b t}, 8 * b + 3 < k → ∀ least,
    Yields G n b t (binary k least) (binary (k + 1) least) (Uses b E)
  binaryRest : ∀ {n b t}, 8 * b < k → ∀ least left, E left →
    Yields G n b t (binaryRest k least left) (binaryRest (k + 1) least left) fun _ _ _ e => E e
  unary : ∀ {n b t}, 8 * b + 2 < k → Yields G n b t (unary k) (unary (k + 1)) (Uses b E)
  access : ∀ {n b t}, 8 * b + 1 < k → ∀ object, E object →
    Yields G n b t (access k object) (access (k + 1) object) fun _ _ _ e => E e
  bumpAfter : ∀ {n b t}, 8 * b < k → 0 < b → ∀ object up, E object →
    Yields G n b t (bumpAfter k object up) (bumpAfter (k + 1) object up) fun _ _ _ e => E e
  primary : ∀ {n b t}, 8 * b < k → Yields G n b t (primary k) (primary (k + 1)) (Uses b E)
  exprList : ∀ {n b t}, 8 * b + 6 < k → ∀ stop,
    Yields G n b t (exprList k stop) (exprList (k + 1) stop) fun _ _ _ es => ∀ e ∈ es, E e
  exprs : ∀ {n b t}, 8 * b + 5 < k →
    Yields G n b t (exprs k) (exprs (k + 1)) (Uses b fun es => ∀ e ∈ es, E e)
  components : ∀ {n b t}, 8 * b + 4 < k →
    Yields G n b t (components k) (components (k + 1)) (Uses b fun es => ∀ e ∈ es, E e)

section

variable (L : ExprLaw G E)

include L

theorem expr_yields (h : Exprs G E k) (hk : 8 * b + 4 < k + 1) :
    Yields G n b t (expr (k + 1)) (expr (k + 2)) (Uses b E) := by
  refine (h.binary (by omega) _).bind fun target _ _ ht => .peekMark fun m hm => ?_
  split
  · exact .pure ht
  rename_i hop
  obtain ⟨x, hx, hop⟩ := Option.bind_eq_some_iff.1 hop
  split
  · rename_i htarget
    exact .advance (hm x hx).2 fun _ _ => (h.expr (by omega)).bind fun _ _ _ hv =>
      .pure ⟨by omega, L.assign hop htarget ht.2 hv.2⟩
  · exact .throw _

theorem binaryRest_yields (h : Exprs G E k) (hk : 8 * b < k + 1)
    (hl : E left) : Yields G n b t (binaryRest (k + 1) least left)
      (binaryRest (k + 2) least left) fun _ _ _ e => E e := by
  refine .peek fun hx => ?_
  split
  · have hb := hx _ rfl
    split
    · exact .pure hl
    · exact .advance hb.2 fun _ _ => (expectType_yields).bind fun _ _ _ _ =>
        h.binaryRest (by omega) _ _ (L.isType hb.1 hl)
  · have hb := (hx _ rfl).2
    split
    · exact .pure hl
    split
    · exact .pure hl
    · exact .advance hb fun _ _ => (h.binary (by omega) _).bind fun _ _ _ hr =>
        h.binaryRest (by omega) _ _ (L.binary hl hr.2)
  · exact .pure hl

theorem unary_yields (h : Exprs G E k) (hk : 8 * b + 2 < k + 1) :
    Yields G n b t (unary (k + 1)) (unary (k + 2)) (Uses b E) := by
  refine .here fun start => .peekMark fun mark hm => ?_
  split
  · rename_i hop
    obtain ⟨x, hx, -⟩ := Option.bind_eq_some_iff.1 hop
    exact .advance (hm x hx).2 fun _ _ => (h.unary (by omega)).bind fun _ _ _ he =>
      .pure ⟨by omega, L.unary he.2⟩
  · split
    · rename_i hstep
      have hb : 0 < b := hstep.elim (fun h => (hm _ h).2) fun h => (hm _ h).2
      refine .advance hb fun _ _ => (h.unary (by omega)).bind fun _ _ _ ht => ?_
      split
      · rename_i htarget
        exact .pure ⟨by omega, L.bump htarget ht.2⟩
      · exact .throw _
    · refine .atCast fun cast hc => ?_
      split
      · rename_i hcast
        exact .advance (hc hcast) fun _ _ => (expectType_yields).bind fun _ _ _ hty =>
          .mark fun _ _ _ => (h.unary (by omega)).bind fun _ _ _ he =>
            .pure ⟨by omega, L.cast hty.2 he.2⟩
      · exact (h.primary (by omega)).bind fun _ _ _ ho =>
          (h.access (by omega) _ ho.2).mono fun _ _ _ he => ⟨by omega, he⟩

theorem access_yields (h : Exprs G E k) (hk : 8 * b + 1 < k + 1) (ho : E object) :
    Yields G n b t (access (k + 1) object) (access (k + 2) object) fun _ _ _ e => E e := by
  refine .get fun s hs => .peekMark fun m hm => ?_
  split
  · refine .advance (hm _ rfl).2 fun _ _ => .name fun _ _ _ =>
      .peekMark fun next hnext => ?_
    split
    · rename_i hmethod
      simp only [hs, Bool.and_eq_true, beq_iff_eq] at hmethod
      exact .advance (hnext _ hmethod.2).2 fun _ _ =>
        (h.exprList (by omega) _).bind fun _ _ _ ha => .mark fun _ _ _ =>
          h.access (by omega) _ (L.method hmethod.1 ho ha)
    · exact h.access (by omega) _ (L.field ho)
  · split
    · rename_i harrays
      exact .advance (hm _ rfl).2 fun _ _ => (h.expr (by omega)).bind fun _ _ _ hkey =>
        .mark fun _ _ _ =>
          h.access (by omega) _ (L.index (hs ▸ harrays) ho hkey.2)
    · exact .pure ho
  · exact h.bumpAfter (by omega) (hm _ rfl).2 _ _ ho
  · exact h.bumpAfter (by omega) (hm _ rfl).2 _ _ ho
  · exact .pure ho

theorem ofComponents_yields (h : ∀ e ∈ parts, E e) :
    Yields G n b t (ofComponents parts span) (ofComponents parts span)
      fun _ b' _ e => b' = b ∧ E e := by
  unfold ofComponents
  split
  · simp only [forall_mem_cons] at h
    exact .pure ⟨rfl, L.vector h.1 h.2.1 h.2.2.1⟩
  · simp only [forall_mem_cons] at h
    exact .pure ⟨rfl, L.rotation h.1 h.2.1 h.2.2.1 h.2.2.2.1⟩
  · exact .throw _

theorem primary_yields (h : Exprs G E k) (hk : 8 * b < k + 1) :
    Yields G n b t (primary (k + 1)) (primary (k + 2)) (Uses b E) := by
  refine Yields.here fun start => Yields.peek fun hx => ?_
  rcases t with _ | x
  · exact .failHere _
  obtain ⟨hx, hb⟩ := hx x rfl
  cases x with
  | integer v => exact .advance hb fun _ hb' => .pure ⟨hb', L.integer⟩
  | float v => exact .advance hb fun _ hb' => .pure ⟨hb', L.float⟩
  | string s => exact .advance hb fun _ hb' => .pure ⟨hb', L.string⟩
  | typeName ty => exact .failHere _
  | name id =>
    refine (advance_yields hb).bind fun _ _ _ hb' => .eat (fun _ _ _ => ?_) fun _ => ?_
    · exact (h.exprList (by omega) _).bind fun _ _ _ ha => .mark fun _ _ _ =>
        .pure ⟨by omega, L.call ha⟩
    · exact .pure ⟨hb'.1, L.name⟩
  | keyword w =>
    cases w with
    | undefined => exact .advance hb fun _ hb' => .pure ⟨hb', L.undefined hx⟩
    | _ => exact .failHere _
  | mark m =>
    cases m with
    | leftParen =>
      exact .advance hb fun _ _ => (h.expr (by omega)).bind fun _ _ _ he =>
        .mark fun _ _ _ => .pure ⟨by omega, he.2⟩
    | leftBracket =>
      exact .advance hb fun _ _ => (h.exprList (by omega) _).bind fun _ _ _ hi =>
        .mark fun _ _ _ => .pure ⟨by omega, L.list hi⟩
    | lt =>
      exact .advance hb fun _ _ => (h.components (by omega)).bind fun _ _ _ hp =>
        .mark fun _ _ _ => (ofComponents_yields L hp.2).mono fun _ _ _ he =>
          ⟨by omega, he.2⟩
    | _ => exact .failHere _

/-- With enough calls one more makes no difference, and what is read has what the grammar keeps. -/
theorem exprs_hold (k : Nat) : Exprs G E k := by
  induction k with
  | zero =>
    constructor
    all_goals
      intro n b t hk
      exact absurd hk (Nat.not_lt_zero _)
  | succ k h =>
    constructor
    · exact expr_yields L h
    · intro n b t hk least
      exact (h.unary (by omega)).bind fun _ _ _ hl => (h.binaryRest (by omega) _ _ hl.2).mono
        fun _ _ _ he => ⟨by omega, he⟩
    · exact fun hk least _ hl => binaryRest_yields L h hk hl
    · exact unary_yields L h
    · exact fun hk _ ho => access_yields L h hk ho
    · intro n b t hk hb object up ho
      unfold bumpAfter
      split
      · rename_i htarget
        exact .here fun _ => .advance hb fun _ _ =>
          h.access (by omega) _ (L.bump htarget ho)
      · exact .pure ho
    · exact primary_yields L h
    · intro n b t hk stop
      refine .peek fun _ => ?_
      split
      · exact .pure nofun
      · exact (h.exprs (by omega)).mono fun _ _ _ hes => hes.2
    · intro n b t hk
      refine (h.expr (by omega)).bind fun _ _ _ he => .eat (fun _ _ _ => ?_) fun _ => ?_
      · exact (h.exprs (by omega)).bind fun _ _ _ hes =>
          .pure ⟨by omega, forall_mem_cons.2 ⟨he.2, hes.2⟩⟩
      · exact .pure ⟨he.1, forall_mem_singleton.2 he.2⟩
    · intro n b t hk
      refine (h.binary (by omega) _).bind fun _ _ _ he => .eat (fun _ _ _ => ?_) fun _ => ?_
      · exact (h.components (by omega)).bind fun _ _ _ hes =>
          .pure ⟨by omega, forall_mem_cons.2 ⟨he.2, hes.2⟩⟩
      · exact .pure ⟨he.1, forall_mem_singleton.2 he.2⟩

end

/-! ## Statements -/

theorem condition_yields (L : ExprLaw G E) (hk : 8 * b < k) :
    Yields G n b t (condition k) (condition (k + 1)) (Uses b E) :=
  .mark fun _ _ _ => ((exprs_hold L k).expr (by omega)).bind fun _ _ _ he =>
    .mark fun _ _ _ => .pure ⟨by omega, he.2⟩

theorem forall_mem_some (he : E e) : ∀ x ∈ some e, E x := by
  rintro _ ⟨⟩
  exact he

theorem initial_yields (L : ExprLaw G E) (hk : 8 * b < k) :
    Yields G n b t (initial k) (initial (k + 1)) fun _ _ _ init => ∀ e ∈ init, E e := by
  refine .eat (fun _ _ _ => ?_) fun _ => .pure nofun
  exact ((exprs_hold L k).expr (by omega)).bind fun _ _ _ he => .pure (forall_mem_some he.2)

theorem exprUnless_yields (L : ExprLaw G E) (hk : 8 * b + 4 < k) (m : Mark) :
    Yields G n b t (exprUnless k m) (exprUnless (k + 1) m) fun _ _ _ value => ∀ e ∈ value, E e := by
  refine .peek fun _ => ?_
  split
  · exact .pure nofun
  · exact ((exprs_hold L k).expr hk).bind fun _ _ _ he => .pure (forall_mem_some he.2)

theorem optionalName_yields : Yields G n b t optionalName optionalName fun _ _ _ _ => True := by
  refine .peek fun _ => ?_
  split
  · exact .name fun _ _ _ => .pure trivial
  · exact .pure trivial

theorem stateName_yields : Yields G n b t stateName stateName (Uses b fun _ => True) :=
  .eat (fun _ _ hb => .pure ⟨hb, trivial⟩) fun _ => (expectName_yields).bind fun _ _ _ hb => .pure hb

structure IsDecl (G : Supply) (E : Expr → Prop) (hoisted : Bool) (d : VarDecl) : Prop where
  hoisted : d.hoisted = hoisted
  ty : G.token (.typeName d.ty)
  init : ∀ e ∈ d.init, E e

theorem localDecl_yields (L : ExprLaw G E) (hk : 8 * b < k) (hoisted : Bool) :
    Yields G n b t (localDecl k hoisted) (localDecl (k + 1) hoisted) (Uses b (IsDecl G E hoisted)) :=
  .here fun _ => (expectType_yields).bind fun _ _ _ hty => .name fun _ _ _ =>
    (initial_yields L (by omega)).bind fun _ _ _ hinit => .mark fun _ _ _ =>
      .pure ⟨by omega, rfl, hty.2, hinit⟩

/-- Numbers of their own, from `n` on and before `n'`. -/
structure Numbered (n n' : Nat) (ids : List Nat) : Prop where
  nodup : ids.Nodup
  bounds : ∀ i ∈ ids, n ≤ i ∧ i < n'

theorem Numbered.nil (n n' : Nat) : Numbered n n' [] := ⟨.nil, nofun⟩

theorem Numbered.mono (h : Numbered m m' ids) (hle : n ≤ m) (hle' : m' ≤ n') : Numbered n n' ids :=
  ⟨h.nodup, fun i hi => by have := h.bounds i hi; omega⟩

theorem Numbered.append (h : Numbered n m ids) (h' : Numbered m' n' ids')
    (hle : m ≤ m') (hn : n ≤ m') (hn' : m ≤ n') : Numbered n n' (ids ++ ids') where
  nodup := by
    refine nodup_append.2 ⟨h.nodup, h'.nodup, ?_⟩
    rintro i hi j hj rfl
    have := h.bounds i hi
    have := h'.bounds i hj
    omega
  bounds i hi := by
    obtain hi | hi := mem_append.1 hi
    · have := h.bounds i hi
      omega
    · have := h'.bounds i hi
      omega

theorem Numbered.cons (h : Numbered (n + 1) n' ids) (hlt : n < n') : Numbered n n' (n :: ids) := by
  have hn : Numbered n (n + 1) [n] := ⟨nodup_singleton n, by simp⟩
  exact hn.append h le_rfl (by omega) hlt

/-- Properties of statements and of the items of a block, after another statement when so, that what
is read has. -/
structure StmtLaw (G : Supply) (E : Expr → Prop) (S : Stmt → Prop) (I : Bool → List Stmt → Prop) :
    Prop where
  nil : I hoisted []
  decl : IsDecl G E hoisted d → I hoisted ss → I hoisted (.decl d :: ss)
  cons : S s → I (hoisted || s.endsDeclarations) ss → I hoisted (s :: ss)
  expr : E e → S (.expr e)
  block : I false ss → S (.block i ss span)
  ifThen : E e → S s → S (.ifThen e s span)
  /-- Another `if` at the end of the first branch would have taken the `else`. -/
  ifElse : E e → S s → s.isOpen = false → S s' → S (.ifElse e s s' span)
  whileDo : E e → S s → S (.whileDo e s span)
  doWhile : S s → E e → S (.doWhile s e span)
  forDo : (∀ e ∈ es, E e) → (∀ e ∈ e?, E e) → (∀ e ∈ es', E e) → S s → S (.forDo es e? es' s span)
  foreach : G.token (.keyword .foreachLoop) → E e → S s → S (.foreach x y e s span)
  jump : S (.jump word span)
  label : S (.label word span)
  ret : (∀ e ∈ e?, E e) → S (.ret e? span)
  state : S (.state word span)
  null : S (.null span)

/-- A statement that is read with the numbers from `n` to `n'`, before the token `t`. -/
structure IsStmt (S : Stmt → Prop) (n n' : Nat) (t : Option Token) (s : Stmt) : Prop where
  law : S s
  numbered : Numbered n n' (s.blocks.map Prod.fst)
  closed : s.isOpen = true → t ≠ some (.keyword .elseBranch)

structure IsItems (I : Bool → List Stmt → Prop) (hoisted : Bool) (n n' : Nat) (ss : List Stmt) :
    Prop where
  law : I hoisted ss
  numbered : Numbered n n' ((Stmt.blocksAll ss).map Prod.fst)

structure IsBlock (I : Bool → List Stmt → Prop) (n n' : Nat) (x : Block) : Prop where
  law : I false x.stmts
  numbered : Numbered n n' (x.id :: (Stmt.blocksAll x.stmts).map Prod.fst)

structure IsItemOf (I : Bool → List Stmt → Prop) (hoisted : Bool) (n n' : Nat) (s : Stmt) :
    Prop where
  law : ∀ {ss}, I (hoisted || s.endsDeclarations) ss → I hoisted (s :: ss)
  numbered : Numbered n n' (s.blocks.map Prod.fst)

theorem IsStmt.simple (hs : S s) (hb : s.blocks = []) (ho : s.isOpen = false) : IsStmt S n n' t s :=
  ⟨hs, by rw [hb]; exact .nil _ _, fun h => by rw [ho] at h; cases h⟩

theorem IsStmt.around (h : IsStmt S m m' t body) (hs : S s)
    (hb : s.blocks = body.blocks) (ho : s.isOpen = body.isOpen) (hle : n ≤ m) : IsStmt S n m' t s :=
  ⟨hs, by rw [hb]; exact h.numbered.mono hle le_rfl, fun h' => h.closed (ho ▸ h')⟩

/-- What readers of statements do with so many calls, if there are enough for the tokens. -/
structure Stmts (G : Supply) (S : Stmt → Prop) (I : Bool → List Stmt → Prop) (k : Nat) : Prop where
  stmt : ∀ {n b t}, 8 * b + 5 < k →
    Yields G n b t (stmt k) (stmt (k + 1)) fun n' b' t' s => b' < b ∧ IsStmt S n n' t' s
  block : ∀ {n b t}, 8 * b < k →
    Yields G n b t (block k) (block (k + 1)) fun n' b' _ x => b' < b ∧ IsBlock I n n' x
  blockItems : ∀ {n b t}, 8 * b + 7 < k → ∀ hoisted,
    Yields G n b t (blockItems k hoisted) (blockItems (k + 1) hoisted) fun n' _ _ ss =>
      IsItems I hoisted n n' ss
  blockItem : ∀ {n b t}, 8 * b + 6 < k → ∀ hoisted x,
    Yields G n b t (blockItem k hoisted x) (blockItem (k + 1) hoisted x) fun n' b' _ s =>
      b' < b ∧ IsItemOf I hoisted n n' s

theorem stmt_yields (L : ExprLaw G E) (M : StmtLaw G E S I) (h : Stmts G S I k)
    (hk : 8 * b + 5 < k + 1) : Yields G n b t (stmt (k + 1)) (stmt (k + 2)) fun n' b' t' s =>
      b' < b ∧ IsStmt S n n' t' s := by
  have hexprs := exprs_hold L k
  refine .here fun start => .peek fun hx => ?_
  split
  · exact (h.block (by omega)).bind fun _ _ _ hb => .pure ⟨hb.1, M.block hb.2.law,
      by rw [Stmt.blocks]; exact hb.2.numbered, nofun⟩
  · exact .advance (hx _ rfl).2 fun _ hb => .pure ⟨hb, .simple M.null rfl rfl⟩
  · refine .advance (hx _ rfl).2 fun _ _ => (condition_yields L (by omega)).bind
      fun _ _ _ hc => (h.stmt (by omega)).bind fun body _ _ hb => .eat (fun helse _ _ => ?_)
        fun hne => ?_
    · refine (h.stmt (by omega)).bind fun other _ _ ho => .pure ⟨by omega, ?_, ?_, ?_⟩
      · have hclosed : body.isOpen = false := by
          cases hopen : body.isOpen with
          | true => exact absurd helse (hb.2.closed hopen)
          | false => rfl
        exact M.ifElse hc.2 hb.2.law hclosed ho.2.law
      · rw [Stmt.blocks, map_append]
        exact (hb.2.numbered.mono (by omega) le_rfl).append ho.2.numbered (by omega) (by omega)
          (by omega)
      · exact ho.2.closed
    · refine .pure ⟨by omega, M.ifThen hc.2 hb.2.law, ?_, fun _ => hne⟩
      exact hb.2.numbered.mono (by omega) le_rfl
  · exact .advance (hx _ rfl).2 fun _ _ => (condition_yields L (by omega)).bind
      fun _ _ _ hc => (h.stmt (by omega)).bind fun body _ _ hb =>
        .pure ⟨by omega, hb.2.around (M.whileDo hc.2 hb.2.law) rfl rfl (by omega)⟩
  · refine .advance (hx _ rfl).2 fun _ _ => (h.stmt (by omega)).bind
      fun body _ _ hb => (expect_yields _).bind fun _ _ _ _ => (condition_yields L (by omega)).bind
        fun _ _ _ hc => .mark fun _ _ _ =>
          .pure ⟨by omega, M.doWhile hb.2.law hc.2, ?_, nofun⟩
    exact hb.2.numbered.mono (by omega) (by omega)
  · exact .advance (hx _ rfl).2 fun _ _ => .mark fun _ _ _ =>
      (hexprs.exprList (by omega) _).bind fun _ _ _ hi => .mark fun _ _ _ =>
        (exprUnless_yields L (by omega) _).bind fun _ _ _ hc => .mark fun _ _ _ =>
          (hexprs.exprList (by omega) _).bind fun _ _ _ hst => .mark fun _ _ _ =>
            (h.stmt (by omega)).bind fun body _ _ hb =>
              .pure ⟨by omega, hb.2.around (M.forDo hi hc hst hb.2.law) rfl rfl (by omega)⟩
  · have hword := (hx _ rfl).1
    exact .advance (hx _ rfl).2 fun _ _ => .mark fun _ _ _ =>
      (optionalName_yields).bind fun _ _ _ _ => .mark fun _ _ _ =>
        (optionalName_yields).bind fun _ _ _ _ => (expect_yields _).bind fun _ _ _ _ =>
          (hexprs.expr (by omega)).bind fun _ _ _ ha => .mark fun _ _ _ =>
            (h.stmt (by omega)).bind fun body _ _ hb => .pure
              ⟨by omega, hb.2.around (M.foreach hword ha.2 hb.2.law) rfl rfl (by omega)⟩
  · exact .advance (hx _ rfl).2 fun _ _ => .name fun _ _ _ =>
      .mark fun _ _ _ => .pure ⟨by omega, .simple M.jump rfl rfl⟩
  · exact .advance (hx _ rfl).2 fun _ _ => .name fun _ _ _ =>
      .mark fun _ _ _ => .pure ⟨by omega, .simple M.label rfl rfl⟩
  · exact .advance (hx _ rfl).2 fun _ _ => (exprUnless_yields L (by omega) _).bind
      fun _ _ _ hv => .mark fun _ _ _ =>
        .pure ⟨by omega, .simple (M.ret hv) rfl rfl⟩
  · exact .advance (hx _ rfl).2 fun _ _ => (stateName_yields).bind fun _ _ _ _ =>
      .mark fun _ _ _ => .pure ⟨by omega, .simple M.state rfl rfl⟩
  · exact .throw _
  · exact (hexprs.expr (by omega)).bind fun _ _ _ he => .mark fun _ _ _ =>
      .pure ⟨by omega, .simple (M.expr he.2) rfl rfl⟩

theorem newBlock_yields : Yields G n b t newBlock newBlock fun n' b' _ i =>
    b' = b ∧ i = n ∧ n' = n + 1 := by
  rintro s ⟨-, -, rfl, rfl, -⟩
  exact ⟨rfl, ⟨rfl, suffix_refl _, Nat.le_succ _, suffix_refl _⟩, rfl, rfl, rfl⟩

theorem attempt_yields (hp : Yields G n b t p q T) :
    Yields G n b t (attempt p) (attempt q) fun n' b' t' r =>
      match r with
      | .ok a => T n' b' t' a
      | .error _ => b' < b ∨ t' = t := by
  intro s hs
  obtain ⟨hq, h⟩ := hp s hs
  unfold attempt
  rw [hq]
  refine ⟨rfl, ?_⟩
  cases hr : p s with
  | ok a s' => rw [hr] at h; exact h
  | error d s' =>
    rw [hr] at h
    obtain ⟨⟨_, rfl⟩, h⟩ := h
    refine ⟨h, h.moved.imp (fun hlt => hs.left ▸ hlt) fun heq => ?_⟩
    rw [State.next, heq]
    exact hs.next

theorem toStatementEnd_suffix (ts : List Lexeme) : toStatementEnd ts <:+ ts := by
  induction ts with
  | nil => exact suffix_refl _
  | cons l ts ih =>
    unfold toStatementEnd
    split
    · exact suffix_cons _ _
    split
    · exact suffix_refl _
    · exact ih.trans (suffix_cons _ _)

theorem toStatementEnd_shorter (hl : l.token ≠ .mark .rightBrace) :
    (toStatementEnd (l :: ts)).length ≤ ts.length := by
  unfold toStatementEnd
  split
  · exact le_rfl
  · exact (toStatementEnd_suffix ts).length_le

theorem recover_yields : Yields G n b t (recover d) (recover d) fun _ b' _ _ =>
      ∀ x, t = some x → x ≠ .mark .rightBrace → b' < b := by
  rintro s ⟨-, -, rfl, rfl, rfl⟩
  refine ⟨rfl, ⟨rfl, toStatementEnd_suffix _, le_rfl, suffix_cons _ _⟩, fun x hx hne => ?_⟩
  obtain ⟨l, hl, rfl⟩ := Option.map_eq_some_iff.1 hx
  obtain ⟨ts, hts⟩ := head?_eq_some_iff.1 hl
  rw [hts]
  exact Nat.lt_succ_of_le (toStatementEnd_shorter hne)

theorem blockItems_yields (M : StmtLaw G E S I) (h : Stmts G S I k) (hk : 8 * b + 7 < k + 1)
    (hoisted : Bool) : Yields G n b t (blockItems (k + 1) hoisted) (blockItems (k + 2) hoisted)
      fun n' _ _ ss => IsItems I hoisted n n' ss := by
  refine .peek fun hx => ?_
  split
  · exact .pure ⟨M.nil, .nil _ _⟩
  · exact .pure ⟨M.nil, .nil _ _⟩
  rename_i x hne
  refine (attempt_yields (h.blockItem (by omega) hoisted x)).bind fun r _ _ hr => ?_
  split
  · have hb := hr.1
    refine (h.blockItems (by omega) _).bind fun ss _ _ hss => .pure ⟨hr.2.law hss.law, ?_⟩
    rw [Stmt.blocksAll, map_append]
    exact hr.2.numbered.append hss.numbered le_rfl (by omega) (by omega)
  · -- an error has used a token, or the next one is used for it
    refine Yields.bind (T := fun _ b' _ _ => b' < b) ((recover_yields).mono fun _ _ hle hrec => ?_)
      fun _ _ _ hb => (h.blockItems (by omega) hoisted).mono fun ss _ _ hss =>
        ⟨hss.law, hss.numbered.mono (by omega) le_rfl⟩
    rcases hr with hlt | heq
    · exact hle.trans_lt hlt
    · exact (hrec x heq fun hbrace => hne (by rw [hbrace])).trans_le (by omega)

theorem stmts_hold (L : ExprLaw G E) (M : StmtLaw G E S I) (k : Nat) : Stmts G S I k := by
  induction k with
  | zero =>
    constructor
    all_goals
      intro n b t hk
      exact absurd hk (Nat.not_lt_zero _)
  | succ k h =>
    constructor
    · exact stmt_yields L M h
    · intro n b t hk
      refine .mark fun start _ _ => (newBlock_yields).bind fun i _ _ hi => ?_
      obtain ⟨-, rfl, rfl⟩ := hi
      refine (h.blockItems (by omega) _).bind fun stmts _ _ hs => .mark fun stop _ _ =>
        .pure ⟨by omega, hs.law, ?_⟩
      exact (hs.numbered.cons (by omega)).mono (by omega) (by omega)
    · exact blockItems_yields M h
    · intro n b t hk hoisted x
      unfold blockItem
      split
      · refine (localDecl_yields L (by omega) hoisted).bind fun d _ _ hd =>
          .pure ⟨hd.1, fun hss => M.decl hd.2 ?_, .nil _ _⟩
        rwa [Stmt.endsDeclarations, Bool.or_false] at hss
      · exact (h.stmt (by omega)).mono fun s _ _ hs => ⟨hs.1, M.cons hs.2.law, hs.2.numbered⟩

/-! ## Declarations -/

abbrev AreParams (G : Supply) (ps : List Param) : Prop := ∀ p ∈ ps, G.token (.typeName p.ty)

theorem param_yields : Yields G n b t param param (Uses b fun p => G.token (.typeName p.ty)) :=
  .here fun _ => (expectType_yields).bind fun _ _ _ hty => .name fun _ _ _ =>
    .pure ⟨by omega, hty.2⟩

theorem paramsFrom_yields (hk : 8 * b < k) :
    Yields G n b t (paramsFrom k) (paramsFrom (k + 1)) (Uses b (AreParams G)) := by
  induction k generalizing n b t with
  | zero => exact absurd hk (Nat.not_lt_zero _)
  | succ k ih =>
    refine (param_yields).bind fun p _ _ hp => .eat (fun _ _ _ => ?_) fun _ => ?_
    · exact (ih (by omega)).bind fun _ _ _ hps =>
        .pure ⟨by omega, forall_mem_cons.2 ⟨hp.2, hps.2⟩⟩
    · exact .pure ⟨hp.1, forall_mem_singleton.2 hp.2⟩

theorem params_yields (hk : 8 * b < k) :
    Yields G n b t (params k) (params (k + 1)) (Uses b (AreParams G)) := by
  refine .mark fun _ _ _ => .peek fun _ => ?_
  split
  · exact (Yields.pure (forall_mem_nil _)).bind
      fun _ _ _ hps =>
      .mark fun _ _ _ => .pure ⟨by omega, hps⟩
  · exact (paramsFrom_yields (by omega)).bind fun _ _ _ hps => .mark fun _ _ _ =>
      .pure ⟨by omega, hps.2⟩

structure IsFunction (G : Supply) (I : Bool → List Stmt → Prop) (f : FuncDecl) : Prop where
  params : AreParams G f.params
  ret : f.ret = .void ∨ G.token (.typeName f.ret)
  body : I false f.body.stmts
  blocks : (f.blocks.map Prod.fst).Nodup

abbrev IsState (G : Supply) (I : Bool → List Stmt → Prop) (hs : List FuncDecl) : Prop :=
  ∀ f ∈ hs, IsFunction G I f ∧ f.ret = .void

/-- A declaration of the script. The default state has the name that the others cannot have. -/
def IsItem (G : Supply) (E : Expr → Prop) (I : Bool → List Stmt → Prop) : Item → Prop
  | .global d => IsDecl G E false d
  | .function f => IsFunction G I f
  | .defaultState s => IsState G I s.handlers ∧ s.name = "default"
  | .state s => IsState G I s.handlers

theorem Yields.atFunction {f : Bool → Parser β} (h : ∀ x, Yields G n b t (f x) (g x) U) :
    Yields G n b t (atFunction >>= f) (atFunction >>= g) U := by
  unfold Parser.atFunction
  simp only [bind_assoc]
  refine .peek fun _ => ?_
  split
  · simp only [bind_assoc]
    exact .peekAt 1 fun _ => h _
  · exact h _

structure IsFound (G : Supply) (E : Expr → Prop) (I : Bool → List Stmt → Prop) (found : Found) :
    Prop where
  globals : ∀ d ∈ found.globals, IsDecl G E false d
  functions : ∀ f ∈ found.functions, IsFunction G I f
  defaultState : ∀ s ∈ found.defaultState, IsState G I s.handlers ∧ s.name = "default"
  states : ∀ s ∈ found.states, IsState G I s.handlers

theorem IsFound.add (h : IsFound G E I found) (hi : IsItem G E I i)
    (hadd : found.add i = .ok found') : IsFound G E I found' := by
  cases i with
  | global d =>
    cases hadd
    exact { h with globals := forall_mem_cons.2 ⟨hi, h.globals⟩ }
  | function f =>
    simp only [Found.add] at hadd
    split at hadd
    · cases hadd
    · cases hadd
      exact { h with functions := forall_mem_cons.2 ⟨hi, h.functions⟩ }
  | defaultState s =>
    simp only [Found.add] at hadd
    split at hadd
    · cases hadd
    · cases hadd
      exact { h with defaultState := by rintro _ ⟨⟩; exact hi }
  | state s =>
    simp only [Found.add] at hadd
    split at hadd
    · cases hadd
    · cases hadd
      exact { h with states := forall_mem_cons.2 ⟨hi, h.states⟩ }

theorem skipItem_suffix (depth : Nat) (ts : List Lexeme) : skipItem depth ts <:+ ts := by
  induction ts generalizing depth with
  | nil => rw [skipItem]
  | cons l ts ih =>
    have hrest (depth : Nat) : skipItem depth ts <:+ l :: ts := (ih depth).trans (suffix_cons _ _)
    unfold skipItem
    split
    · exact suffix_cons _ _
    split
    · exact hrest _
    split
    · split
      · exact suffix_cons _ _
      · exact hrest _
    · exact hrest _

theorem skipItem_shorter : (skipItem depth (l :: ts)).length ≤ ts.length := by
  have hrest (depth : Nat) : (skipItem depth ts).length ≤ ts.length :=
    (skipItem_suffix depth ts).length_le
  unfold skipItem
  split
  · exact le_rfl
  split
  · exact hrest _
  split
  · split
    · exact le_rfl
    · exact hrest _
  · exact hrest _

theorem itemInto_eq (k : Nat) (found : Found) (s : State) : itemInto k found s = match item k s with
    | .ok i s' =>
      match found.add i with
      | .ok found => .ok found s'
      | .error e => .ok found { s' with errors := { cause := .grammar e.1, span := e.2 } :: s'.errors }
    | .error (.wrong d) s' => .ok found { s' with rest := skipItem 0 s.rest, errors := d :: s'.errors }
    | .error .exhausted s' => .error .exhausted s' := by
  show EStateM.bind (attempt (item k)) _ s = _
  unfold EStateM.bind attempt
  cases item k s with
  | ok i s' =>
    dsimp only
    cases found.add i <;> rfl
  | error e s' => cases e <;> rfl

theorem items_end (h : s.rest = []) : items calls (m + 1) found s = .ok found s := by
  unfold items
  show EStateM.bind peek _ s = _
  unfold EStateM.bind
  dsimp only [peek]
  rw [h]
  rfl

def Found.script (found : Found) (d : StateDecl) (arrays : Bool) : Script :=
  ⟨found.globals.reverse, found.functions.reverse, d :: found.states.reverse, arrays⟩

theorem IsFound.empty : IsFound G E I {} := ⟨nofun, nofun, nofun, nofun⟩

def State.init (t : TokenStream) : State := ⟨t.lexemes, t.endSpan, t.arrays, 0, []⟩

theorem State.init_at {t : TokenStream} (harrays : t.arrays = G.arrays)
    (ht : ∀ l ∈ t.lexemes, G.token l.token) :
    (State.init t).At G 0 t.lexemes.length (State.init t).next :=
  ⟨harrays, ht, rfl, rfl, rfl⟩

section

variable (L : ExprLaw G E) (M : StmtLaw G E S I)

include L M

theorem function_yields (hk : 8 * b ≤ k) (hret : ret = .void ∨ G.token (.typeName ret)) :
    Yields G n b t (function k ret) (function (k + 1) ret)
      (Uses b fun f => IsFunction G I f ∧ f.ret = ret) := by
  refine .name fun _ _ _ => (params_yields (by omega)).bind fun ps _ _ hps =>
    ((stmts_hold L M k).block (by omega)).bind fun body _ _ hb =>
      .pure ⟨by omega, ⟨hps.2, hret, hb.2.law, ?_⟩, rfl⟩
  simpa [FuncDecl.blocks] using hb.2.numbered.nodup

theorem handlers_yields (hk : 8 * b < k) :
    Yields G n b t (handlers k) (handlers (k + 1)) fun _ _ _ hs => IsState G I hs := by
  induction k generalizing n b t with
  | zero => exact absurd hk (Nat.not_lt_zero _)
  | succ k ih =>
    refine .peek fun _ => ?_
    split
    · exact .pure nofun
    · exact .pure nofun
    · exact (function_yields L M (by omega) (.inl rfl)).bind fun f _ _ hf =>
        (ih (by omega)).bind fun _ _ _ hfs => .pure (forall_mem_cons.2 ⟨hf.2, hfs⟩)

theorem stateDecl_yields (hk : 8 * b < k) :
    Yields G n b t (stateDecl k) (stateDecl (k + 1)) (Uses b fun s =>
      IsState G I s.handlers ∧ (t = some (.keyword .default) → s.name = "default")) := by
  refine .here fun start => ?_
  have hrest {n' b' t'} (hb : b' < b) (name : String)
      (hname : t = some (.keyword .default) → name = "default") : Yields G n' b' t' (do
        let _ ← expectMark .leftBrace
        let hs ← handlers k
        let stop ← expectMark .rightBrace
        return (⟨name, hs, start.merge stop⟩ : StateDecl)) (do
        let _ ← expectMark .leftBrace
        let hs ← handlers (k + 1)
        let stop ← expectMark .rightBrace
        return ⟨name, hs, start.merge stop⟩) (Uses b fun s =>
          IsState G I s.handlers ∧ (t = some (.keyword .default) → s.name = "default")) :=
    .mark fun _ _ _ => (handlers_yields L M (by omega)).bind fun _ _ _ hs =>
      .mark fun _ _ _ => .pure ⟨by omega, hs, hname⟩
  refine .eat (fun _ _ hb => ?_) fun hne => ?_
  · exact hrest hb "default" fun _ => rfl
  · exact (expect_yields _).bind fun _ _ _ _ => (stateName_yields).bind fun name _ _ _ =>
      hrest (by omega) name fun h => absurd h hne

theorem typedItem_yields (hk : 8 * b < k) :
    Yields G n b t (typedItem k) (typedItem (k + 1)) (Uses b (IsItem G E I)) := by
  refine .here fun start => (expectType_yields).bind fun ty _ _ hty => .atFunction fun function => ?_
  split
  · exact (function_yields L M (by omega) (.inr hty.2)).bind fun f _ _ hf =>
      .pure ⟨by omega, hf.2.1⟩
  · exact .name fun _ _ _ => (initial_yields L (by omega)).bind
      fun _ _ _ hinit => .mark fun _ _ _ =>
        .pure ⟨by omega, rfl, hty.2, hinit⟩

theorem item_yields (hk : 8 * b < k) :
    Yields G n b t (item k) (item (k + 1)) (Uses b (IsItem G E I)) := by
  refine .peek fun _ => ?_
  split
  · exact (stateDecl_yields L M hk).bind fun s _ _ hs => .pure ⟨hs.1, hs.2.1, hs.2.2 rfl⟩
  · exact (stateDecl_yields L M hk).bind fun s _ _ hs => .pure ⟨hs.1, hs.2.1⟩
  · exact typedItem_yields L M hk
  refine .atFunction fun function => ?_
  split
  · exact (function_yields L M hk.le (.inl rfl)).bind fun f _ _ hf => .pure ⟨hf.1, hf.2.1⟩
  · exact .failHere _

/-- With enough calls more make no difference. -/
theorem item_calls (hs : s.At G n b t) (hk : 8 * b < k) (hle : k ≤ k') :
    item k' s = item k s := by
  induction k', hle using Nat.le_induction with
  | base => rfl
  | succ k' hle ih => exact ((item_yields L M (by omega) s hs).1).trans ih

/-- A turn of the loop over declarations takes one in, if one is read that can be, and uses a token in
any case. -/
theorem itemInto_yields (hk : 8 * b < k) (hle : k ≤ k') (found : Found) :
    Yields G n b (some x) (itemInto k found) (itemInto k' found) (Uses b fun found' =>
      found' = found ∨ ∃ i, IsItem G E I i ∧ found.add i = .ok found') := by
  intro s hs
  have h := (item_yields L M hk s hs).2
  rw [itemInto_eq, itemInto_eq, item_calls L M hs hk hle]
  refine ⟨rfl, ?_⟩
  cases hr : item k s with
  | ok i s' =>
    rw [hr] at h
    obtain ⟨hle, hb, hi⟩ := h
    dsimp only
    cases hadd : found.add i with
    | ok found' => exact ⟨hle, hb, .inr ⟨i, hi, hadd⟩⟩
    | error e =>
      exact ⟨⟨hle.arrays, hle.rest, hle.nextBlock, hle.errors.trans (suffix_cons _ _)⟩, hb,
        .inl rfl⟩
  | error d s' =>
    rw [hr] at h
    obtain ⟨⟨_, rfl⟩, h⟩ := h
    refine ⟨⟨h.arrays, skipItem_suffix _ _, h.nextBlock, h.errors.trans (suffix_cons _ _)⟩, ?_,
      .inl rfl⟩
    obtain ⟨l, hl, -⟩ := Option.map_eq_some_iff.1 hs.next
    obtain ⟨ts, hts⟩ := head?_eq_some_iff.1 hl
    rw [← hs.left]
    rw [hts]
    exact Nat.lt_succ_of_le skipItem_shorter

/-- All tokens are used if there are more turns than tokens, and still more make no difference. -/
theorem items_yields (hcalls : 8 * b < calls) (hle : calls ≤ calls') (hm : b < m) (hle' : m ≤ m')
    (hf : IsFound G E I found) : Yields G n b t (items calls m found) (items calls' m' found)
      fun _ b' _ found => b' = 0 ∧ IsFound G E I found := by
  induction m generalizing n b t m' found with
  | zero => exact absurd hm (Nat.not_lt_zero _)
  | succ m ih =>
    obtain ⟨m', rfl⟩ : ∃ j, m' = j + 1 := ⟨m' - 1, by omega⟩
    cases t with
    | none =>
      intro s hs
      have hnil : s.rest = [] := head?_eq_none_iff.1 (Option.map_eq_none_iff.1 hs.next)
      rw [items_end hnil, items_end hnil]
      exact ⟨rfl, .refl s, congrArg length hnil, hf⟩
    | some x =>
      refine .peek fun _ => (itemInto_yields L M hcalls hle found).bind fun found' _ _ hf' =>
        ih (by omega) (by omega) (by omega) ?_
      rcases hf'.2 with rfl | ⟨i, hi, hadd⟩
      · exact hf
      · exact hf.add hi hadd

theorem script_yields (hb : b = x.lexemes.length) :
    Yields G n b t (script x) (script x) fun _ b' _ script? =>
      b' = 0 ∧ ∀ script ∈ script?, ∃ found d, IsFound G E I found ∧ found.defaultState = some d ∧
        script = found.script d x.arrays := by
  refine (items_yields L M (by unfold callsPerToken; omega) le_rfl (by omega) le_rfl .empty).bind
    fun found _ _ hf => ?_
  split
  · rename_i d hd
    refine .pure ⟨hf.1, ?_⟩
    rintro _ ⟨⟩
    exact ⟨found, d, hf.2, hd, rfl⟩
  · exact .here fun span s hs => ⟨rfl, ⟨rfl, suffix_refl _, le_rfl, suffix_cons _ _⟩,
      hs.left.trans hf.1, nofun⟩

end

end Parser

/-- A script that is read uses all tokens, and no error is recorded on the way. -/
theorem Script.ofTokens_found {G : Parser.Supply} (L : Parser.ExprLaw G E)
    (M : Parser.StmtLaw G E S I) (harrays : t.arrays = G.arrays)
    (ht : ∀ l ∈ t.lexemes, G.token l.token) (h : Script.ofTokens t = .ok script) :
    (∃ found d, Parser.IsFound G E I found ∧ found.defaultState = some d ∧
      script = found.script d t.arrays) ∧
    ∃ s, Parser.script t (.init t) = .ok (some script) s ∧ s.rest = [] ∧ s.errors = [] := by
  have hs := (Parser.script_yields L M rfl _ (Parser.State.init_at harrays ht)).2
  unfold Script.ofTokens Script.ofTokens? at h
  split at h
  · rename_i s heq
    change Parser.script t (.init t) = _ at heq
    rw [heq] at hs
    split at h
    · rename_i herrors
      cases h
      exact ⟨hs.2.2 _ rfl, s, heq, eq_nil_of_length_eq_zero hs.2.1, herrors⟩
    · cases h
  · cases h
  · cases h
  · cases h

/-! ## Texts -/

namespace Parser

def Supply.ofText (arrays : Bool) : Supply := ⟨arrays, Token.Allowed arrays⟩

theorem Supply.extended {arrays : Bool} (h : (Supply.ofText arrays).token (.keyword k))
    (hk : k ∈ Keyword.extended) : (!arrays) = false := by
  cases arrays with
  | true => rfl
  | false => exact absurd hk (h rfl)

theorem regular_exprLaw (arrays : Bool) :
    ExprLaw (.ofText arrays) (Expr.Regular (!arrays) Expr.Any) where
  integer := trivial
  float := trivial
  string := trivial
  name := trivial
  undefined h := Supply.extended h (by decide)
  list h := .of_forall h
  vector hx hy hz := ⟨hx, hy, hz⟩
  rotation hx hy hz hw := ⟨hx, hy, hz, hw⟩
  cast hty h := ⟨hty, h⟩
  call h := .of_forall h
  binary hl hr := ⟨hl, hr⟩
  unary h := h
  assign _ _ hl hr := ⟨hl, hr⟩
  bump _ h := h
  field h := h
  index ha h hkey := ⟨by rw [show arrays = true from ha]; rfl, h, hkey⟩
  method ha h hes := ⟨by rw [show arrays = true from ha]; rfl, h, .of_forall hes⟩
  isType hword h := ⟨Supply.extended hword (by decide), trivial, h⟩

theorem regular_stmtLaw (arrays : Bool) : StmtLaw (.ofText arrays)
    (Expr.Regular (!arrays) Expr.Any) (fun s => ∀ place, s.Regular (!arrays) Expr.Any place)
    fun hoisted ss => Stmt.ItemsRegular (!arrays) Expr.Any ss hoisted where
  nil := trivial
  decl hd hss := by
    refine ⟨⟨by rw [hd.hoisted], hd.ty, hd.init⟩, ?_⟩
    rwa [Stmt.endsDeclarations, Bool.or_false]
  cons hs hss := ⟨hs _, hss⟩
  expr he _ := by rw [Stmt.Regular]; exact he
  block hss _ := by rw [Stmt.Regular]; exact hss
  ifThen he hs _ := by rw [Stmt.Regular]; exact ⟨he, hs none⟩
  ifElse he hs _ hs' _ := by rw [Stmt.Regular]; exact ⟨he, hs none, hs' none⟩
  whileDo he hs _ := by rw [Stmt.Regular]; exact ⟨he, hs none⟩
  doWhile hs he _ := by rw [Stmt.Regular]; exact ⟨hs none, he⟩
  forDo hes he hes' hs _ := by
    rw [Stmt.Regular]; exact ⟨.of_forall hes, he, .of_forall hes', hs none⟩
  foreach hword he hs _ := by
    rw [Stmt.Regular]; exact ⟨Supply.extended hword (by decide), he, hs none⟩
  jump _ := by rw [Stmt.Regular]; trivial
  label _ := by rw [Stmt.Regular]; trivial
  ret he _ := by rw [Stmt.Regular]; exact he
  state _ := by rw [Stmt.Regular]; trivial
  null _ := by rw [Stmt.Regular]; trivial

end Parser

theorem Script.ofTokens_regular (ht : ∀ l ∈ t.lexemes, l.token.Allowed t.arrays)
    (h : Script.ofTokens t = .ok script) : script.Regular Expr.Any := by
  obtain ⟨⟨found, d, hf, hd, rfl⟩, -⟩ := Script.ofTokens_found (Parser.regular_exprLaw t.arrays)
    (Parser.regular_stmtLaw t.arrays) rfl ht h
  obtain ⟨hdefault, -⟩ := hf.defaultState d hd
  have hfunction {f : FuncDecl} (hf : Parser.IsFunction (.ofText t.arrays)
      (fun hoisted ss => Stmt.ItemsRegular (!t.arrays) Expr.Any ss hoisted) f) :
      f.Regular (!t.arrays) Expr.Any := ⟨hf.params, hf.ret, hf.body, hf.blocks⟩
  refine ⟨?_, forall_mem_cons.2 ⟨?_, ?_⟩, ?_, cons_ne_nil _ _⟩
  · exact fun f hfun => hfunction (hf.functions f (mem_reverse.1 hfun))
  · exact fun f hmem => (hdefault f hmem).imp_left hfunction
  · exact fun s hs f hmem => (hf.states s (mem_reverse.1 hs) f hmem).imp_left hfunction
  intro d hd
  have hd := hf.globals d (mem_reverse.1 hd)
  exact ⟨hd.ty, hd.init⟩

/-- A script that is read from a text is one that can be written. -/
theorem Script.ofSource_regular (h : Script.ofSource source = .ok script) :
    script.Regular Expr.Any := by
  unfold Script.ofSource at h
  cases ht : TokenStream.ofSource source with
  | error e => rw [ht] at h; cases h
  | ok t =>
    rw [ht] at h
    exact Script.ofTokens_regular (TokenStream.ofSource_allowed ht) h

end EventScript
