import EventScript.Script.Parser

/-!
# Operators without parentheses

Operands and operators in a row have one tree (`Expr.eq_of_inorder`) in which an operator binds no
more strongly than the one on its left below it and less strongly than the one on its right
(`Expr.Canonical`). The reader reads all of them and gives that tree (`Parser.expr_canonical`): while it
reads, the next operator never binds more strongly than the tree that has been read.
-/

namespace EventScript

open List Option

/-! ## Trees of operators -/

namespace Expr

def inorder : Expr → List (Expr ⊕ BinOp)
  | .binary op l r _ => l.inorder ++ .inr op :: r.inorder
  | e => [.inl e]

/-- The operator on top, if there is one, binds at least so strongly. -/
def Binds (k : Nat) : Expr → Prop
  | .binary op .. => k ≤ op.strength
  | _ => True

/-- Every operator binds at most as strongly as the one on its left, and less than the one on its
right. The span of an operation is that of its operands. -/
def Canonical : Expr → Prop
  | .binary op l r span => l.Canonical ∧ r.Canonical ∧ l.Binds op.strength ∧
      r.Binds (op.strength + 1) ∧ span = l.span.merge r.span
  | _ => True

variable {e e' : Expr}

theorem binary_or_operand (e : Expr) : (∃ op l r span, e = .binary op l r span) ∨
    e.inorder = [.inl e] ∧ e.Canonical ∧ ∀ k, e.Binds k := by
  cases e with
  | binary op l r span => exact .inl ⟨op, l, r, span, rfl⟩
  | _ => exact .inr ⟨rfl, trivial, fun _ => trivial⟩

theorem inorder_ne_nil (e : Expr) : e.inorder ≠ [] := by
  obtain ⟨op, l, r, span, rfl⟩ | ⟨h, -⟩ := e.binary_or_operand
  · rw [inorder]
    exact append_ne_nil_of_right_ne_nil _ (cons_ne_nil _ _)
  · rw [h]
    exact cons_ne_nil _ _

theorem inorder_binary_ne {span : Span} : (binary op l r span).inorder ≠ [x] := by
  rw [inorder]
  cases h : l.inorder with
  | nil => exact absurd h l.inorder_ne_nil
  | cons y ys => simp

/-- No operator of the tree binds less strongly than the one on top. -/
theorem Canonical.strength_le (h : e.Canonical) (hk : e.Binds k) (hop : .inr op ∈ e.inorder) :
    k ≤ op.strength := by
  induction hn : e.inorder.length using Nat.strongRecOn generalizing e k with
  | _ n ih =>
    obtain ⟨top, l, r, span, rfl⟩ | ⟨hitems, -⟩ := e.binary_or_operand
    · obtain ⟨hl, hr, hleft, hright, -⟩ := h
      have hle : k ≤ top.strength := hk
      rw [inorder, length_append, length_cons] at hn
      rw [inorder, mem_append, mem_cons] at hop
      obtain hop | heq | hop := hop
      · exact Nat.le_trans hle (ih _ (by omega) hl hleft hop rfl)
      · cases heq
        exact hle
      · exact Nat.le_trans hle (Nat.le_of_succ_le (ih _ (by omega) hr hright hop rfl))
    · rw [hitems, mem_singleton] at hop
      cases hop

/-- An operator on top does not stand to the left of another one on top. -/
theorem same_top {l r l' r' : Expr} (hr : r.Canonical) (hright : r.Binds (op.strength + 1))
    (hl' : l'.Canonical) (hleft' : l'.Binds op'.strength) (hl : l'.inorder = l.inorder ++ between)
    (h : .inr op :: r.inorder = between ++ .inr op' :: r'.inorder) :
    between = [] ∧ op = op' ∧ r.inorder = r'.inorder := by
  cases between with
  | nil => simpa using h
  | cons x between =>
    obtain ⟨rfl, htail⟩ := cons.inj h
    have hle : op'.strength ≤ op.strength := hl'.strength_le hleft' (by simp [hl])
    have hlt : op.strength + 1 ≤ op'.strength := hr.strength_le hright (by simp [htail])
    omega

/-- There is only one tree of operands and operators in a row. -/
theorem eq_of_inorder (he : e.Canonical) (he' : e'.Canonical) (h : e.inorder = e'.inorder) :
    e = e' := by
  induction hn : e.inorder.length using Nat.strongRecOn generalizing e e' with
  | _ n ih =>
    obtain ⟨op, l, r, span, rfl⟩ | ⟨hitems, -⟩ := e.binary_or_operand <;>
      obtain ⟨op', l', r', span', rfl⟩ | ⟨hitems', -⟩ := e'.binary_or_operand
    · obtain ⟨hl, hr, hleft, hright, rfl⟩ := he
      obtain ⟨hl', hr', hleft', hright', rfl⟩ := he'
      rw [inorder, length_append, length_cons] at hn
      rw [inorder, inorder, append_eq_append_iff] at h
      obtain ⟨between, h1, h2⟩ | ⟨between, h1, h2⟩ := h
      · obtain ⟨rfl, rfl, h3⟩ := same_top hr hright hl' hleft' h1 h2
        rw [ih _ (by omega) hl hl' (by simp [h1]) rfl, ih _ (by omega) hr hr' h3 rfl]
      · obtain ⟨rfl, rfl, h3⟩ := same_top hr' hright' hl hleft h1 h2
        rw [ih _ (by omega) hl hl' (by simp [h1]) rfl, ih _ (by omega) hr hr' h3.symm rfl]
    · exact absurd (h.trans hitems') inorder_binary_ne
    · exact absurd (h.symm.trans hitems) inorder_binary_ne
    · rw [hitems, hitems'] at h
      cases h
      rfl

end Expr

/-! ## Reading -/

def Lexeme.operand? (l : Lexeme) : Option Expr :=
  match l.token with
  | .integer n => some (.integer n l.span)
  | .float d => some (.float d l.span)
  | .string s => some (.string s l.span)
  | .name id => some (.name id l.span)
  | .keyword .undefined => some (.undefined l.span)
  | _ => none

/-- The tokens are operators, each with an operand behind it. -/
inductive Operations : List Lexeme → List (Expr ⊕ BinOp) → Prop
  | nil : Operations [] []
  | cons {k l : Lexeme} {m : Mark} {op : BinOp} : k.token = .mark m → Parser.binaryOp? m = some op →
      l.operand? = some a → Operations ls items → Operations (k :: l :: ls) (.inr op :: .inl a :: items)

namespace Parser

variable {s : State} {l : Lexeme} {ls : List Lexeme} {items : List (Expr ⊕ BinOp)} {a : Expr}
  {n least : Nat}

/-- No token follows that belongs to an operand. -/
def Closed (ls : List Lexeme) : Prop :=
  ∀ l ∈ ls.head?, ∃ m op, l.token = .mark m ∧ binaryOp? m = some op

theorem closed_operations (h : Operations ls items) : Closed ls := by
  cases h with
  | nil => nofun
  | cons hk hop => rintro _ ⟨⟩; exact ⟨_, _, hk, hop⟩

theorem bind_ok {f : α → Parser β} {a : α} (h : p s = .ok a s') : (p >>= f) s = f a s' := by
  show EStateM.bind p f s = _
  rw [EStateM.bind, h]

theorem peekMark_eq (s : State) : peekMark s = .ok (match s.rest.head?.map Lexeme.token with
    | some (.mark m) => some m
    | _ => none) s := by
  rw [peekMark, bind_ok (p := peek) rfl]
  cases s.rest.head?.map Lexeme.token with
  | none => rfl
  | some t => cases t <;> rfl

/-- Nothing is read behind an operand. -/
theorem access_closed (h : Closed s.rest) : access (n + 1) a s = .ok a s := by
  rw [access, bind_ok (p := get) rfl, bind_ok (peekMark_eq s)]
  cases hs : s.rest with
  | nil => rfl
  | cons l ls =>
    obtain ⟨m, op, hm, hop⟩ := h l (by rw [hs]; rfl)
    rw [head?_cons, map_some, hm]
    cases m <;> cases hop <;> rfl

theorem operand_cases (h : l.operand? = some a) :
    (∃ n, l.token = .integer n ∧ a = .integer n l.span) ∨
    (∃ d, l.token = .float d ∧ a = .float d l.span) ∨
    (∃ x, l.token = .string x ∧ a = .string x l.span) ∨
    (∃ x, l.token = .name x ∧ a = .name x l.span) ∨
    l.token = .keyword .undefined ∧ a = .undefined l.span := by
  unfold Lexeme.operand? at h
  cases hl : l.token <;> rw [hl] at h
  case keyword k => cases k <;> cases h; simp
  all_goals cases h
  all_goals simp

theorem primary_operand (hs : s.rest = l :: ls) (ha : l.operand? = some a) (hls : Closed ls) :
    primary (n + 1) s = .ok a { s with rest := ls } := by
  have hpeek : peek s = .ok (some l.token) s := by rw [peek, hs]; rfl
  have hhere : here s = .ok l.span s := by rw [here, hs]
  have hadvance : advance s = .ok () { s with rest := ls } := by rw [advance, hs]; rfl
  refine (bind_ok hhere).trans ((bind_ok hpeek).trans ?_)
  obtain ⟨_, htoken, rfl⟩ | ⟨_, htoken, rfl⟩ | ⟨_, htoken, rfl⟩ | ⟨_, htoken, rfl⟩ | ⟨htoken, rfl⟩ :=
    operand_cases ha <;> rw [htoken] <;> refine (bind_ok hadvance).trans ?_
  · rfl
  · rfl
  · rfl
  · -- the name is not that of a call
    have heat : eat (.mark .leftParen) { s with rest := ls } = .ok false { s with rest := ls } := by
      rw [eat, bind_ok (p := peek) rfl, if_neg]
      · rfl
      intro heq
      obtain ⟨k, hk, hm⟩ := map_eq_some_iff.1 heq
      obtain ⟨m, op, hm', hop⟩ := hls k hk
      cases hm'.symm.trans hm
      cases hop
    rw [bind_ok heat]
    rfl
  · rfl

theorem unary_operand (hs : s.rest = l :: ls) (ha : l.operand? = some a) (hls : Closed ls) :
    unary (n + 2) s = .ok a { s with rest := ls } := by
  have htoken : ∀ m, l.token ≠ .mark m := by
    intro m hm
    rw [Lexeme.operand?, hm] at ha
    cases ha
  have hmark : peekMark s = .ok none s := by
    rw [peekMark_eq, hs, head?_cons, map_some]
    split
    · exact absurd (some.inj ‹_›) (htoken _)
    · rfl
  have hcast : atCast s = .ok false s := by
    rw [atCast, bind_ok (p := peekAt 1) rfl, bind_ok (p := peek) rfl, bind_ok (p := peekAt 2) rfl, hs]
    simp [htoken, pure, EStateM.pure]
  rw [unary, bind_ok (p := here) rfl, bind_ok hmark]
  show (if none = some Mark.plusPlus ∨ none = some Mark.minusMinus then _ else _ : Parser Expr) s = _
  rw [if_neg (by simp), bind_ok hcast]
  show (primary (n + 1) >>= access (n + 1)) s = _
  rw [bind_ok (primary_operand hs ha hls)]
  exact access_closed hls

/-- The first operator, if there is one, binds less strongly. -/
def Stops (least : Nat) (items : List (Expr ⊕ BinOp)) : Prop :=
  ∀ op ∈ items.head?.bind Sum.getRight?, op.strength < least

/-- What is read from an operand on: operators that bind strongly enough, as a tree. -/
def Climbs (s : State) (items before : List (Expr ⊕ BinOp)) (least : Nat)
    (r : EStateM.Result Failure State Expr) : Prop :=
  ∃ e used left rest, r = .ok e { s with rest } ∧ items = used ++ left ∧ Operations rest left ∧
    rest.length ≤ s.rest.length ∧ Stops least left ∧ e.Canonical ∧ e.Binds least ∧
    e.inorder = before ++ used

theorem operand_leaf (h : l.operand? = some a) :
    a.inorder = [.inl a] ∧ a.Canonical ∧ ∀ k, a.Binds k := by
  obtain ⟨_, -, rfl⟩ | ⟨_, -, rfl⟩ | ⟨_, -, rfl⟩ | ⟨_, -, rfl⟩ | ⟨-, rfl⟩ := operand_cases h <;>
    exact ⟨rfl, trivial, fun _ => trivial⟩

theorem binaryRest_climbs (len : Nat) : ∀ (n least : Nat) (left : Expr) (s : State)
    {items : List (Expr ⊕ BinOp)}, s.rest.length = len → Operations s.rest items → 2 * len < n →
    left.Canonical → left.Binds least →
    (∀ op ∈ items.head?.bind Sum.getRight?, left.Binds op.strength) →
    Climbs s items left.inorder least (binaryRest n least left s) := by
  induction len using Nat.strongRecOn with
  | _ len ih =>
    intro n least left s items hlen hls hn hleft hleast hnext
    obtain ⟨n, rfl⟩ : ∃ k, n = k + 1 := ⟨n - 1, by omega⟩
    have hpeek : peek s = .ok (s.rest.head?.map Lexeme.token) s := rfl
    rw [binaryRest, bind_ok hpeek]
    have hstay (hstops : Stops least items) : Climbs s items left.inorder least (.ok left s) :=
      ⟨left, [], items, s.rest, rfl, rfl, hls, Nat.le_refl _, hstops, hleft, hleast, by simp⟩
    generalize hs : s.rest = tokens at hls
    cases hls with
    | nil => exact hstay nofun
    | @cons a ls items k l m op hk hop ha hls =>
      rw [head?_cons, map_some, hk]
      dsimp only
      rw [hop]
      dsimp only
      by_cases hlt : op.strength < least
      · rw [if_pos hlt]
        exact hstay (by rintro _ ⟨⟩; exact hlt)
      · rw [if_neg hlt]
        rw [hs, length_cons, length_cons] at hlen
        obtain ⟨n, rfl⟩ : ∃ j, n = j + 3 := ⟨n - 3, by omega⟩
        obtain ⟨hitem, hcanonical, hbinds⟩ := operand_leaf ha
        have hadvance : advance s = .ok () { s with rest := l :: ls } := by rw [advance, hs]; rfl
        -- the right operand ends before an operator that binds no more strongly
        obtain ⟨right, used, items, rest, hright, rfl, hrest, hle, hstops, hr, hbr, hinorder⟩ :=
          ih ls.length (by omega) (n + 2) (op.strength + 1) a { s with rest := ls } rfl hls (by omega)
            hcanonical (hbinds _) fun _ _ => hbinds _
        have hbinary : binary (n + 3) (op.strength + 1) { s with rest := l :: ls } =
            .ok right { s with rest } := by
          rw [binary, bind_ok (unary_operand rfl ha (closed_operations hls))]
          exact hright
        rw [bind_ok hadvance, bind_ok hbinary]
        dsimp only at hle
        obtain ⟨e, used', left', rest', he, rfl, hrest', hle', hstops', hcan, hbinds', hinorder'⟩ :=
          ih rest.length (by omega) (n + 3) least (.binary op left right (left.span.merge right.span))
            { s with rest } rfl hrest (by omega) ⟨hleft, hr, hnext op rfl, hbr, rfl⟩
            (Nat.le_of_not_lt hlt) fun op' hop' => Nat.le_of_lt_succ (hstops op' hop')
        refine ⟨e, .inr op :: .inl a :: (used ++ used'), left', rest', he, by simp, hrest', ?_,
          hstops', hcan, hbinds', ?_⟩
        · rw [hs, length_cons, length_cons]
          dsimp only at hle'
          omega
        · rw [hinorder', Expr.inorder, hinorder, hitem]
          simp

/-- An expression of operands that are one token each, with operators between them, is read to the
end, and the tree that is read is the only canonical one with these operands and operators. -/
theorem expr_canonical (hs : s.rest = l :: ls) (ha : l.operand? = some a)
    (hls : Operations ls items) (hn : callsPerToken * (s.rest.length + 1) ≤ n) :
    ∃ e, expr n s = .ok e { s with rest := [] } ∧
      ∀ e' : Expr, e'.Canonical ∧ e'.inorder = .inl a :: items ↔ e' = e := by
  rw [hs, length_cons] at hn
  unfold callsPerToken at hn
  obtain ⟨n, rfl⟩ : ∃ k, n = k + 4 := ⟨n - 4, by omega⟩
  obtain ⟨hitem, hcanonical, hbinds⟩ := operand_leaf ha
  obtain ⟨e, used, left, rest, he, rfl, hrest, -, hstops, hcan, -, hinorder⟩ :=
    binaryRest_climbs ls.length (n + 2) (assignStrength + 1) a { s with rest := ls } rfl hls (by omega)
      hcanonical (hbinds _) fun _ _ => hbinds _
  -- every operator binds more strongly than an assignment
  have hend : rest = [] ∧ left = [] := by
    cases hrest with
    | nil => exact ⟨rfl, rfl⟩
    | @cons _ _ _ _ _ _ op =>
      have hlt : op.strength < assignStrength + 1 := hstops op rfl
      cases op <;> exact absurd hlt (by decide)
  obtain ⟨rfl, rfl⟩ := hend
  have hbinary : binary (n + 3) (assignStrength + 1) s = .ok e { s with rest := [] } := by
    rw [binary, bind_ok (unary_operand hs ha (closed_operations hls))]
    exact he
  rw [append_nil] at hls ⊢
  rw [hitem] at hinorder
  refine ⟨e, ?_, fun e' => ⟨fun h => Expr.eq_of_inorder h.1 hcan (h.2.trans hinorder.symm), ?_⟩⟩
  · rw [expr, bind_ok hbinary, bind_ok (peekMark_eq _)]
    rfl
  · rintro rfl
    exact ⟨hcan, hinorder⟩

def ladder : State :=
  ⟨[.integer 1, .mark .minus, .integer 2, .mark .star, .integer 3, .mark .minus, .integer 4].map
    fun t => ⟨t, default, default⟩, default, false, 0, []⟩

/-- The product is done first, and of the differences the left one. -/
theorem ladder_canonical : ∃ e, expr 128 ladder = .ok e { ladder with rest := [] } ∧
    e = .binary .sub (.binary .sub (.integer 1 default)
      (.binary .mul (.integer 2 default) (.integer 3 default) default) default)
      (.integer 4 default) default := by
  obtain ⟨e, he, hunique⟩ := expr_canonical (s := ladder) (n := 128) rfl rfl
    (.cons rfl rfl rfl (.cons rfl rfl rfl (.cons rfl rfl rfl .nil))) (by decide)
  refine ⟨e, he, ((hunique _).1 ⟨?_, rfl⟩).symm⟩
  simp only [Expr.Canonical, Expr.Binds, true_and]
  decide

end Parser

end EventScript
