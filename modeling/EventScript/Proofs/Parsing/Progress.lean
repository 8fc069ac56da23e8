import EventScript.Proofs.Parsing

/-!
# The end of reading

Reading ends whatever the tokens are (`Parser.ofTokens_ends`). The numbers of calls and turns that it
is given are never used up, so that it has a result, every turn of a loop leaves fewer tokens than it
found, even after an error, and a script is returned only if all tokens are used and nothing is
recorded. Its states stand in the order of their declarations (`Parser.ofTokens_declares`).
-/

namespace EventScript

namespace Parser

def Supply.any (arrays : Bool) : Supply := ⟨arrays, fun _ => True⟩

theorem any_exprLaw : ExprLaw (.any arrays) fun _ => True := by
  constructor <;> intros <;> trivial

theorem any_stmtLaw : StmtLaw (.any arrays) (fun _ => True) (fun _ => True) fun _ _ => True := by
  constructor <;> intros <;> trivial

variable {s : State} {l : Lexeme} {ls : List Lexeme}

theorem State.at_any (h : s.rest = l :: ls) :
    s.At (.any s.arrays) s.nextBlock (ls.length + 1) (some l.token) :=
  ⟨rfl, fun _ _ => trivial, rfl, by rw [h]; rfl, by rw [State.next, h]; rfl⟩

theorem State.Follows.tail (h : s.Follows s') (hs : s.rest = l :: ls)
    (hlt : s'.rest.length < ls.length + 1) : s'.rest <:+ ls := by
  have hsuffix := h.rest
  rw [hs] at hsuffix
  rcases List.suffix_cons_iff.1 hsuffix with heq | hsuffix
  · rw [heq] at hlt
    exact absurd hlt (Nat.lt_irrefl _)
  · exact hsuffix

theorem itemInto_ok (hs : s.rest = l :: ls) (hcalls : 8 * (ls.length + 1) < calls) :
    ∃ found' s', itemInto calls found s = .ok found' s' := by
  have h := (item_yields any_exprLaw any_stmtLaw hcalls s (State.at_any hs)).2
  rw [itemInto_eq]
  cases hr : item calls s with
  | ok i s' =>
    dsimp only
    cases found.add i with
    | ok found' => exact ⟨found', s', rfl⟩
    | error e => exact ⟨found, _, rfl⟩
  | error e s' =>
    rw [hr] at h
    obtain ⟨⟨d, rfl⟩, -⟩ := h
    exact ⟨found, _, rfl⟩

theorem itemInto_further (hs : s.rest = l :: ls) (hcalls : 8 * s.rest.length < calls) :
    ∃ found' s', itemInto calls found s = .ok found' s' ∧ s.Follows s' ∧ s'.rest <:+ ls := by
  rw [hs] at hcalls
  obtain ⟨found', s', h⟩ := itemInto_ok hs hcalls
  have hy := (itemInto_yields any_exprLaw any_stmtLaw hcalls le_rfl found s (State.at_any hs)).2
  rw [h] at hy
  exact ⟨found', s', h, hy.1, hy.1.tail hs hy.2.1⟩

theorem items_cons (hs : s.rest = l :: ls) (h : itemInto calls found s = .ok found' s') :
    items calls (turns + 1) found s = items calls turns found' s' := by
  rw [items]
  show EStateM.bind peek _ s = _
  unfold EStateM.bind
  dsimp only [peek]
  rw [hs]
  show EStateM.bind (itemInto calls found) _ s = _
  unfold EStateM.bind
  rw [h]

theorem items_ok (found : Found) (hcalls : 8 * s.rest.length < calls)
    (hturns : s.rest.length < turns) : ∃ found' s', items calls turns found s = .ok found' s' := by
  induction turns generalizing found s with
  | zero => exact absurd hturns (Nat.not_lt_zero _)
  | succ turns ih =>
    cases hs : s.rest with
    | nil => exact ⟨found, s, items_end hs⟩
    | cons l ls =>
      obtain ⟨found1, s1, h1, -, hsuffix⟩ := itemInto_further hs hcalls
      have hlength := hsuffix.length_le
      rw [hs, List.length_cons] at hcalls hturns
      rw [items_cons hs h1]
      exact ih found1 (by omega) (by omega)

theorem blockItems_eq (hs : s.rest = l :: ls) (hl : l.token ≠ .mark .rightBrace) :
    blockItems (k + 1) hoisted s = (do
      match ← attempt (blockItem k hoisted l.token) with
      | .ok x => return x :: (← blockItems k (hoisted || x.endsDeclarations))
      | .error d =>
        recover d
        blockItems k hoisted) s := by
  conv_lhs => unfold blockItems
  show EStateM.bind peek _ s = _
  unfold EStateM.bind
  dsimp only [peek]
  rw [hs, List.head?_cons, Option.map_some]
  generalize l.token = x at hl
  cases x with
  | mark m =>
    cases m with
    | rightBrace => exact absurd rfl hl
    | _ => rfl
  | _ => rfl

theorem blockItems_further (hs : s.rest = l :: ls)
    (hl : l.token ≠ .mark .rightBrace) (hk : 8 * s.rest.length + 6 < k) :
    match blockItem k hoisted l.token s with
    | .ok x s' => s'.rest <:+ ls ∧ blockItems (k + 1) hoisted s =
        ((x :: ·) <$> blockItems k (hoisted || x.endsDeclarations)) s'
    | .error (.wrong d) s' => toStatementEnd s'.rest <:+ ls ∧ blockItems (k + 1) hoisted s =
        blockItems k hoisted { s' with rest := toStatementEnd s'.rest, errors := d :: s'.errors }
    | .error .exhausted _ => False := by
  rw [blockItems_eq hs hl]
  change match blockItem k hoisted l.token s with
    | .ok x s' => _ ∧ EStateM.bind (attempt (blockItem k hoisted l.token)) _ s = _
    | .error (.wrong d) s' => _ ∧ EStateM.bind (attempt (blockItem k hoisted l.token)) _ s = _
    | .error .exhausted _ => False
  unfold EStateM.bind attempt
  rw [hs] at hk
  have hy := ((stmts_hold any_exprLaw any_stmtLaw k).blockItem hk hoisted
    l.token s (State.at_any hs)).2
  cases h : blockItem k hoisted l.token s with
  | ok x s' =>
    rw [h] at hy
    exact ⟨hy.1.tail hs hy.2.1, rfl⟩
  | error d s' =>
    rw [h] at hy
    obtain ⟨⟨_, rfl⟩, hy⟩ := hy
    refine ⟨?_, rfl⟩
    rcases hy.moved with hlt | heq
    · exact (toStatementEnd_suffix _).trans (hy.tail hs (by rwa [hs] at hlt))
    -- the item has used no token, so that the next one is skipped
    rw [heq, hs]
    unfold toStatementEnd
    split
    · exact List.suffix_refl _
    · exact toStatementEnd_suffix _

theorem blockItems_stop (h : s.next = none ∨ s.next = some (.mark .rightBrace)) :
    blockItems (k + 1) hoisted s = .ok [] s := by
  unfold blockItems
  show EStateM.bind peek _ s = _
  unfold EStateM.bind
  dsimp only [peek]
  rw [State.next] at h
  rcases h with h | h <;> rw [h] <;> rfl

theorem calls_suffice (n : Nat) : 8 * n < callsPerToken * (n + 1) := by
  unfold callsPerToken
  omega

theorem items_returns : ∃ found s, s.rest = [] ∧
    ∀ calls turns, callsPerToken * (t.lexemes.length + 1) ≤ calls → t.lexemes.length < turns →
      items calls turns {} (.init t) = .ok found s := by
  have henough := calls_suffice t.lexemes.length
  have hy (calls turns : Nat) (hcalls : callsPerToken * (t.lexemes.length + 1) ≤ calls)
      (hturns : t.lexemes.length < turns) : Yields (.any t.arrays) 0 t.lexemes.length
        (State.init t).next (items (callsPerToken * (t.lexemes.length + 1)) (t.lexemes.length + 1) {})
        (items calls turns {}) fun _ b' _ found =>
          b' = 0 ∧ IsFound (.any t.arrays) (fun _ => True) (fun _ _ => True) found :=
    items_yields any_exprLaw any_stmtLaw henough hcalls (Nat.lt_succ_self _) hturns .empty
  have hat : (State.init t).At (.any t.arrays) 0 t.lexemes.length (State.init t).next :=
    State.init_at rfl fun _ _ => trivial
  obtain ⟨found, s, h⟩ :=
    items_ok {} (s := .init t) henough (show _ < t.lexemes.length + 1 from Nat.lt_succ_self _)
  have hend := (hy _ _ le_rfl (Nat.lt_succ_self _) _ hat).2
  rw [h] at hend
  refine ⟨found, s, List.eq_nil_of_length_eq_zero hend.2.1, fun calls turns hcalls hturns => ?_⟩
  rw [(hy calls turns hcalls hturns _ hat).1, h]

/-- Whatever the tokens are, the calls suffice. -/
theorem ofTokens?_eq (t : TokenStream) : Script.ofTokens? t = some (Script.ofTokens t) := by
  have hsome : (Script.ofTokens? t).isSome := by
    have hs := (script_yields any_exprLaw any_stmtLaw rfl _
      (State.init_at (G := .any t.arrays) rfl fun _ _ => trivial)).2
    unfold Script.ofTokens?
    split
    · split <;> rfl
    · rfl
    · rfl
    · rename_i heq
      change Parser.script t (.init t) = _ at heq
      rw [heq] at hs
      obtain ⟨⟨_, h⟩, -⟩ := hs
      cases h
  obtain ⟨r, hr⟩ := Option.isSome_iff_exists.1 hsome
  rw [Script.ofTokens, hr]
  rfl

/-- Reading ends: it has a result. With no fewer calls and turns than are given, the declarations are
read to the end of the tokens, with one result. A turn of the loop over declarations and a turn of the
loop over the items of a block go on behind the token that they start at, also after an error; the
latter stops at a brace and at the end. A script is returned only if no token is left and no error is
recorded. -/
theorem ofTokens_ends (t : TokenStream) :
    Script.ofTokens? t = some (Script.ofTokens t) ∧
    (∃ found s, s.rest = [] ∧ ∀ calls turns, callsPerToken * (t.lexemes.length + 1) ≤ calls →
      t.lexemes.length < turns → items calls turns {} (.init t) = .ok found s) ∧
    (∀ {s : State} {calls l ls} found, s.rest = l :: ls → callsPerToken * s.rest.length ≤ calls →
      ∃ found' s', itemInto calls found s = .ok found' s' ∧ s'.rest <:+ ls) ∧
    (∀ {s : State} {calls l ls} hoisted, s.rest = l :: ls → l.token ≠ .mark .rightBrace →
      callsPerToken * s.rest.length ≤ calls →
      match blockItem calls hoisted l.token s with
      | .ok x s' => s'.rest <:+ ls ∧ blockItems (calls + 1) hoisted s =
          ((x :: ·) <$> blockItems calls (hoisted || x.endsDeclarations)) s'
      | .error (.wrong d) s' => toStatementEnd s'.rest <:+ ls ∧ blockItems (calls + 1) hoisted s =
          blockItems calls hoisted
            { s' with rest := toStatementEnd s'.rest, errors := d :: s'.errors }
      | .error .exhausted _ => False) ∧
    (∀ {s : State} calls hoisted, s.next = none ∨ s.next = some (.mark .rightBrace) →
      blockItems (calls + 1) hoisted s = .ok [] s) ∧
    ∀ script, Script.ofTokens t = .ok script →
      ∃ s, Parser.script t (.init t) = .ok (some script) s ∧ s.rest = [] ∧ s.errors = [] := by
  have hpos {s : State} {l ls} (hs : s.rest = l :: ls) : 0 < s.rest.length := by
    rw [hs]
    exact Nat.succ_pos _
  refine ⟨ofTokens?_eq t, items_returns, fun found hs hcalls => ?_, fun hoisted hs hl hcalls => ?_,
    fun calls hoisted => blockItems_stop, fun script h => ?_⟩
  · have := hpos hs
    exact (itemInto_further hs (by unfold callsPerToken at hcalls; omega)).imp
      fun _ h => h.imp fun _ h => ⟨h.1, h.2.2⟩
  · have := hpos hs
    exact blockItems_further hs hl (by unfold callsPerToken at hcalls; omega)
  · exact (Script.ofTokens_found any_exprLaw any_stmtLaw rfl
      (fun _ _ => trivial) h).2

def strayBrace : TokenStream := ⟨[⟨.mark .rightBrace, ⟨0, 1⟩, ⟨1, 1⟩⟩], (1, ⟨1, 2⟩), false⟩

theorem strayBrace_skipped : ∃ found s, itemInto callsPerToken {} (.init strayBrace) = .ok found s ∧
    s.rest <:+ [] :=
  (ofTokens_ends strayBrace).2.2.1 {} rfl (by decide)

/-! ## Declarations in their order -/

/-- The tokens are read as the declarations, one after the other. -/
inductive Declares : State → List Item → Prop
  | nil {s : State} : s.rest = [] → Declares s []
  | cons {s : State} : item calls s = .ok i s' → Declares s' is → Declares s (i :: is)

def Item.state? : Item → Option StateDecl
  | .state s => some s
  | _ => none

theorem items_declares (hcalls : 8 * s.rest.length < calls) (hturns : s.rest.length < turns)
    (h : items calls turns found s = .ok found' s') : s.errors <:+ s'.errors ∧
      (s'.errors = [] → ∃ is, Declares s is ∧ is.foldlM Found.add found = .ok found') := by
  induction turns generalizing found s with
  | zero => exact absurd hturns (Nat.not_lt_zero _)
  | succ turns ih =>
    cases hs : s.rest with
    | nil =>
      rw [items_end hs] at h
      cases h
      exact ⟨List.suffix_refl _, fun _ => ⟨[], .nil hs, rfl⟩⟩
    | cons l ls =>
      obtain ⟨found1, s1, h1, hfollows, hsuffix⟩ := itemInto_further hs hcalls
      have hlength := hsuffix.length_le
      rw [items_cons hs h1] at h
      rw [hs, List.length_cons] at hcalls hturns
      obtain ⟨herrors, hread⟩ := ih (by omega) (by omega) h
      refine ⟨hfollows.errors.trans herrors, fun he => ?_⟩
      obtain ⟨is, hdeclares, hadd⟩ := hread he
      have he1 : s1.errors = [] := List.suffix_nil.1 (he ▸ herrors)
      rw [itemInto_eq] at h1
      -- a declaration that is not taken in is on record
      cases hi : item calls s with
      | ok i s2 =>
        rw [hi] at h1
        dsimp only at h1
        cases ha : found.add i with
        | ok found2 =>
          rw [ha] at h1
          cases h1
          exact ⟨i :: is, .cons hi hdeclares, by rw [List.foldlM_cons, ha]; exact hadd⟩
        | error e => rw [ha] at h1; cases h1; cases he1
      | error e s2 => cases e <;> rw [hi] at h1 <;> cases h1; cases he1

theorem Found.of_foldlM {is : List Item} (h : is.foldlM Found.add found = .ok found') :
    found'.states = (is.filterMap Item.state?).reverse ++ found.states ∧
    ∀ d ∈ found'.defaultState, d ∈ found.defaultState ∨ .defaultState d ∈ is := by
  induction is generalizing found with
  | nil => cases h; exact ⟨rfl, fun d hd => .inl hd⟩
  | cons i is ih =>
    rw [List.foldlM_cons] at h
    cases ha : found.add i with
    | error e => rw [ha] at h; cases h
    | ok found1 =>
      rw [ha] at h
      obtain ⟨hstates, hdefault⟩ := ih h
      cases i <;> simp only [Found.add] at ha <;> grind [Item.state?]

/-- The declarations of a script are read one after the other. The default state comes first, the
others stand as they are declared. -/
theorem ofTokens_declares {script : Script} (h : Script.ofTokens t = .ok script) :
    ∃ d is, Declares (.init t) is ∧ .defaultState d ∈ is ∧
      script.states = d :: is.filterMap Item.state? := by
  obtain ⟨-, s, hscript, -, herrors⟩ :=
    Script.ofTokens_found any_exprLaw any_stmtLaw rfl (fun _ _ => trivial) h
  obtain ⟨found, s', -, hitems⟩ := items_returns (t := t)
  have hitems := hitems _ _ le_rfl (Nat.lt_succ_self _)
  change EStateM.bind (items _ _ {}) _ _ = _ at hscript
  rw [EStateM.bind, hitems] at hscript
  dsimp only at hscript
  cases hd : found.defaultState with
  | none => rw [hd] at hscript; cases hscript
  | some d =>
    rw [hd] at hscript
    cases hscript
    obtain ⟨-, hread⟩ := items_declares (s := .init t) (calls_suffice t.lexemes.length)
      (Nat.lt_succ_self _) hitems
    obtain ⟨is, hdeclares, hadd⟩ := hread herrors
    obtain ⟨hstates, hdefault⟩ := Found.of_foldlM hadd
    refine ⟨d, is, hdeclares, (hdefault d hd).resolve_left nofun, ?_⟩
    simp [hstates]

end Parser

end EventScript
