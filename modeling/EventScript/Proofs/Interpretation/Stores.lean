import EventScript.Proofs.Interpretation.Following
import EventScript.Proofs.Unwinding

/-!
# Stores and machines

The variables of an interpretation have names and those of a machine have slots. Every variable that
is in scope at a place in the code, and every one that waits for its declaration, has its value in
the slot that the code uses for it.

1. `Mirrors`: a list of variables and the slots with their values.
2. `Shows` and `Apart`: open scopes, whose variables have slots of their own.
-/

namespace EventScript.Interp

open List

open Compile Machine

/-! ## Variables and slots -/

/-- The slot of a variable holds its value. -/
structure Stored (values : List Value) (p : String × LocalVar) (q : String × Cell) : Prop where
  name : q.1 = p.1
  ty : q.2.ty = p.2.ty
  admits : p.2.ty.Admits q.2.value
  value : values[p.2.slot.toNat]? = some q.2.value

abbrev Mirrors (values : List Value) (vars : List (String × LocalVar)) (cells : Vars) : Prop :=
  List.Forall₂ (Stored values) vars cells

theorem Stored.set_other
    (h : Stored values p q) (hk : p.2.slot.toNat ≠ k) (x : Value) : Stored (values.set k x) p q :=
  { h with value := by rw [getElem?_set_ne (Ne.symm hk)]; exact h.value }

theorem mem_slots {vars : List (String × LocalVar)} (h : p ∈ vars) :
    p.2.slot.toNat ∈ vars.map fun p => p.2.slot.toNat :=
  mem_map_of_mem (f := fun p => p.2.slot.toNat) h

namespace Mirrors

variable (h : Mirrors values vars cells)

include h

theorem lookup (hv : vars.lookup name = some v) :
    ∃ y, cells.lookup name = some y ∧ Stored values (name, v) (name, y) := by
  induction h with
  | nil => cases hv
  | @cons p q vars cells hpq _ ih =>
    obtain ⟨n, u⟩ := p
    obtain ⟨n', y⟩ := q
    obtain rfl : n' = n := hpq.name
    rw [lookup_cons] at hv ⊢
    cases hn : name == n' with
    | true =>
      rw [hn] at hv
      cases hv
      obtain rfl : name = n' := eq_of_beq hn
      exact ⟨y, rfl, hpq⟩
    | false =>
      rw [hn] at hv
      exact ih hv

theorem names : cells.map Prod.fst = vars.map Prod.fst := by
  induction h with
  | nil => rfl
  | cons hpq _ ih => rw [map_cons, map_cons, hpq.name, ih]

theorem lookup_none (hv : vars.lookup name = none) : cells.lookup name = none := by
  rw [lookup_eq_none_iff, ← forall_mem_map (P := fun x => (name != x) = true)] at hv ⊢
  rwa [h.names]

theorem set_other
    (hk : ∀ p ∈ vars, p.2.slot.toNat ≠ k) (x : Value) : Mirrors (values.set k x) vars cells := by
  induction h with
  | nil => exact .nil
  | cons hpq _ ih =>
    exact .cons (hpq.set_other (hk _ mem_cons_self) x) (ih (forall_mem_cons.1 hk).2)

theorem set (hv : vars.lookup name = some v)
    (hnodup : (vars.map fun p => p.2.slot.toNat).Nodup) (hx : v.ty.Admits x) :
    Mirrors (values.set v.slot.toNat x) vars (cells.set name x) := by
  induction h with
  | nil => cases hv
  | @cons p q vars cells hpq hrest ih =>
    obtain ⟨n, u⟩ := p
    obtain ⟨n', y⟩ := q
    obtain rfl : n' = n := hpq.name
    obtain ⟨hnew, hnodup⟩ := nodup_cons.1 hnodup
    rw [lookup_cons] at hv
    unfold Vars.set
    cases hn : name == n' with
    | true =>
      rw [hn] at hv
      cases hv
      obtain rfl : name = n' := eq_of_beq hn
      rw [if_pos (beq_self_eq_true _)]
      have hslot : ∀ p ∈ vars, p.2.slot.toNat ≠ v.slot.toNat := fun p hp heq =>
        hnew (show v.slot.toNat ∈ _ from heq ▸ mem_slots hp)
      have hother := Mirrors.set_other hrest hslot x
      refine .cons ⟨rfl, hpq.ty, hx, ?_⟩ hother
      exact getElem?_set_self (List.getElem?_eq_some_iff.1 hpq.value).1
    | false =>
      rw [hn] at hv
      have hne : ¬ (n' == name) = true := fun heq => by
        rw [eq_of_beq heq, beq_self_eq_true] at hn
        cases hn
      rw [if_neg hne]
      have hslot : u.slot.toNat ≠ v.slot.toNat := fun heq =>
        hnew (show u.slot.toNat ∈ _ from heq ▸ mem_slots (mem_of_lookup hv))
      exact .cons (hpq.set_other hslot x) (ih hv hnodup)

end Mirrors

/-! ## Scopes -/

/-- The slots of the variables of a scope hold their values. -/
structure Shows (values : List Value) (scope : Compile.Scope) (x : Scope) : Prop where
  declared : Mirrors values scope.visible x.declared
  waiting : Mirrors values scope.pending.reverse x.waiting

def slotsOf (scopes : List Compile.Scope) : List Nat :=
  scopes.flatMap fun scope => (scope.visible ++ scope.pending).map fun p => p.2.slot.toNat

/-- The variables of scopes have slots of their own, below a number, and types with values. -/
structure Apart (scopes : List Compile.Scope) (n : Nat) : Prop where
  nodup : (slotsOf scopes).Nodup
  below : ∀ k ∈ slotsOf scopes, k < n
  owned : ∀ scope ∈ scopes, ∀ v ∈ scope.owned, v.slot.toNat < n
  allowed : ∀ scope ∈ scopes, ∀ p ∈ scope.visible ++ scope.pending, p.2.ty.Allowed true

theorem Apart.mono (h : Apart scopes n) (hle : n ≤ n') : Apart scopes n' where
  nodup := h.nodup
  below := fun k hk => Nat.lt_of_lt_of_le (h.below k hk) hle
  owned := fun scope hscope v hv => Nat.lt_of_lt_of_le (h.owned scope hscope v hv) hle
  allowed := h.allowed

theorem slotsOf_cons : slotsOf (scope :: scopes) =
    (scope.visible ++ scope.pending).map (fun p => p.2.slot.toNat) ++ slotsOf scopes := rfl

theorem Shows.set_other (h : Shows values scope y)
    (hk : ∀ p ∈ scope.visible ++ scope.pending, p.2.slot.toNat ≠ k) (x : Value) :
    Shows (values.set k x) scope y where
  declared := h.declared.set_other (fun p hp => hk p (mem_append_left _ hp)) x
  waiting := h.waiting.set_other
    (fun p hp => hk p (mem_append_right _ (mem_reverse.1 hp))) x

theorem shows_set_other (h : List.Forall₂ (Shows values) scopes xs) (hk : k ∉ slotsOf scopes)
    (x : Value) : List.Forall₂ (Shows (values.set k x)) scopes xs := by
  induction h with
  | nil => exact .nil
  | cons hs _ ih =>
    rw [slotsOf_cons, mem_append, not_or] at hk
    refine .cons (hs.set_other (fun p hp heq => hk.1 ?_) x) (ih hk.2)
    rw [← heq]
    exact mem_slots hp

theorem localOf?_cons : Gen.localOf? name (scope :: scopes) =
    (scope.visible.lookup name).or (Gen.localOf? name scopes) := by
  unfold Gen.localOf?
  rw [findSome?_cons]
  cases scope.visible.lookup name <;> rfl

theorem localCell?_cons : localCell? name (y :: xs) =
    (y.declared.lookup name).or (localCell? name xs) := by
  unfold localCell?
  rw [findSome?_cons]
  cases y.declared.lookup name <;> rfl

theorem localOf?_mem (h : Gen.localOf? name scopes = some v) : v.slot.toNat ∈ slotsOf scopes := by
  obtain ⟨scope, hscope, hlookup⟩ := exists_of_findSome?_eq_some h
  exact mem_flatMap.2 ⟨scope, hscope, mem_slots (mem_append_left _ (mem_of_lookup hlookup))⟩

section

variable (h : List.Forall₂ (Shows values) scopes xs)

include h

theorem shows_lookup (hv : Gen.localOf? name scopes = some v) :
    ∃ y, localCell? name xs = some y ∧ Stored values (name, v) (name, y) := by
  induction h with
  | nil => cases hv
  | @cons scope y scopes xs hs _ ih =>
    rw [localOf?_cons] at hv
    rw [localCell?_cons]
    cases hl : scope.visible.lookup name with
    | some u =>
      rw [hl] at hv
      cases hv
      obtain ⟨z, hz, hstored⟩ := hs.declared.lookup hl
      exact ⟨z, by rw [hz]; rfl, hstored⟩
    | none =>
      rw [hl] at hv
      rw [hs.declared.lookup_none hl]
      exact ih hv

theorem shows_lookup_none (hv : Gen.localOf? name scopes = none) : localCell? name xs = none := by
  induction h with
  | nil => rfl
  | @cons scope y scopes xs hs _ ih =>
    rw [localOf?_cons, Option.or_eq_none_iff] at hv
    rw [localCell?_cons, hs.declared.lookup_none hv.1]
    exact ih hv.2

theorem shows_set (hv : Gen.localOf? name scopes = some v) (hnodup : (slotsOf scopes).Nodup)
    (hx : v.ty.Admits x) : ∃ ys, setLocal? name x xs = some ys ∧
      List.Forall₂ (Shows (values.set v.slot.toNat x)) scopes ys := by
  induction h with
  | nil => cases hv
  | @cons scope y scopes xs hs hrest ih =>
    rw [slotsOf_cons, map_append] at hnodup
    obtain ⟨hscope, hscopes, hdisjoint⟩ := nodup_append.1 hnodup
    obtain ⟨hvisible, -, hpending⟩ := nodup_append.1 hscope
    rw [localOf?_cons] at hv
    unfold setLocal?
    cases hl : scope.visible.lookup name with
    | some u =>
      rw [hl] at hv
      cases hv
      obtain ⟨z, hz, -⟩ := hs.declared.lookup hl
      have hmem := mem_slots (mem_of_lookup hl)
      rw [hz, if_pos (by rfl)]
      refine ⟨_, rfl, .cons ⟨hs.declared.set hl hvisible hx, ?_⟩ ?_⟩
      · refine hs.waiting.set_other (fun p hp heq => ?_) x
        exact hpending _ hmem _ (mem_slots (mem_reverse.1 hp)) heq.symm
      · exact shows_set_other hrest (fun hk => hdisjoint _ (mem_append_left _ hmem) _ hk rfl) x
    | none =>
      rw [hl] at hv
      obtain ⟨ys, hys, hshows⟩ := ih hv hscopes
      rw [hs.declared.lookup_none hl, if_neg (by decide), hys]
      refine ⟨y :: ys, rfl, .cons (hs.set_other (fun p hp heq => ?_) x) hshows⟩
      refine hdisjoint _ ?_ _ (localOf?_mem hv) heq
      rw [← map_append]
      exact mem_slots hp

end

theorem setLocal?_none (h : localCell? name xs = none) : setLocal? name x xs = none := by
  induction xs with
  | nil => rfl
  | cons y xs ih =>
    rw [localCell?_cons, Option.or_eq_none_iff] at h
    unfold setLocal?
    rw [h.1, if_neg (by decide), ih h.2]
    rfl

end EventScript.Interp
