import EventScript.Proofs.Frames

/-!
# Arrays are maps in the order of insertion

An array is looked at through the calls that made it: pairs of a key and a value, of which those
whose key is no key are refused. Reading a key gives the value of the latest call for it, and the
entries stand in the order in which their keys came in (`Entries.replay_orderly`). A key comes in
when a call gives it a value while it has none, so an assignment to a key that is there keeps its
place and a key that was taken out comes back at the end.
-/

namespace EventScript.Entries

open List

def assign (es : Entries) (call : Value × Value) : Entries :=
  (es.setValue call.1 call.2).toOption.getD es

/-- The array that calls make of the empty one, the first call first. -/
def replay (calls : List (Value × Value)) : Entries := calls.foldl assign []

def latest (calls : List (Value × Value)) (k : ArrayKey) : Value :=
  (calls.reverse.find? (ArrayKey.ofValue? ·.1 = some k)).elim .undefined Prod.snd

/-- The call at a place gives the key a value and finds it without one. -/
def Enters (calls : List (Value × Value)) (k : ArrayKey) (i : Nat) : Prop :=
  ∃ call, calls[i]? = some call ∧ ArrayKey.ofValue? call.1 = some k ∧
    call.2.isUndefined = false ∧ (latest (calls.take i) k).isUndefined = true

/-! ## Single calls -/

variable {es : Entries} {v : Value}

theorem eq_undefined (h : v.isUndefined = true) : v = .undefined := by
  cases v <;> first | rfl | cases h

theorem replay_concat (calls : List (Value × Value)) (call : Value × Value) :
    replay (calls ++ [call]) = assign (replay calls) call := foldl_concat ..

theorem setValue_of_key (h : ArrayKey.ofValue? key = some k) :
    es.setValue key v = .ok (es.set k v) := by
  simp only [setValue, ArrayKey.ofValue, h, bind, Except.bind]
  rfl

theorem setValue_of_none (h : ArrayKey.ofValue? key = none) :
    es.setValue key v = .error (.badCast key.ty? .object) := by
  simp only [setValue, ArrayKey.ofValue, h, bind, Except.bind]

theorem keys_insert_eq (es : Entries) (k : ArrayKey) (v : Value) : (insert k v es).map Prod.fst =
    if k ∈ es.map Prod.fst then es.map Prod.fst else es.map Prod.fst ++ [k] := by
  induction es with
  | nil => rfl
  | cons e es ih =>
    unfold insert
    split
    · rename_i hk
      simp [← hk]
    · rename_i hk
      simp only [map_cons, ih, mem_cons, Ne.symm hk, false_or]
      split <;> rfl

theorem lookup_insert : (insert k v es).lookup k' = if k' = k then some v else es.lookup k' := by
  induction es with
  | nil => grind [insert]
  | cons e es ih =>
    unfold insert
    split <;> grind

theorem lookup_erase : (erase k es).lookup k' = if k' = k then none else es.lookup k' := by
  unfold erase
  induction es with
  | nil => simp
  | cons e es ih =>
    rw [filter_cons]
    split <;> grind

theorem get_set : (es.set k v).get k' = if k' = k then v else es.get k' := by
  unfold set get
  split
  · rename_i hv
    rw [lookup_erase, eq_undefined hv]
    split <;> rfl
  · rw [lookup_insert]
    split <;> rfl

theorem mem_keys_iff (h : ∀ e ∈ es, e.2.isUndefined = false) :
    k ∈ es.map Prod.fst ↔ (es.get k).isUndefined = false := by
  unfold get
  cases hl : es.lookup k with
  | none =>
    rw [lookup_eq_none_iff] at hl
    refine iff_of_false (fun hk => ?_) nofun
    obtain ⟨e, he, rfl⟩ := mem_map.1 hk
    simpa using hl e he
  | some u =>
    obtain ⟨l1, l2, rfl, -⟩ := lookup_eq_some_iff.1 hl
    exact iff_of_true (by simp) (h (k, u) (by simp))

/-! ## Calls one after another -/

theorem latest_concat : latest (calls ++ [call]) k =
      if ArrayKey.ofValue? call.1 = some k then call.2 else latest calls k := by
  unfold latest
  rw [reverse_concat, find?_cons]
  by_cases h : ArrayKey.ofValue? call.1 = some k <;> simp [h]

theorem enters_concat : Enters (calls ++ [call]) k i ↔ Enters calls k i ∨ i = calls.length ∧
      ArrayKey.ofValue? call.1 = some k ∧ call.2.isUndefined = false ∧
        (latest calls k).isUndefined = true := by
  unfold Enters
  rcases Nat.lt_trichotomy i calls.length with hi | rfl | hi
  · rw [getElem?_append_left hi, take_append_of_le_length hi.le, or_iff_left fun h => hi.ne h.1]
  · rw [getElem?_concat_length, take_left' rfl, getElem?_eq_none le_rfl]
    simp
  · rw [getElem?_eq_none (by simpa using hi), getElem?_eq_none hi.le]
    simp [hi.ne']

theorem enters_lt (h : Enters calls k i) : i < calls.length := by
  obtain ⟨_, h, -⟩ := h
  exact (List.getElem?_eq_some_iff.1 h).1

/-- A call that lets no key in leaves the places at which keys came in. -/
theorem enters_concat_iff (h : ArrayKey.ofValue? call.1 = some k →
      call.2.isUndefined = true ∨ (latest calls k).isUndefined = false) :
    {i | Enters (calls ++ [call]) k i} = {i | Enters calls k i} := by
  ext i
  refine (enters_concat ..).trans (or_iff_left ?_)
  rintro ⟨-, hk, hv, hold⟩
  rcases h hk with h | h <;> simp [h] at hv hold

/-- What calls make of an array. -/
structure Orderly (calls : List (Value × Value)) (es : Entries) : Prop where
  keys : (es.map Prod.fst).Nodup
  defined : ∀ e ∈ es, e.2.isUndefined = false
  reads : ∀ k, es.get k = latest calls k
  entered : ∀ k ∈ es.map Prod.fst, ∃ i, IsGreatest {i | Enters calls k i} i
  /-- The keys stand in the order in which they last came in. -/
  order : (es.map Prod.fst).Pairwise fun a b => ∀ i j, IsGreatest {i | Enters calls a i} i →
    IsGreatest {i | Enters calls b i} j → i < j

namespace Orderly

variable (h : Orderly calls es)

include h

theorem refuse (hkey : ArrayKey.ofValue? call.1 = none) : Orderly (calls ++ [call]) es := by
  have hplaces (k : ArrayKey) : {i | Enters (calls ++ [call]) k i} = {i | Enters calls k i} :=
    enters_concat_iff fun hk => nomatch hkey.symm.trans hk
  refine ⟨h.keys, h.defined, fun k => ?_, ?_, ?_⟩
  · rw [latest_concat, hkey, if_neg nofun, h.reads]
  · simpa only [hplaces] using h.entered
  · simpa only [hplaces] using h.order

theorem set_reads (hkey : ArrayKey.ofValue? call.1 = some k) (k' : ArrayKey) :
    (es.set k call.2).get k' = latest (calls ++ [call]) k' := by
  rw [get_set, latest_concat, hkey, h.reads]
  simp only [Option.some.injEq, eq_comm]

theorem remove (hkey : ArrayKey.ofValue? call.1 = some k) (hv : call.2.isUndefined = true) :
    Orderly (calls ++ [call]) (es.set k call.2) := by
  have hplaces (k' : ArrayKey) : {i | Enters (calls ++ [call]) k' i} = {i | Enters calls k' i} :=
    enters_concat_iff fun _ => .inl hv
  have hset : es.set k call.2 = erase k es := if_pos hv
  have hsub : (es.set k call.2).Sublist es := hset ▸ filter_sublist
  refine ⟨(hsub.map _).nodup h.keys, fun e he => h.defined e (hsub.subset he), h.set_reads hkey,
    ?_, ?_⟩
  · simpa only [hplaces] using fun k hk => h.entered k ((hsub.map _).subset hk)
  · simpa only [hplaces] using h.order.sublist (hsub.map _)

theorem place_new (hkey : ArrayKey.ofValue? call.1 = some k) (hv : call.2.isUndefined = false)
    (hk : k ∉ es.map Prod.fst) : IsGreatest {i | Enters (calls ++ [call]) k i} calls.length := by
  rw [mem_keys_iff h.defined, h.reads, Bool.not_eq_false] at hk
  refine ⟨(enters_concat ..).2 (.inr ⟨rfl, hkey, hv, hk⟩), fun i hi => Nat.le_of_lt_succ ?_⟩
  simpa using enters_lt hi

theorem put (hkey : ArrayKey.ofValue? call.1 = some k) (hv : call.2.isUndefined = false) :
    Orderly (calls ++ [call]) (es.set k call.2) := by
  have hset : es.set k call.2 = insert k call.2 es := if_neg (by simp [hv])
  obtain ⟨hnodup, hmem⟩ := @keys_insert k call.2 es h.keys
  have hdefined : ∀ e ∈ es.set k call.2, e.2.isUndefined = false := fun e he => by
    rw [hset] at he
    rcases hmem e he with rfl | he
    · exact hv
    · exact h.defined e he
  have hold (k' : ArrayKey) (hk : k' ∈ es.map Prod.fst) :
      {i | Enters (calls ++ [call]) k' i} = {i | Enters calls k' i} :=
    enters_concat_iff fun _ => .inr (h.reads k' ▸ (mem_keys_iff h.defined).1 hk)
  have horder : (es.map Prod.fst).Pairwise fun a b => ∀ i j,
      IsGreatest {i | Enters (calls ++ [call]) a i} i →
      IsGreatest {i | Enters (calls ++ [call]) b i} j → i < j :=
    h.order.imp_of_mem fun ha hb hab i j hi hj => hab i j (hold _ ha ▸ hi) (hold _ hb ▸ hj)
  have hkeys := keys_insert_eq es k call.2
  rw [← hset] at hkeys hnodup
  refine ⟨hnodup, hdefined, h.set_reads hkey, ?_, ?_⟩ <;> rw [hkeys] <;> split
  · exact fun k' hk => hold k' hk ▸ h.entered k' hk
  · rename_i hk
    intro k' hk'
    rcases mem_append.1 hk' with hk' | hk'
    · exact hold k' hk' ▸ h.entered k' hk'
    · exact ⟨_, mem_singleton.1 hk' ▸ h.place_new hkey hv hk⟩
  · exact horder
  · rename_i hk
    refine pairwise_append.2 ⟨horder, pairwise_singleton .., fun a ha b hb i j hi hj => ?_⟩
    rw [mem_singleton.1 hb] at hj
    rw [hj.unique (h.place_new hkey hv hk)]
    exact enters_lt (hold a ha ▸ hi).1

theorem assign (call : Value × Value) : Orderly (calls ++ [call]) (es.assign call) := by
  unfold Entries.assign
  cases hkey : ArrayKey.ofValue? call.1 with
  | none => rw [setValue_of_none hkey]; exact h.refuse hkey
  | some k =>
    rw [setValue_of_key hkey]
    cases hv : call.2.isUndefined with
    | true => exact h.remove hkey hv
    | false => exact h.put hkey hv

end Orderly

theorem orderly_replay (calls : List (Value × Value)) : Orderly calls (replay calls) := by
  induction calls using reverseRecOn with
  | nil => exact ⟨nodup_nil, nofun, fun _ => rfl, nofun, .nil⟩
  | append_singleton calls call ih => exact replay_concat calls call ▸ ih.assign call

/-- The entries of an array make it anew. -/
theorem replay_self (hkeys : (es.map Prod.fst).Nodup)
    (hdefined : ∀ e ∈ es, e.2.isUndefined = false) :
    replay (es.map fun e => (e.1.toValue, e.2)) = es := by
  induction es using reverseRecOn with
  | nil => rfl
  | append_singleton es e ih =>
    rw [map_append, nodup_append] at hkeys
    have hnew : e.1 ∉ es.map Prod.fst := fun hmem => hkeys.2.2 _ hmem _ mem_cons_self rfl
    have hv : e.2 ≠ .undefined := fun heq => by
      simpa [heq, Value.isUndefined] using hdefined e (by simp)
    rw [map_append, map_singleton, replay_concat,
      ih hkeys.1 fun e he => hdefined e (mem_append_left _ he)]
    unfold Entries.assign
    rw [setValue_of_key (ArrayKey.ofValue?_toValue e.1)]
    exact set_new hnew hv

theorem getValue_keyAt (hkeys : (es.map Prod.fst).Nodup) (n : Int32) (hn : 0 ≤ n.toInt)
    (hlt : n.toInt < es.length) : es.getValue (es.keyAt n) = .ok (es.valueAt n) := by
  have hat : es.at? n = es[n.toInt.toNat]? := if_neg (by omega)
  have hi : n.toInt.toNat < es.length := by omega
  unfold keyAt valueAt
  rw [hat, getElem?_eq_getElem hi]
  generalize hsplit : es[n.toInt.toNat] = e
  have hmem : e ∈ es := hsplit ▸ getElem_mem hi
  have hlookup : es.lookup e.1 = some e.2 := by
    cases hl : es.lookup e.1 with
    | none => simpa using lookup_eq_none_iff.1 hl e hmem
    | some u =>
      obtain ⟨l1, l2, heq, -⟩ := lookup_eq_some_iff.1 hl
      have hu : (e.1, u) ∈ es := by simp [heq]
      rw [← inj_on_of_nodup_map hkeys hu hmem rfl]
  simp [getValue, ArrayKey.ofValue, get, hlookup, bind, Except.bind, pure, Except.pure]

theorem ofValue?_iff (key : Value) (k : ArrayKey) : ArrayKey.ofValue? key = some k ↔
    key = k.toValue ∨ ∃ b : Bool, key = .bool b ∧ k = .integer (if b then 1 else 0) := by
  constructor
  · intro h
    cases key <;> cases h <;> first | exact .inl rfl | exact .inr ⟨_, rfl, rfl⟩
  · rintro (rfl | ⟨b, rfl, rfl⟩)
    · exact ArrayKey.ofValue?_toValue k
    · rfl

/-- The array that calls make is a map in the order of insertion. Truth values are two of the
integers as keys; other values are the same key just if they are the same. -/
theorem replay_orderly (calls : List (Value × Value)) :
    Orderly calls (replay calls) ∧
    (∀ key k, ArrayKey.ofValue? key = some k ↔
      key = k.toValue ∨ ∃ b : Bool, key = .bool b ∧ k = .integer (if b then 1 else 0)) ∧
    (∀ key k, ArrayKey.ofValue? key = some k → (replay calls).getValue key = .ok (latest calls k)) ∧
    (∀ k, k ∈ (replay calls).map Prod.fst ↔ (latest calls k).isUndefined = false) ∧
    (∀ n : Int32, 0 ≤ n.toInt → n.toInt < (replay calls).length →
      (replay calls).getValue ((replay calls).keyAt n) = .ok ((replay calls).valueAt n)) ∧
    (∀ key v, key.ty ∈ [Ty.list, .array, .object] →
      (replay calls).setValue key v = .error (.badCast key.ty? .object) ∧
        replay (calls ++ [(key, v)]) = replay calls) ∧
    (∀ key v, key.ty ∉ [Ty.list, .array, .object] →
      (replay calls).setValue key v = .ok (replay (calls ++ [(key, v)]))) ∧
    replay ((replay calls).map fun e => (e.1.toValue, e.2)) = replay calls := by
  have h := orderly_replay calls
  refine ⟨h, ofValue?_iff, fun key k hkey => ?_, fun k => ?_, getValue_keyAt h.keys,
    fun key v hty => ?_, fun key v hty => ?_, replay_self h.keys h.defined⟩
  · simp only [getValue, ArrayKey.ofValue, hkey, ← h.reads]
    rfl
  · rw [mem_keys_iff h.defined, h.reads]
  · have hkey : ArrayKey.ofValue? key = none := by
      cases key <;> first | rfl | exact absurd hty (by dsimp only [Value.ty]; decide)
    refine ⟨setValue_of_none hkey, ?_⟩
    rw [replay_concat, Entries.assign, setValue_of_none hkey]
    rfl
  · obtain ⟨k, hkey⟩ : ∃ k, ArrayKey.ofValue? key = some k := by
      cases key <;> first | exact ⟨_, rfl⟩ | exact absurd hty (by dsimp only [Value.ty]; decide)
    rw [replay_concat, Entries.assign, setValue_of_key hkey]
    rfl

end EventScript.Entries
