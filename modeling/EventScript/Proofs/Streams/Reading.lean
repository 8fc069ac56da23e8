import EventScript.Proofs.Contents
import EventScript.Snapshot.Reader
import EventScript.Snapshot.Writer
import Mathlib.Data.Nat.Digits.Defs
import Mathlib.Tactic.Ring

/-!
# Reading what was written

Writes and a reader belong together when the reader takes exactly the bytes of the writes off what
is left, and when it is cut short by all that is less (`Reader.Carries`). Readers in a row belong to
writes in a row, so what is to be shown of a stream is shown of its parts, one part at a time. A
value that is nested deeper than its reader goes is cut short too; the condition `enough` says when
it is not.
-/

namespace EventScript

open List Chunk

/-! ## Numbers -/

namespace Bytes

theorem ofNat_length (width n : Nat) : (ofNat width n).length = width := by
  induction width generalizing n with
  | zero => rfl
  | succ width ih => simp [ofNat, ih]

theorem toNat_ofNat (h : n < 256 ^ width) : toNat (ofNat width n) = n := by
  induction width generalizing n with
  | zero => rw [pow_zero] at h; simp [ofNat, toNat]; omega
  | succ width ih =>
    have hd : n / 256 < 256 ^ width := Nat.div_lt_of_lt_mul (by rw [pow_succ'] at h; exact h)
    have hm : (UInt8.ofNat (n % 256)).toNat = n % 256 :=
      UInt8.toNat_ofNat_of_lt' (Nat.mod_lt _ (by decide))
    rw [ofNat, toNat, ih hd, hm]
    exact Nat.mod_add_div n 256

theorem split?_append (bs rest : List UInt8) : split? bs.length (bs ++ rest) = some (bs, rest) := by
  induction bs with
  | nil => rfl
  | cons b bs ih => simp [split?, ih]

theorem split?_of_length_lt (h : bs.length < n) : split? n bs = none := by
  induction n generalizing bs with
  | zero => omega
  | succ n ih =>
    cases bs with
    | nil => rfl
    | cons b bs =>
      have h' : bs.length < n := by simpa using h
      simp [split?, ih h']

end Bytes

/-! ## Texts as bytes -/

theorem toList_loop_eq : ByteArray.toList.loop bs i r = r.reverse ++ bs.data.toList.drop i := by
  fun_induction ByteArray.toList.loop bs i r with
  | case1 i r h ih =>
    have hi : i < bs.data.toList.length := by simpa using h
    rw [ih, drop_eq_getElem_cons hi]
    simp [ByteArray.get!, h]
  | case2 i r h =>
    have hi : bs.data.toList.length ≤ i := by simpa using h
    rw [drop_eq_nil_of_le hi, append_nil]

theorem byteArray_toList (bs : ByteArray) : bs.toList = bs.data.toList := by
  rw [ByteArray.toList, toList_loop_eq]; simp

theorem utf8_length (s : String) : s.toUTF8.toList.length = s.utf8ByteSize := by
  rw [byteArray_toList]; exact s.size_toByteArray

theorem fromUTF8?_toUTF8 (s : String) : String.fromUTF8? s.toUTF8.toList.toByteArray = some s := by
  have h : s.toUTF8.toList.toByteArray = s.toByteArray := by
    rw [byteArray_toList]
    apply ByteArray.ext
    simp [data_toByteArray]
  rw [h, String.fromUTF8?, dif_pos s.isValidUTF8]
  rfl

/-! ## Writes -/

def Chunk.content : Chunk → List UInt8
  | bytes bs => bs
  | stuck _ => []

def Chunk.join (cs : List Chunk) : List UInt8 := cs.flatMap content

@[simp] theorem Chunk.join_nil : Chunk.join [] = [] := rfl

@[simp] theorem Chunk.join_append (cs cs' : List Chunk) :
    Chunk.join (cs ++ cs') = Chunk.join cs ++ Chunk.join cs' := flatMap_append

@[simp] theorem Chunk.join_cons (c : Chunk) (cs : List Chunk) :
    Chunk.join (c :: cs) = c.content ++ Chunk.join cs := flatMap_cons

@[simp] theorem Tag.ofByte?_byte (t : Tag) : Tag.ofByte? t.byte = some t := by
  cases t <;> rfl

namespace Reader

/-- The reader takes the writes, all of them, for a value. A stream that ends before them is cut
short. -/
structure Carries {α : Type} (enough : Prop) (cs : List Chunk) (r : Reader α) (a : α) : Prop where
  unstuck : ∀ c ∈ cs, ∃ bs, c = .bytes bs
  whole (rest : List UInt8) : r.run (Chunk.join cs ++ rest) = .ok (a, rest) ∨
    ¬enough ∧ r.run (Chunk.join cs ++ rest) = .error .truncated
  cut (p q : List UInt8) : Chunk.join cs = p ++ q → q ≠ [] → r.run p = .error .truncated

variable {α β : Type}
  {f : α → Reader β}

/-! ## Readers in a row -/

theorem run_bind_ok (h : r.run bs = .ok (a, rest)) : (r >>= f).run bs = (f a).run rest := by
  rw [StateT.run_bind, h]; rfl

theorem run_bind_error (h : r.run bs = .error e) : (r >>= f).run bs = .error e := by
  rw [StateT.run_bind, h]; rfl

theorem Carries.pure (a : α) : Carries enough [] (pure a : Reader α) a where
  unstuck := nofun
  whole _ := .inl rfl
  cut _ _ h hq := absurd (append_eq_nil_iff.1 h.symm).2 hq

/-- Readers in a row are cut short by less than their writes if the second is. -/
theorem Carries.cut_bind (h : Carries enough cs r a)
    (h' : ∀ p q, Chunk.join cs' = p ++ q → q ≠ [] → (f a).run p = .error .truncated)
    (p q : List UInt8) (hpq : Chunk.join (cs ++ cs') = p ++ q) (hq : q ≠ []) :
    (r >>= f).run p = .error .truncated := by
  -- once the first reader has its bytes, what is left is a part of those of the second
  have later (p' : List UInt8) (hp : p = Chunk.join cs ++ p') (hpq' : Chunk.join cs' = p' ++ q) :
      (r >>= f).run p = .error .truncated := by
    rw [hp]
    obtain hr | ⟨-, hr⟩ := h.whole p'
    · rw [run_bind_ok hr]; exact h' p' q hpq' hq
    · exact run_bind_error hr
  rw [join_append, append_eq_append_iff] at hpq
  obtain ⟨p', hp, hpq'⟩ | ⟨c, hc, hq'⟩ := hpq
  · exact later p' hp hpq'
  by_cases hnil : c = []
  · subst hnil
    exact later [] (by simpa using hc.symm) (by simpa using hq'.symm)
  · exact run_bind_error (h.cut p c hc hnil)

theorem Carries.bind (h : Carries enough cs r a) (h' : Carries enough cs' (f a) b) :
    Carries enough (cs ++ cs') (r >>= f) b where
  unstuck c hc := (mem_append.1 hc).elim (h.unstuck c) (h'.unstuck c)
  whole rest := by
    rw [join_append, append_assoc]
    obtain hr | ⟨he, hr⟩ := h.whole (Chunk.join cs' ++ rest)
    · rw [run_bind_ok hr]; exact h'.whole rest
    · exact .inr ⟨he, run_bind_error hr⟩
  cut := h.cut_bind h'.cut

theorem Carries.cons (h : Carries enough [c] r a) (h' : Carries enough cs (f a) b) :
    Carries enough (c :: cs) (r >>= f) b := h.bind h'

theorem Carries.andThen (h : Carries enough cs r a) (h' : Carries enough [] (f a) b) :
    Carries enough cs (r >>= f) b := by
  simpa using h.bind h'

theorem Carries.map (g : α → β) (h : Carries enough cs r a) :
    Carries enough cs (r >>= fun x => Pure.pure (g x)) (g a) := h.andThen (.pure (g a))

theorem Carries.mono (h : Carries enough cs r a) (he : enough' → enough) :
    Carries enough' cs r a where
  unstuck := h.unstuck
  whole rest := (h.whole rest).imp_right fun ⟨hn, hr⟩ => ⟨fun h' => hn (he h'), hr⟩
  cut := h.cut

/-! ## Words -/

theorem bytes_carries (bs : List UInt8) : Carries enough [.bytes bs] (bytes bs.length) bs where
  unstuck c hc := ⟨bs, mem_singleton.1 hc⟩
  whole rest := by
    refine .inl ?_
    have h := Bytes.split?_append bs rest
    simp [Chunk.content, bytes, h]
    rfl
  cut p q h hq := by
    have hj : bs = p ++ q := by simpa [Chunk.content] using h
    have hl : p.length < bs.length := by
      rw [hj, length_append]
      have := length_pos_of_ne_nil hq
      omega
    simp [bytes, Bytes.split?_of_length_lt hl]
    rfl

theorem nat_carries (h : n < 256 ^ width) :
    Carries enough [.bytes (Bytes.ofNat width n)] (nat width) n := by
  have hb : Carries enough [.bytes (Bytes.ofNat width n)] (bytes width) (Bytes.ofNat width n) := by
    simpa only [Bytes.ofNat_length] using bytes_carries (Bytes.ofNat width n)
  have hn := hb.map Bytes.toNat
  rwa [Bytes.toNat_ofNat h] at hn

theorem byte_carries (b : UInt8) : Carries enough [.bytes [b]] byte b := by
  have hb : Bytes.ofNat 1 b.toNat = [b] := by
    simp [Bytes.ofNat, Nat.mod_eq_of_lt b.toNat_lt]
  have hlt : b.toNat < 256 ^ 1 := b.toNat_lt
  have hn : Carries enough [.bytes [b]] (nat 1) b.toNat := by
    simpa only [hb] using nat_carries hlt
  have h := hn.map UInt8.ofNat
  rwa [UInt8.ofNat_toNat] at h

theorem expect_carries (t : Tag) : Carries enough [Chunk.tag t] (expect t) () := by
  refine (byte_carries t.byte).andThen ?_
  rw [if_pos t.ofByte?_byte]
  exact .pure ()

theorem word_carries (n : Int32) : Carries enough [Chunk.word n] word n := by
  have hn : Carries enough [Chunk.word n] (nat 4) n.toUInt32.toNat := nat_carries n.toUInt32.toNat_lt
  have h := hn.map fun n => (UInt32.ofNat n).toInt32
  rwa [UInt32.ofNat_toNat, Int32.toInt32_toUInt32] at h

theorem double_carries (d : Double) : Carries enough [Chunk.double d] double d := by
  have hn : Carries enough [Chunk.double d] (nat 8) d.bits.toNat := nat_carries d.bits.toNat_lt
  have h := hn.map fun n => Double.mk (UInt64.ofNat n)
  rwa [UInt64.ofNat_toNat] at h

theorem taggedWord_carries (n : Int32) : Carries enough (Chunk.taggedWord n) taggedWord n :=
  (expect_carries .word).cons (word_carries n)

theorem count_carries (h : n < 2 ^ 31) : Carries enough [Chunk.count n] count n := by
  have hc : Chunk.count n = .bytes (Bytes.ofNat 4 n) := if_pos h
  have hi : (UInt32.ofNat n).toInt32.toInt = n := by
    rw [UInt32.toInt32_ofNat', Int32.toInt_ofNat_of_lt h]
  have hneg : ¬(UInt32.ofNat n).toInt32 < 0 := by
    rw [Int32.lt_iff_toInt_lt, hi]; simp
  have hn : Carries enough [Chunk.count n] (nat 4) n := by
    rw [hc]; exact nat_carries (by omega)
  refine (hn.map fun n => (UInt32.ofNat n).toInt32).andThen ?_
  rw [if_neg hneg, hi]
  exact .pure n

theorem text_carries (h : s.utf8ByteSize < 2 ^ 32) : Carries enough (Chunk.text s) text s := by
  have hl := utf8_length s
  have hc : Chunk.text s = [.bytes (Bytes.ofNat 4 s.toUTF8.toList.length), .bytes s.toUTF8.toList] :=
    if_pos (by rw [hl]; exact h)
  rw [hc]
  refine (nat_carries (by rw [hl]; omega)).cons ((bytes_carries _).andThen ?_)
  simp only [fromUTF8?_toUTF8]
  exact .pure s

theorem taggedText_carries (h : s.utf8ByteSize < 2 ^ 32) :
    Carries enough (Chunk.taggedText s) taggedText s :=
  (expect_carries .text).cons (text_carries h)

/-! ## Collections -/

theorem times_carries (h : ∀ a ∈ as, Carries enough (encode a) r a) :
    Carries enough (as.flatMap encode) (times r as.length) as := by
  induction as with
  | nil => exact .pure []
  | cons a as ih =>
    exact (h a mem_cons_self).bind ((ih (forall_mem_cons.1 h).2).map (a :: ·))

end Reader

theorem Chunk.values_eq (vs : List Value) : Chunk.values vs = vs.flatMap Chunk.value := by
  induction vs with
  | nil => rw [values]; rfl
  | cons v vs ih => rw [values, ih, flatMap_cons]

@[simp] theorem ArrayKey.ofValue?_toValue (k : ArrayKey) : ofValue? k.toValue = some k := by
  cases k <;> rfl

theorem Chunk.value_toValue (k : ArrayKey) : Chunk.value k.toValue = Chunk.arrayKey k := by
  cases k <;> simp only [ArrayKey.toValue, value, arrayKey]

theorem Entries.set_new {es : Entries} {k : ArrayKey} (hk : k ∉ es.map Prod.fst)
    (hv : v ≠ .undefined) : es.set k v = es ++ [(k, v)] := by
  have hu : v.isUndefined = false := by cases v <;> first | rfl | exact absurd rfl hv
  rw [set, hu, if_neg Bool.false_ne_true]
  induction es with
  | nil => rfl
  | cons e es ih =>
    rw [map_cons, mem_cons, not_or] at hk
    rw [insert, if_neg (Ne.symm hk.1), ih hk.2, cons_append]

namespace Reader

variable {α β : Type}

theorem entries_carries {read : Reader Value} {old es : Entries}
    (hnew : ((old ++ es).map Prod.fst).Nodup) (hdef : ∀ e ∈ es, e.2 ≠ .undefined)
    (hk : ∀ e ∈ es, Carries enough (Chunk.arrayKey e.1) read e.1.toValue)
    (hv : ∀ e ∈ es, Carries enough (Chunk.value e.2) read e.2) :
    Carries enough (Chunk.entries es) (entries read old es.length) (old ++ es) := by
  induction es generalizing old with
  | nil => rw [Chunk.entries, append_nil]; exact .pure old
  | cons e es ih =>
    obtain ⟨k, v⟩ := e
    refine (hk (k, v) mem_cons_self).bind ((hv (k, v) mem_cons_self).bind ?_)
    have hfresh : k ∉ old.map Prod.fst := by
      rw [map_append, nodup_append] at hnew
      exact fun hmem => hnew.2.2 _ hmem k (by simp) rfl
    have hset := Entries.set_new hfresh (hdef (k, v) mem_cons_self)
    have hrest : Carries enough (Chunk.entries es) (entries read (old.set k v) es.length)
        (old.set k v ++ es) := by
      refine ih ?_ (forall_mem_cons.1 hdef).2
        (forall_mem_cons.1 hk).2 (forall_mem_cons.1 hv).2
      rw [hset, append_assoc]; exact hnew
    rw [hset, append_assoc] at hrest
    simpa only [ArrayKey.ofValue?_toValue, hset, singleton_append] using hrest

/-! ## Values -/

theorem value_zero_carries (hne : Chunk.join cs ≠ []) (h : Carries enough cs (value 1) v) :
    Carries ((Chunk.join cs).length ≤ 0) cs (value 0) v where
  unstuck := h.unstuck
  whole _ := .inr ⟨by rwa [Nat.le_zero, length_eq_zero_iff], rfl⟩
  cut _ _ _ _ := rfl

/-- It is enough to show how values are read with a level to spare. -/
theorem tagged_carries (h : ∀ depth, Carries ((Chunk.join (Chunk.tag t :: cs)).length ≤ depth + 1)
      (Chunk.tag t :: cs) (value (depth + 1)) v) (depth : Nat) :
    Carries ((Chunk.join (Chunk.tag t :: cs)).length ≤ depth) (Chunk.tag t :: cs) (value depth)
      v := by
  cases depth with
  | zero => exact value_zero_carries (by simp [Chunk.tag, Chunk.content]) (h 0)
  | succ depth => exact h depth

theorem join_tag_length (t : Tag) (cs : List Chunk) :
    (Chunk.join (Chunk.tag t :: cs)).length = (Chunk.join cs).length + 1 := by
  simp [Chunk.tag, Chunk.content]

theorem key_carries (hk : k.Fits) (depth : Nat) :
    Carries ((Chunk.join (Chunk.arrayKey k)).length ≤ depth) (Chunk.arrayKey k) (value depth)
      k.toValue := by
  cases k with
  | integer n =>
    refine tagged_carries (fun depth => ?_) depth
    exact (byte_carries Tag.integer.byte).cons ((word_carries n).map Value.integer)
  | float d =>
    refine tagged_carries (fun depth => ?_) depth
    exact (byte_carries Tag.float.byte).cons ((double_carries d).map Value.float)
  | string s =>
    refine tagged_carries (fun depth => ?_) depth
    exact (byte_carries Tag.string.byte).cons ((text_carries hk).map Value.string)
  | key s =>
    refine tagged_carries (fun depth => ?_) depth
    exact (byte_carries Tag.key.byte).cons ((text_carries hk).map Value.key)
  | vector v =>
    refine tagged_carries (fun depth => ?_) depth
    exact (byte_carries Tag.vector.byte).cons ((double_carries v.x).cons
      ((double_carries v.y).cons ((double_carries v.z).map fun z => Value.vector ⟨v.x, v.y, z⟩)))
  | rotation q =>
    refine tagged_carries (fun depth => ?_) depth
    exact (byte_carries Tag.rotation.byte).cons ((double_carries q.x).cons
      ((double_carries q.y).cons ((double_carries q.z).cons
        ((double_carries q.s).map fun s => Value.rotation ⟨q.x, q.y, q.z, s⟩))))

theorem join_value_le (h : v ∈ vs) :
    (Chunk.join (Chunk.value v)).length ≤ (Chunk.join (Chunk.values vs)).length := by
  induction vs with
  | nil => cases h
  | cons u vs ih =>
    rw [Chunk.values, join_append, length_append]
    obtain rfl | h := mem_cons.1 h
    · omega
    · exact (ih h).trans (by omega)

theorem join_entry_le (h : e ∈ es) :
    (Chunk.join (Chunk.arrayKey e.1)).length ≤ (Chunk.join (Chunk.entries es)).length ∧
      (Chunk.join (Chunk.value e.2)).length ≤ (Chunk.join (Chunk.entries es)).length := by
  induction es with
  | nil => cases h
  | cons e' es ih =>
    rw [Chunk.entries, join_append, join_append, length_append, length_append]
    obtain rfl | h := mem_cons.1 h
    · omega
    · have := ih h
      omega

theorem value_carries (hs : v.Sized) (hp : v.Proper) (depth : Nat) :
    Carries ((Chunk.join (Chunk.value v)).length ≤ depth) (Chunk.value v) (value depth) v := by
  induction v using Value.induct generalizing depth with
  | undefined =>
    refine tagged_carries (fun depth => ?_) depth
    exact (byte_carries Tag.null.byte).cons (.pure Value.undefined)
  | bool b =>
    refine tagged_carries (fun depth => ?_) depth
    have hb : Value.bool b = .bool ((if b then 1 else 0 : UInt8) != 0) := by cases b <;> rfl
    rw [hb]
    exact (byte_carries Tag.bool.byte).cons ((byte_carries _).map fun c => Value.bool (c != 0))
  | key k =>
    rw [value_toValue]
    exact key_carries (by cases k <;> exact hs) depth
  | list vs ih =>
    rw [Chunk.value]
    refine tagged_carries (fun depth => ?_) depth
    obtain ⟨hlen, hs⟩ := Value.all_list.1 hs
    obtain ⟨-, hp⟩ := Value.all_list.1 hp
    refine (byte_carries Tag.list.byte).cons ((count_carries hlen).cons (Carries.map Value.list ?_))
    rw [Chunk.values_eq]
    refine times_carries fun v hv => (ih v hv (hs v hv) (hp v hv) depth).mono fun hle => ?_
    have hv := join_value_le hv
    rw [join_tag_length, join_cons, length_append, ← Chunk.values_eq] at hle
    omega
  | array es ih =>
    rw [Chunk.value]
    refine tagged_carries (fun depth => ?_) depth
    obtain ⟨⟨hlen, hfits⟩, hs⟩ := Value.all_array.1 hs
    obtain ⟨⟨hnd, hdef⟩, hp⟩ := Value.all_array.1 hp
    refine (byte_carries Tag.array.byte).cons
      ((count_carries hlen).cons (Carries.map Value.array ?_))
    refine @entries_carries _ _ [] es hnd hdef ?_ ?_
    · intro e he
      refine (key_carries (hfits e he) depth).mono fun h => ?_
      have he := (join_entry_le he).1
      rw [join_tag_length, join_cons, length_append] at h
      omega
    · intro e he
      refine (ih e he (hs e he) (hp e he) depth).mono fun h => ?_
      have he := (join_entry_le he).2
      rw [join_tag_length, join_cons, length_append] at h
      omega

/-- Values are read one after another, however deep they are nested. -/
theorem taggedValues_carries (hlen : vs.length < 2 ^ 31)
    (h : ∀ v ∈ vs, v.Sized ∧ v.Proper) : Carries enough (Chunk.taggedValues vs) taggedValues vs := by
  refine (expect_carries .values).cons ((count_carries hlen).cons ?_)
  -- the reader goes as deep as there are bytes left
  have hvs (depth : Nat) : Carries ((Chunk.join (Chunk.values vs)).length ≤ depth)
      (Chunk.values vs) (times (value depth) vs.length) vs := by
    rw [Chunk.values_eq]
    refine times_carries fun v hv => ?_
    refine (value_carries (h v hv).1 (h v hv).2 depth).mono fun hle => ?_
    rw [← Chunk.values_eq] at hle
    exact (join_value_le hv).trans hle
  constructor
  · exact (hvs 0).unstuck
  · intro rest
    obtain hr | ⟨hn, -⟩ := (hvs ((Chunk.join (Chunk.values vs) ++ rest).length + 1)).whole rest
    · exact .inl hr
    · rw [length_append] at hn
      omega
  · intro p q hpq hq
    exact (hvs (p.length + 1)).cut p q hpq hq

end Reader

end EventScript
