import EventScript.Proofs.Frames
import EventScript.Proofs.Streams.Sending

/-!
# Streams from elsewhere

A stream need not have been written by an instance. Whatever its bytes are, what is read from it is
a snapshot of an instance of the module (`Snapshot.ofBytes_consistent`), of which another stream can
be written that is read back (`Snapshot.decoding_normal`).

1. A reader that succeeds gives something with a property and takes a number of bytes at least
   (`Reader.Gives`); readers in a row add their bytes up.
2. Every value takes a byte, so no declared count makes a reader go on without bytes, and the bound
   on nesting is never met, since there are too few bytes for it (`Reader.taggedValues_eq`).
3. Elements of an array are put in one after the other, so its keys differ whatever the stream says
   (`Reader.entries_gives`).
-/

namespace EventScript

open List Value

theorem Bytes.split?_eq_some
    (h : split? n bs = some (first, rest)) : first.length = n ∧ bs = first ++ rest := by
  induction n generalizing bs first with
  | zero => cases h; exact ⟨rfl, rfl⟩
  | succ n ih =>
    cases bs with
    | nil => cases h
    | cons b bs =>
      obtain ⟨⟨first', rest'⟩, hs, heq⟩ := Option.map_eq_some_iff.1 h
      cases heq
      obtain ⟨hlen, rfl⟩ := ih hs
      exact ⟨congrArg (· + 1) hlen, rfl⟩

theorem Bytes.toNat_lt (bs : List UInt8) : toNat bs < 256 ^ bs.length := by
  induction bs with
  | nil => decide
  | cons b bs ih =>
    have hb := b.toNat_lt
    rw [toNat, length_cons, pow_succ']
    omega

theorem utf8ByteSize_of_fromUTF8? {bs : List UInt8} (h : String.fromUTF8? bs.toByteArray = some s) :
    s.utf8ByteSize = bs.length := by
  unfold String.fromUTF8? at h
  split at h
  · cases h
    simp [String.fromUTF8]
  · cases h

namespace Reader

variable {α : Type}

/-- What the reader gives has a property, and the reader takes at least `k` bytes for it. -/
def Gives (k : Nat) (r : Reader α) (P : α → Prop) : Prop :=
  ∀ bs a rest, r.run bs = .ok (a, rest) → P a ∧ rest.length + k ≤ bs.length

/-! ## Readers in a row -/

theorem Gives.mono (h : Gives k r P) (hk : l ≤ k) (hP : ∀ a, P a → P' a) : Gives l r P' := by
  intro bs a rest hrun
  obtain ⟨ha, hlen⟩ := h bs a rest hrun
  exact ⟨hP a ha, by omega⟩

theorem Gives.few (h : Gives k r P) : Gives 0 r P := h.mono (Nat.zero_le k) fun _ h => h

theorem Gives.pure (h : P a) : Gives 0 (Pure.pure a : Reader α) P := by
  intro bs b rest hrun
  cases hrun
  exact ⟨h, le_rfl⟩

theorem Gives.throw (e : StreamError) : Gives k (throw e : Reader α) P := fun _ _ _ h => by cases h

theorem Gives.bind (h : Gives k r P) (h' : ∀ a, P a → Gives l (f a) Q) :
    Gives (k + l) (r >>= f) Q := by
  intro bs b rest hrun
  cases hr : r.run bs with
  | error e => rw [run_bind_error hr] at hrun; cases hrun
  | ok x =>
    obtain ⟨a, left⟩ := x
    rw [run_bind_ok hr] at hrun
    obtain ⟨ha, hlen⟩ := h bs a left hr
    obtain ⟨hb, hlen'⟩ := h' a ha left b rest hrun
    exact ⟨hb, by omega⟩

theorem Gives.map {g : α → β} (h : Gives k r P) (h' : ∀ a, P a → Q (g a)) :
    Gives k (r >>= fun a => Pure.pure (g a)) Q :=
  h.bind fun a ha => .pure (h' a ha)

/-! ## Words -/

theorem bytes_gives : Gives n (bytes n) fun bs => bs.length = n := by
  intro bs a rest hrun
  simp only [bytes, StateT.run_bind, StateT.run_get] at hrun
  cases hs : Bytes.split? n bs with
  | none =>
    simp [hs] at hrun
    cases hrun
  | some x =>
    obtain ⟨first, left⟩ := x
    simp [hs] at hrun
    cases hrun
    obtain ⟨hlen, rfl⟩ := Bytes.split?_eq_some hs
    exact ⟨hlen, by rw [length_append]; omega⟩

theorem nat_gives : Gives width (nat width) (· < 256 ^ width) :=
  (bytes_gives).map fun bs hbs => hbs ▸ Bytes.toNat_lt bs

theorem byte_gives : Gives 1 byte fun _ => True := (nat_gives).map fun _ _ => trivial

theorem word_gives : Gives 4 word fun _ => True := (nat_gives).map fun _ _ => trivial

theorem double_gives : Gives 8 double fun _ => True := (nat_gives).map fun _ _ => trivial

theorem single_gives : Gives 4 single fun _ => True := (nat_gives).map fun _ _ => trivial

theorem text_gives : Gives 4 text fun s => s.utf8ByteSize < 2 ^ 32 := by
  refine (nat_gives).bind (l := 0) fun n hn => ?_
  refine ((bytes_gives).bind (l := 0)
    fun bs hbs => ?_).mono (Nat.zero_le _) fun _ h => h
  cases hs : String.fromUTF8? bs.toByteArray with
  | none => exact .throw _
  | some s =>
    refine .pure ?_
    rw [utf8ByteSize_of_fromUTF8? hs, hbs]
    exact hn

theorem count_gives : Gives 4 count (· < 2 ^ 31) := by
  refine (word_gives).bind (l := 0) fun n _ => ?_
  split
  · exact .throw _
  refine .pure ?_
  have := n.toInt_lt
  omega

theorem expect_gives : Gives 1 (expect t) fun _ => True := by
  refine (byte_gives).bind (l := 0) fun b _ => ?_
  split
  · exact .pure trivial
  · exact .throw _

theorem taggedWord_gives : Gives 5 taggedWord fun _ => True :=
  (expect_gives).bind fun _ _ => word_gives

theorem taggedText_gives : Gives 5 taggedText fun _ => True :=
  (expect_gives).bind fun _ _ => (text_gives).mono le_rfl fun _ _ => trivial

/-! ## Collections -/

theorem times_gives (h : Gives 1 r P) :
    Gives n (times r n) fun as => as.length = n ∧ ∀ a ∈ as, P a := by
  induction n with
  | zero => exact .pure ⟨rfl, nofun⟩
  | succ n ih =>
    have hcons := h.bind fun a ha => ih.map
      (Q := fun as => as.length = n + 1 ∧ ∀ a ∈ as, P a) fun as has =>
        ⟨congrArg (· + 1) has.1, forall_mem_cons.2 ⟨ha, has.2⟩⟩
    exact hcons.mono (by omega) fun _ h => h

end Reader

/-! ## Arrays -/

theorem ArrayKey.fits_of_ofValue? (h : ofValue? v = some k) (hv : v.Sized) : k.Fits := by
  cases v <;> cases h <;> exact hv

namespace Entries

theorem length_insert : (insert k v es).length ≤ es.length + 1 := by
  induction es with
  | nil => exact le_rfl
  | cons e es ih =>
    unfold insert
    split
    · exact Nat.le_succ _
    · exact Nat.succ_le_succ ih

theorem length_set (es : Entries) (k : ArrayKey) (v : Value) :
    (es.set k v).length ≤ es.length + 1 := by
  unfold set
  split
  · exact (length_filter_le ..).trans (Nat.le_succ _)
  · exact length_insert

theorem mem_set {es : Entries} (hes : (es.map Prod.fst).Nodup) (h : e ∈ es.set k v) : e = (k, v) ∨ e
    ∈ es := by
  unfold set at h
  split at h
  · exact .inr (mem_filter.1 h).1
  · exact (keys_insert hes).2 e h

end Entries

namespace Value

theorem sized_list : (list vs).Sized ↔ vs.length < 2 ^ 31 ∧ ∀ v ∈ vs, v.Sized := all_list

theorem sized_array : (array es).Sized ↔ es.length < 2 ^ 31 ∧ ∀ e ∈ es, e.1.Fits ∧ e.2.Sized := by
  unfold Sized
  rw [all_array, forall₂_and]
  exact and_assoc

end Value

namespace Reader

variable {α : Type}

/-- The values that are read: all arrays in them are maps, and they can be written. -/
def Sound (v : Value) : Prop := v.Sized ∧ v.Proper

/-- However often a key is in the stream, it is in the array once at most. -/
theorem entries_gives {read : Reader Value} (h : Gives 1 read Sound) {es : Entries}
    (hes : (Value.array es).Proper) (hs : ∀ e ∈ es, e.1.Fits ∧ e.2.Sized) :
    Gives n (entries read es n) fun new => (Value.array new).Proper ∧
      (∀ e ∈ new, e.1.Fits ∧ e.2.Sized) ∧ new.length ≤ es.length + n := by
  induction n generalizing es with
  | zero => exact .pure ⟨hes, hs, le_rfl⟩
  | succ n ih =>
    refine (h.bind (l := 1 + n) fun key hkey => h.bind fun v hv => ?_).mono (by omega) fun _ h => h
    cases hk : ArrayKey.ofValue? key with
    | none => exact .throw _
    | some key' =>
      have hset : ∀ e ∈ es.set key' v, e.1.Fits ∧ e.2.Sized := by
        intro e he
        rcases Entries.mem_set (proper_array.1 hes).1 he with rfl | he
        · exact ⟨ArrayKey.fits_of_ofValue? hk hkey.1, hv.1⟩
        · exact hs e he
      refine (ih (hes.set hv.2 key') hset).mono le_rfl fun new hnew => ⟨hnew.1, hnew.2.1, ?_⟩
      have := Entries.length_set es key' v
      omega

/-! ## Values -/

theorem value_gives : Gives 1 (value depth) Sound := by
  induction depth with
  | zero => exact .throw _
  | succ depth ih =>
    -- the tag is a byte, and nothing more is needed of what follows it
    refine (byte_gives).bind (l := 0) fun b _ => ?_
    split
    · exact .pure ⟨trivial, trivial⟩
    · exact ((byte_gives).map fun _ _ => ⟨trivial, trivial⟩).few
    · exact ((word_gives).map fun _ _ => ⟨trivial, trivial⟩).few
    · exact ((word_gives).map fun _ _ => ⟨trivial, trivial⟩).few
    · exact ((double_gives).map fun _ _ => ⟨trivial, trivial⟩).few
    · exact ((double_gives).map fun _ _ => ⟨trivial, trivial⟩).few
    · exact ((single_gives).map fun _ _ => ⟨trivial, trivial⟩).few
    · exact ((text_gives).map fun _ h => ⟨h, trivial⟩).few
    · exact ((text_gives).map fun _ h => ⟨h, trivial⟩).few
    · exact ((text_gives).map fun _ h => ⟨h, trivial⟩).few
    · refine ((count_gives).bind fun n hn => (times_gives ih).few.map fun vs hvs => ?_).few
      exact ⟨sized_list.2 ⟨by rw [hvs.1]; exact hn, fun v hv => (hvs.2 v hv).1⟩,
        proper_list.2 fun v hv => (hvs.2 v hv).2⟩
    · exact ((double_gives).bind fun _ _ => (double_gives).bind fun _ _ =>
        (double_gives).map fun _ _ => ⟨trivial, trivial⟩).few
    · exact ((double_gives).bind fun _ _ => (double_gives).bind fun _ _ =>
        (double_gives).bind fun _ _ => (double_gives).map fun _ _ => ⟨trivial, trivial⟩).few
    · refine ((count_gives).bind fun n hn =>
        (entries_gives ih (proper_default .array) nofun).few.map fun es hes => ?_).few
      refine ⟨sized_array.2 ⟨?_, hes.2.1⟩, hes.1⟩
      have := hes.2.2
      rw [length_nil] at this
      omega
    all_goals exact .throw _

theorem taggedValues_gives :
    Gives 5 taggedValues fun vs => vs.length < 2 ^ 31 ∧ ∀ v ∈ vs, Sound v := by
  refine (expect_gives).bind fun _ _ => (count_gives).bind (l := 0) fun n hn => ?_
  intro bs vs rest hrun
  obtain ⟨⟨hlen, hvs⟩, hle⟩ := times_gives value_gives bs vs rest hrun
  exact ⟨⟨by rw [hlen]; exact hn, hvs⟩, by omega⟩

/-! ## Nesting -/

/-- The readers do the same with at most so many bytes. -/
def Agree (n : Nat) (r r' : Reader α) : Prop := ∀ bs, bs.length ≤ n → r.run bs = r'.run bs

theorem Agree.refl (r : Reader α) : Agree n r r := fun _ _ => rfl

theorem Agree.of_le (h : Agree n r r') (hn : n' ≤ n) : Agree n' r r' :=
  fun bs hbs => h bs (hbs.trans hn)

/-- What follows has fewer bytes. -/
theorem Agree.bind (h : Agree n r r') (hr : Gives k r P)
    (hf : ∀ a, k ≤ n → Agree (n - k) (f a) (f' a)) : Agree n (r >>= f) (r' >>= f') := by
  intro bs hbs
  cases hrun : r.run bs with
  | error e => rw [run_bind_error hrun, run_bind_error (h bs hbs ▸ hrun)]
  | ok x =>
    obtain ⟨a, rest⟩ := x
    rw [run_bind_ok hrun, run_bind_ok (h bs hbs ▸ hrun)]
    have hlen := (hr bs a rest hrun).2
    exact hf a (by omega) rest (by omega)

theorem times_agree (h : Agree n r r') (hr : Gives 1 r P) (count : Nat) :
    Agree n (times r count) (times r' count) := by
  induction count with
  | zero => exact .refl _
  | succ count ih =>
    exact h.bind hr fun a _ => (ih.of_le (Nat.sub_le n 1)).bind (times_gives hr) fun _ _ =>
      .refl _

theorem entries_agree {read : Reader Value} (h : Agree n read read') (hr : Gives 1 read Sound)
    (count : Nat) (es : Entries) : Agree n (entries read es count) (entries read' es count) := by
  induction count generalizing es with
  | zero => exact .refl _
  | succ count ih =>
    refine h.bind hr fun key _ => (h.of_le (Nat.sub_le n 1)).bind hr fun v _ => ?_
    cases ArrayKey.ofValue? key with
    | none => exact .refl _
    | some key => exact (ih _).of_le (by omega)

theorem value_agree (h : n < depth) (h' : n < depth') :
    Agree n (value depth) (valueOr exhausted depth') := by
  induction n using Nat.strongRecOn generalizing depth depth' with
  | _ n ih =>
    obtain ⟨d, rfl⟩ := Nat.exists_eq_add_one_of_ne_zero (Nat.ne_zero_of_lt h)
    obtain ⟨d', rfl⟩ := Nat.exists_eq_add_one_of_ne_zero (Nat.ne_zero_of_lt h')
    refine (Agree.refl byte).bind byte_gives fun b hn => ?_
    have ih : Agree (n - 1) (value d) (valueOr exhausted d') :=
      ih (n - 1) (by omega) (by omega) (by omega)
    split
    case h_11 =>
      refine (Agree.refl count).bind count_gives fun c _ => ?_
      exact (times_agree (ih.of_le (Nat.sub_le _ _)) value_gives c).bind
        (times_gives value_gives) fun _ _ => .refl _
    case h_14 =>
      refine (Agree.refl count).bind count_gives fun c _ => ?_
      exact (entries_agree (ih.of_le (Nat.sub_le _ _)) value_gives c []).bind
        (entries_gives value_gives (proper_default .array) nofun) fun _ _ => .refl _
    all_goals exact .refl _

/-- The number of bytes that are left bounds nothing: values can be nested as deep as one likes. What
is done behind the bound makes no difference, as it is never met. -/
theorem taggedValues_eq (h : bs.length < depth) : taggedValues.run bs = (do
      expect .values
      let n ← count
      times (valueOr exhausted depth) n : Reader (List Value)).run bs := by
  refine (Agree.refl _).bind expect_gives (fun _ _ => ?_) bs le_rfl
  refine (Agree.refl _).bind count_gives fun n hn bs' hbs' => ?_
  refine times_agree (value_agree ?_ ?_) value_gives n bs' le_rfl
  · omega
  · omega

/-! ## Frames -/

theorem receiver_gives : Gives 5 (receiver index) fun _ => True := by
  refine (expect_gives).bind fun _ _ => (word_gives).bind (l := 0) fun n _ => ?_
  split
  · exact .pure trivial
  split
  · exact .pure trivial
  · exact .throw _

theorem functionIndex_gives : Gives 5 (functionIndex index) fun _ => True := by
  refine (taggedWord_gives).bind (l := 0) fun n _ => ?_
  split
  · exact .pure trivial
  · exact .throw _

end Reader

theorem Frame.runsIn_of_scriptError? {f : Frame} (h : f.scriptError? m = none) : f.RunsIn m := by
  unfold scriptError? at h
  split at h
  · cases h
  rename_i g hg
  split at h
  · cases h
  split at h
  · cases h
  · exact ⟨g, hg, by omega, by omega⟩

theorem Frame.waits_of_apiError? {f : Frame} (h : f.apiError? outermost innermost = none) :
    f.Waits ∧ outermost = false ∧ innermost = true := by
  unfold apiError? at h
  split at h
  · cases h
  rename_i g hg
  split at h
  · cases h
  rename_i hplace
  split at h
  · cases h
  rename_i hcall
  simp only [Bool.or_eq_true, Bool.not_eq_true', not_or, Bool.not_eq_true,
    Bool.not_eq_false, ne_eq, not_not] at hplace hcall
  exact ⟨⟨g, hg, hcall.1, hcall.2.1, by simpa using hcall.2.2⟩, hplace⟩

namespace Reader

/-- The frame is one that can stand where it was read, and its values can be written. -/
structure FrameRead (m : Module) (index : Nat) (innermost : Bool) (f : Frame) : Prop where
  place : match f.receiver with
    | .script => f.RunsIn m
    | .api => f.Waits ∧ index ≠ 0 ∧ innermost = true
  sized : f.Sized
  values : ∀ v ∈ f.locals ++ f.operands, Sound v

theorem frame_gives : Gives 24 (frame m index innermost) (FrameRead m index innermost) := by
  refine (receiver_gives).bind fun receiver _ =>
    (functionIndex_gives).bind fun function _ =>
    (count_gives).bind fun pc hpc => (taggedValues_gives).bind fun locals hlocals =>
    (taggedValues_gives).bind (l := 0) fun operands hoperands => ?_
  have hsized : Frame.Sized ⟨receiver, function, pc, locals, operands.reverse⟩ :=
    ⟨hpc, hlocals.1, by rw [length_reverse]; exact hoperands.1⟩
  have hvalues : ∀ v ∈ locals ++ operands.reverse, Sound v := fun v hv =>
    (mem_append.1 hv).elim (hlocals.2 v) fun hv => hoperands.2 v (mem_reverse.1 hv)
  dsimp only
  split
  · exact .throw _
  rename_i herror
  refine .pure ⟨?_, hsized, hvalues⟩
  cases receiver with
  | script => exact Frame.runsIn_of_scriptError? herror
  | api =>
    obtain ⟨hwaits, houter, hinner⟩ := Frame.waits_of_apiError? herror
    exact ⟨hwaits, by simpa using houter, hinner⟩

theorem frames_gives (index n : Nat) :
    Gives 0 (frames m index n) fun fs => fs.length = n ∧ ∀ outer f inner, fs = outer ++ f :: inner →
      FrameRead m (index + outer.length) inner.isEmpty f := by
  induction n generalizing index with
  | zero => exact .pure ⟨rfl, fun outer f inner h => by simp at h⟩
  | succ n ih =>
    refine ((frame_gives).bind fun f hf => (ih (index + 1)).map fun fs hfs => ?_).few
    refine ⟨congrArg (· + 1) hfs.1, fun outer g inner heq => ?_⟩
    cases outer with
    | nil =>
      cases heq
      have hlast : (n == 0) = fs.isEmpty := by rw [← hfs.1]; cases fs <;> rfl
      exact hlast ▸ hf
    | cons _ outer =>
      cases heq
      have hg := hfs.2 outer g inner rfl
      rwa [Nat.add_assoc, Nat.add_comm 1] at hg

theorem FrameRead.fitsAt {inner : List Frame} (h : FrameRead m outer.length inner.isEmpty f) :
    f.FitsAt m inner outer := by
  have hplace := h.place
  unfold Frame.FitsAt
  split
  · rename_i hr
    rwa [hr] at hplace
  · rename_i hr
    rw [hr] at hplace
    obtain ⟨hwaits, houter, hinner⟩ := hplace
    exact ⟨hwaits, isEmpty_iff.1 hinner, ne_nil_of_length_pos (Nat.pos_of_ne_zero houter)⟩

/-! ## Handlers -/

theorem stateIndex_gives (role : StateRole) (n : Int32) : Gives 0 (stateIndex m role n) fun t =>
    n = Int32.ofNat t.toNat ∧ t.toNat < m.states.length := by
  unfold stateIndex
  split
  · rename_i hn
    refine .pure ?_
    have htoNat : (UInt16.ofNat n.toInt.toNat).toNat = n.toInt.toNat :=
      UInt16.toNat_ofNat_of_lt' (by show _ < 65536; omega)
    refine ⟨?_, by omega⟩
    rw [← Int32.toInt_inj, Int32.toInt_ofNat_of_lt (by omega)]
    omega
  · exact .throw _

theorem pending_gives : Gives 5 (pending m) fun p => ∀ t ∈ p, t.toNat < m.states.length := by
  refine (taggedWord_gives).bind (l := 0) fun n _ => ?_
  split
  · exact .pure nofun
  refine (stateIndex_gives _ _).map fun t ht => ?_
  rintro _ ⟨⟩
  exact ht.2

theorem phase_gives :
    Gives 5 (phase m) fun p => ∀ t, p = .exiting t → t.toNat < m.states.length := by
  refine (taggedWord_gives).bind (l := 0) fun n _ => ?_
  split
  · exact .pure nofun
  split
  · exact .pure nofun
  refine (stateIndex_gives _ _).map fun t ht => ?_
  rintro _ ⟨⟩
  exact ht.2

/-- A running handler that was read is one of an instance, and can be written. -/
structure ActivityRead (m : Module) (a : Activity) : Prop where
  consistent : a.Consistent m
  depth : a.frames.length < 2 ^ 31
  frames : ∀ f ∈ a.frames, f.Sized ∧ ∀ v ∈ f.locals ++ f.operands, Sound v

theorem activity_gives (event : Event) : Gives 0 (activity m event) (ActivityRead m) := by
  refine ((pending_gives).bind fun pending hpending => (phase_gives).bind fun phase hphase =>
    (count_gives).bind fun n hn => (frames_gives 0 n).bind (l := 0) fun fs hfs => ?_).few
  split
  · exact .throw _
  rename_i hne
  have hread (f : Frame) (inner outer : List Frame) (h : fs.reverse = inner ++ f :: outer) :
      FrameRead m outer.length inner.isEmpty f := by
    have hfs := hfs.2 outer.reverse f inner.reverse (by
      rw [← reverse_reverse fs, h]
      simp)
    rwa [Nat.zero_add, length_reverse, isEmpty_reverse] at hfs
  refine .pure ⟨⟨hpending, hphase, ?_, fun inner f outer h => (hread f inner outer h).fitsAt⟩, ?_, ?_⟩
  · intro h
    exact hne (by rw [reverse_eq_nil_iff.1 h]; rfl)
  · rw [length_reverse, hfs.1]
    exact hn
  · intro f hf
    obtain ⟨inner, outer, heq⟩ := append_of_mem hf
    have hf := hread f inner outer heq
    exact ⟨hf.sized, hf.values⟩

/-! ## Snapshots -/

theorem event_gives : Gives 5 event fun _ => True := by
  refine (expect_gives).bind fun _ _ => (word_gives).bind (l := 0) fun n _ => ?_
  split
  · exact .pure trivial
  · exact .throw _

theorem checkIdentity_gives : Gives 15 (checkIdentity m) fun _ => True := by
  refine (taggedText_gives).bind fun _ _ => (taggedWord_gives).bind fun _ _ =>
    (taggedText_gives).bind (l := 0) fun _ _ => ?_
  dsimp only
  split
  · exact .pure trivial
  · exact .throw _

theorem checkGlobals_gives (globals : List Value) : Gives 0 (checkGlobals m globals) fun _ =>
    m.globals.Forall₂ (fun g v => g.ty = .object ∨ v.ty = g.ty) globals := by
  unfold checkGlobals
  split
  · exact .throw _
  rename_i hlen
  rw [forM_eq_forM]
  rw [not_not] at hlen
  generalize m.globals = slots at hlen
  induction slots generalizing globals with
  | nil =>
    rw [length_eq_zero_iff.1 hlen]
    exact .pure .nil
  | cons g slots ih =>
    cases globals with
    | nil => cases hlen
    | cons v globals =>
      refine Gives.bind ?_
        fun _ hg => (ih globals (by simpa using hlen)).mono le_rfl fun _ h => .cons hg h
      dsimp only
      split
      · exact .throw _
      rename_i hg
      refine .pure ?_
      by_contra h
      exact hg (not_or.1 h)

theorem Event.handled_of_ne (hn : e ≠ .none) (hg : e ≠ .garbage) : e ∈ Event.handled := by
  cases e <;> first | decide | exact absurd rfl hn | exact absurd rfl hg

theorem Gives.ite [Decidable c] (hpos : c → Gives k r P) (hneg : ¬ c → Gives k r' P) : Gives k
    (if c then r else r') P := by
  split
  · exact hpos ‹_›
  · exact hneg ‹_›

theorem Gives.throw_bind (e : StreamError)
    (r : α → Reader β) : Gives k ((MonadExcept.throw e : Reader α) >>= r) P := by
  intro bs a rest h
  cases h

theorem end_gives {a : α} (h : P a) : Gives 0 (do
    if !(← get).isEmpty then fail .trailing
    return a : Reader α) P := by
  intro bs b rest hrun
  cases bs with
  | nil => cases hrun; exact ⟨h, le_rfl⟩
  | cons => cases hrun

theorem snapshot_gives : Gives 0 (snapshot m) fun s => s.Consistent m ∧ s.Sized := by
  refine ((byte_gives).bind (l := 0) fun version _ => ?_).few
  refine .ite (fun _ => .throw_bind _ _) fun _ => ?_
  refine ((checkIdentity_gives).bind fun _ _ => (taggedWord_gives).bind fun state _ =>
    (stateIndex_gives .current state).bind fun n hstate => (event_gives).bind (l := 0) fun event _ =>
      .ite (fun _ => .throw_bind _ _) fun hevent => ?_).few
  refine ((taggedWord_gives).bind fun memUsage _ => (taggedWord_gives).bind fun memLimit _ =>
    (taggedValues_gives).bind fun eventArgs hargs => (taggedValues_gives).bind fun globals hvalues =>
    (checkGlobals_gives globals).bind (l := 0) fun _ hglobals => ?_).few
  -- The rest of the stream is the running handler, when there is one.
  have hend (active : Option Activity) (hsome : active.isSome ↔ event ≠ .none)
      (hactive : ∀ a ∈ active, ActivityRead m a) :
      Snapshot.Consistent m ⟨state, event, memUsage, memLimit, eventArgs, globals, active⟩ ∧
        Snapshot.Sized ⟨state, event, memUsage, memLimit, eventArgs, globals, active⟩ := by
    have hsound : ∀ v ∈ Snapshot.values ⟨state, event, memUsage, memLimit, eventArgs, globals, active⟩,
        Sound v := by
      intro v hv
      simp only [Snapshot.values, mem_append, mem_flatMap] at hv
      rcases hv with (hv | hv) | ⟨f, hf, hv⟩
      · exact hargs.2 v hv
      · exact hvalues.2 v hv
      cases active with
      | none => cases hf
      | some a => exact ((hactive a rfl).frames f hf).2 v (mem_append.2 hv)
    constructor
    · refine ⟨⟨n, hstate⟩, ?_, hsome, hglobals, fun a ha => (hactive a ha).consistent,
        fun v hv => (hsound v hv).2⟩
      by_cases hnone : event = .none
      · exact .inl hnone
      · exact .inr (Event.handled_of_ne hnone hevent)
    · exact ⟨hargs.1, hvalues.1, fun a ha => (hactive a ha).depth,
        fun a ha f hf => ((hactive a ha).frames f hf).1, fun v hv => (hsound v hv).1⟩
  refine .ite (fun hnone => ?_) fun hsome => ?_
  · exact end_gives (hend none (by simp [hnone]) (by rintro _ ⟨⟩))
  rw [map_eq_pure_bind, bind_assoc]
  refine (activity_gives event).bind fun a ha =>
    end_gives (hend (some a) (by simp [hsome]) ?_)
  rintro _ ⟨⟩
  exact ha

theorem version_lt_of_checkIdentity (hn : m.name.utf8ByteSize < 2 ^ 32)
    (h : (checkIdentity m).run (Chunk.join m.identityChunks ++ rest) = .ok x) :
    m.version.toNat < 2 ^ 31 := by
  unfold checkIdentity Module.identityChunks at h
  rw [Chunk.join_append, Chunk.join_append, append_assoc, append_assoc,
    (taggedText_carries hn).run_bind, (taggedWord_carries _).run_bind,
    (taggedText_carries (fingerprintText_size m)).run_bind] at h
  dsimp only at h
  split at h
  · rename_i heq
    by_contra hlt
    have hclamp : ∃ n : Nat, (Word.clamp m.version.toNat).toInt = n ∧ n < 2 ^ 31 := by
      refine ⟨2 ^ 31 - 1, ?_, by omega⟩
      unfold Word.clamp Word.least Word.greatest
      rw [if_neg (by omega), if_pos (by omega)]
      rfl
    obtain ⟨n, hclamp, hle⟩ := hclamp
    have hsame : toString (n : Int) = toString n := rfl
    rw [hclamp, hsame] at heq
    have htext : n.repr = m.version.toNat.repr := by simpa [identityText] using heq
    have hnum := congrArg (fun t => Nat.ofDigitChars 10 t.toList 0) htext
    simp only [Nat.repr, String.toList_ofList, Nat.ofDigitChars_ten_toDigits] at hnum
    omega
  · cases h

end Reader

namespace Snapshot

variable {s : Snapshot} {bytes : List UInt8}

/-- What is read from a stream is a snapshot of an instance of the module, and can be written. -/
theorem ofBytes_consistent (h : ofBytes m bytes = .ok s) : s.Consistent m ∧ s.Sized := by
  unfold ofBytes at h
  rw [StateT.run'_eq] at h
  cases hrun : (Reader.snapshot m).run bytes with
  | error e => rw [hrun] at h; cases h
  | ok x =>
    obtain ⟨s', rest⟩ := x
    rw [hrun] at h
    cases h
    exact (Reader.snapshot_gives bytes _ rest hrun).1

theorem version_lt_of_ofBytes_send (hsent : s.send m sink = ⟨sink.id, bytes, none⟩)
    (hread : ofBytes m bytes = .ok s) :
    m.version.toNat < 2 ^ 31 ∧ m.name.utf8ByteSize < 2 ^ 32 := by
  obtain ⟨hclear, hbytes⟩ := bytes_of_send (congrArg Delivery.error hsent)
  have hn := (sized_of_chunks hclear).2
  refine ⟨?_, hn⟩
  rw [hsent] at hbytes
  dsimp only at hbytes
  rw [ofBytes, StateT.run'_eq, hbytes, chunks, ← singleton_append, Reader.snapshot,
    Chunk.join_append, (Reader.byte_carries streamVersion).run_bind,
    if_neg (not_not_intro rfl)] at hread
  simp only [append_assoc] at hread
  rw [Chunk.join_append] at hread
  generalize Chunk.join (Chunk.taggedWord s.state ++ _) = rest at hread
  cases hid : (Reader.checkIdentity m).run (Chunk.join m.identityChunks ++ rest) with
  | error e => rw [Reader.run_bind_error hid] at hread; cases hread
  | ok x => exact Reader.version_lt_of_checkIdentity hn hid

/-- Reading ends within the bytes there are: the bound on nesting is never met, whatever would be
done there. Whatever the bytes are, what is read is a snapshot of an instance of the module; it is
written and read back, unless the module has a name or a version that cannot be written. -/
theorem decoding_normal (m : Module) :
    (∀ exhausted bs depth, bs.length < depth → Reader.taggedValues.run bs = (do
      Reader.expect .values
      let n ← Reader.count
      Reader.times (Reader.valueOr exhausted depth) n : Reader (List Value)).run bs) ∧
    ∀ bytes s, ofBytes m bytes = .ok s → s.Consistent m ∧
      ∀ sink : Sink, (∀ taken bs, sink.refuses taken bs = none) →
        ((∃ written, s.send m sink = ⟨sink.id, written, none⟩ ∧ ofBytes m written = .ok s) ↔
          m.version.toNat < 2 ^ 31 ∧ m.name.utf8ByteSize < 2 ^ 32) := by
  refine ⟨fun exhausted bs depth => Reader.taggedValues_eq, fun bytes s h => ?_⟩
  obtain ⟨hc, hs⟩ := ofBytes_consistent h
  refine ⟨hc, fun sink hsink => ⟨?_, ?_⟩⟩
  · rintro ⟨written, hsent, hread⟩
    exact version_lt_of_ofBytes_send hsent hread
  · rintro ⟨hv, hn⟩
    have hends := Reader.snapshot_ends_of_lt hv hn hc hs
    refine ⟨_, send_accepting hsink hends.unstuck, ?_⟩
    rw [ofBytes, StateT.run'_eq, hends.whole]
    rfl

end Snapshot

/-- What no instance wrote: a key is in an array twice, with another tag each time, and a truth value
is neither 0 nor 1. -/
def forgedBody : List Chunk :=
  Chunk.taggedWord 1 ++ [.tag .eventCode, .word Event.none.ordinal] ++ Chunk.taggedWord 5 ++
    Chunk.taggedWord 65536 ++ Chunk.taggedValues [] ++ [.tag .values, .count 1, .tag .array, .count 2,
      .tag .word, .word 3, .tag .single, .bytes [0, 0, 128, 63],
      .tag .integer, .word 3, .tag .bool, .bytes [2]]

def forgedStream : List UInt8 :=
  Chunk.join (.bytes [streamVersion] :: (relayModule.identityChunks ++ forgedBody))

theorem forged_normal : ∃ s written, Snapshot.ofBytes relayModule forgedStream = .ok s ∧
    s.Consistent relayModule ∧ s.send relayModule (.accepting 0) = ⟨0, written, none⟩ ∧
    Snapshot.ofBytes relayModule written = .ok s ∧ written ≠ forgedStream := by
  have hread : (Snapshot.ofBytes relayModule forgedStream).toOption.any fun s =>
      decide ((s.send relayModule (.accepting 0)).bytes ≠ forgedStream) := by
    decide +kernel
  cases hs : Snapshot.ofBytes relayModule forgedStream with
  | error e => rw [hs] at hread; cases hread
  | ok s =>
    obtain ⟨hc, hsend⟩ := (Snapshot.decoding_normal relayModule).2 forgedStream s hs
    obtain ⟨written, hsent, hback⟩ := (hsend (.accepting 0) fun _ _ => rfl).2 (by decide)
    refine ⟨s, written, rfl, hc, hsent, hback, ?_⟩
    rw [hs] at hread
    have hne := of_decide_eq_true hread
    rwa [hsent] at hne

/-- A module with a version that no stream can carry, and a name that holds another one. -/
def agedModule : Module := { relayModule with name := "relay v1 x", version := 0x80000000 }

/-- A stream that splits the identity of the module elsewhere. -/
def agedStream : List UInt8 :=
  Chunk.join (.bytes [streamVersion] :: (Chunk.taggedText "relay" ++ Chunk.taggedWord 1 ++
    Chunk.taggedText ("x v2147483648 " ++ agedModule.fingerprintText) ++ forgedBody))

/-- What is read for such a module is not read back, as the version that is written is another one. -/
theorem aged_unreadable : ∃ s, Snapshot.ofBytes agedModule agedStream = .ok s ∧
    ¬∃ written, s.send agedModule (.accepting 0) = ⟨0, written, none⟩ ∧
      Snapshot.ofBytes agedModule written = .ok s := by
  have hread : (Snapshot.ofBytes agedModule agedStream).toOption.isSome := by decide +kernel
  cases hs : Snapshot.ofBytes agedModule agedStream with
  | error e => rw [hs] at hread; cases hread
  | ok s =>
    refine ⟨s, rfl, ?_⟩
    rintro ⟨written, hsent, hback⟩
    exact absurd (Snapshot.version_lt_of_ofBytes_send hsent hback).1 (by decide)

end EventScript
