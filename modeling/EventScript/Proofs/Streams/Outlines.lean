import EventScript.Proofs.Streams.Decoding

/-!
# Outlines of snapshots

An instance whose host answers as it likes can hold values that no script has, and is written all
the same. What is read from the stream then has the outline of what was written: it differs in
values only (`Snapshot.outline_of_ofBytes`). A stream that a sink has refused a part of is not read
at all, so one that is read is complete (`Snapshot.whole_of_ofBytes`).

A reader follows writes (`Reader.Follows`) if it takes them as a whole when it succeeds, and does not
succeed when one of them has not been made. It need not succeed.
-/

namespace EventScript

open List

/-- The frame without its values. What is left of the operands is how many there are. -/
def Frame.outline (f : Frame) : Frame :=
  { f with locals := [], operands := replicate f.operands.length .undefined }

def Activity.outline (a : Activity) : Activity := { a with frames := a.frames.map Frame.outline }

def Snapshot.outline (s : Snapshot) : Snapshot :=
  { s with eventArgs := [], globals := [], active := s.active.map Activity.outline }

/-! ## Refused writes -/

namespace Chunk

/-- The bytes begin a write that has not been made to the end. -/
def Begins (p : List UInt8) : Chunk → Prop
  | bytes bs => p <+: bs ∧ p ≠ bs
  | stuck _ => p = []

/-- The bytes end where a write has not been made to the end. -/
def Short (cs : List Chunk) (p : List UInt8) : Prop :=
  ∃ made c left q, cs = made ++ c :: left ∧ Clear made ∧ Begins q c ∧ p = join made ++ q

theorem not_short_nil : ¬ Short [] p := by
  rintro ⟨made, c, left, q, h, -⟩
  simp at h

theorem Short.here (hc : Begins p c) : Short (c :: cs) p :=
  ⟨[], c, cs, p, rfl, forall_mem_nil _, hc, rfl⟩

theorem Short.cons (hc : c = .bytes bs) (h : Short cs p) : Short (c :: cs) (bs ++ p) := by
  obtain ⟨made, c', left, q, rfl, hmade, hq, rfl⟩ := h
  subst hc
  refine ⟨.bytes bs :: made, c', left, q, rfl, clear_cons.2 ⟨⟨bs, rfl⟩, hmade⟩, hq, ?_⟩
  simp [content]

theorem Short.append (h : Short (cs ++ cs') p) :
    Short cs p ∨ Clear cs ∧ ∃ p', p = join cs ++ p' ∧ Short cs' p' := by
  obtain ⟨made, c, left, q, heq, hmade, hq, rfl⟩ := h
  obtain ⟨x, rfl, rfl⟩ | ⟨x, rfl, hx⟩ := append_eq_append_iff.1 heq
  · obtain ⟨hcs, hx⟩ := clear_append.1 hmade
    refine .inr ⟨hcs, join x ++ q, ?_, x, c, left, q, rfl, hx, hq, rfl⟩
    rw [join_append, append_assoc]
  · cases x with
    | nil =>
      refine .inr ⟨by simpa using hmade, q, by simp, [], c, left, q, hx.symm, nofun, hq, rfl⟩
    | cons y x =>
      cases hx
      exact .inl ⟨made, c, x, q, rfl, hmade, hq, rfl⟩

end Chunk

open Chunk (Clear Short)

/-- A sink that has not been flushed has everything. -/
theorem Sink.take_cases (sink : Sink) (taken : List UInt8) (cs : List Chunk) :
    (∃ p, Short cs p ∧ (sink.take taken cs).1 = p.reverse ++ taken) ∨
      Clear cs ∧ (sink.take taken cs).1 = (Chunk.join cs).reverse ++ taken := by
  induction cs generalizing taken with
  | nil => exact .inr ⟨forall_mem_nil _, rfl⟩
  | cons c cs ih =>
    cases c with
    | stuck reason => exact .inl ⟨[], .here rfl, rfl⟩
    | bytes bs =>
      cases bs with
      | nil =>
        obtain ⟨p, hp, heq⟩ | ⟨hclear, heq⟩ := ih taken
        · exact .inl ⟨p, hp.cons rfl, heq⟩
        · exact .inr ⟨Chunk.clear_cons.2 ⟨⟨[], rfl⟩, hclear⟩, heq⟩
      | cons b bs =>
        rw [take.eq_4]
        split
        · refine .inl ⟨_, .here ⟨ take_prefix _ _, fun h => ?_⟩, rfl⟩
          have := congrArg length h
          rw [length_take, length_cons] at this
          omega
        · obtain ⟨p, hp, heq⟩ | ⟨hclear, heq⟩ := ih ((b :: bs).reverse ++ taken)
          · exact .inl ⟨b :: bs ++ p, hp.cons rfl, by rw [heq]; simp⟩
          · refine .inr ⟨Chunk.clear_cons.2 ⟨⟨_, rfl⟩, hclear⟩, ?_⟩
            rw [heq]
            simp [Chunk.content]

namespace Reader

variable {α : Type}

/-- A reader that succeeds takes all of the writes, and gives something with a property. It does not
succeed if one of them has not been made. -/
structure Follows (cs : List Chunk) (r : Reader α) (P : α → Prop) : Prop where
  whole {a : α} : Clear cs → r.run (Chunk.join cs ++ rest) = .ok (a, rest') → P a ∧ rest' = rest
  short : Short cs p → r.run p ≠ .ok x

/-! ## Readers in a row -/

theorem Follows.pure (h : P a) : Follows [] (Pure.pure a : Reader α) P where
  whole _ hrun := by cases hrun; exact ⟨h, rfl⟩
  short hp := (Chunk.not_short_nil hp).elim

theorem Follows.throw (e : StreamError) : Follows cs (throw e : Reader α) P where
  whole _ hrun := by cases hrun
  short _ := nofun

theorem Follows.bind (h : Follows cs r P) (h' : ∀ a, P a → Follows cs' (f a) Q) :
    Follows (cs ++ cs') (r >>= f) Q where
  whole {rest rest' b} hclear hrun := by
    obtain ⟨hcs, hcs'⟩ := Chunk.clear_append.1 hclear
    rw [Chunk.join_append, append_assoc] at hrun
    cases hr : r.run (Chunk.join cs ++ (Chunk.join cs' ++ rest)) with
    | error e => rw [run_bind_error hr] at hrun; cases hrun
    | ok x =>
      obtain ⟨a, left⟩ := x
      rw [run_bind_ok hr] at hrun
      obtain ⟨ha, rfl⟩ := h.whole hcs hr
      exact (h' a ha).whole hcs' hrun
  short {p x} hp := by
    intro hrun
    cases hr : r.run p with
    | error e => rw [run_bind_error hr] at hrun; cases hrun
    | ok y =>
      obtain hp | ⟨hclear, p', rfl, hp'⟩ := hp.append
      · exact h.short hp hr
      obtain ⟨a, left⟩ := y
      obtain ⟨ha, rfl⟩ := h.whole hclear hr
      rw [run_bind_ok hr] at hrun
      exact (h' a ha).short hp' hrun

theorem Follows.cons (h : Follows [c] r P) (h' : ∀ a, P a → Follows cs (f a) Q) :
    Follows (c :: cs) (r >>= f) Q := h.bind h'

theorem Follows.andThen (h : Follows cs r P) (h' : ∀ a, P a → Follows [] (f a) Q) :
    Follows cs (r >>= f) Q := by
  simpa using h.bind h'

theorem Follows.map {g : α → β} (h : Follows cs r P) (h' : ∀ a, P a → Q (g a)) :
    Follows cs (r >>= fun a => Pure.pure (g a)) Q :=
  h.andThen fun a ha => .pure (h' a ha)

theorem Follows.get {r : List UInt8 → Reader α} (h : ∀ bs, Follows cs (r bs) P) :
    Follows cs (MonadState.get >>= r) P where
  whole {rest _ _} hclear hrun := (h (Chunk.join cs ++ rest)).whole hclear hrun
  short {p _} hp hrun := (h p).short hp hrun

theorem Carries.follows (h : Carries True cs r a) : Follows cs r (· = a) where
  whole {rest rest' b} _ hrun := by
    obtain hr | ⟨-, hr⟩ := h.whole rest
    · rw [hr] at hrun
      cases hrun
      exact ⟨rfl, rfl⟩
    · rw [hr] at hrun
      cases hrun
  short {p x} hp hrun := by
    obtain ⟨made, c, left, q, rfl, -, hq, rfl⟩ := hp
    obtain ⟨bs, rfl⟩ := h.unstuck c (by simp)
    obtain ⟨⟨q', rfl⟩, hne⟩ := hq
    rw [h.cut (Chunk.join made ++ q) (q' ++ Chunk.join left) (by simp [Chunk.content])] at hrun
    · cases hrun
    · intro hnil
      exact hne (by rw [(append_eq_nil_iff.1 hnil).1, append_nil])

theorem Carries.before (h : Carries True cs r a) (h' : Follows cs' (f a) Q) :
    Follows (cs ++ cs') (r >>= f) Q := h.follows.bind fun _ hb => hb ▸ h'

theorem Carries.beforeCons (h : Carries True [c] r a) (h' : Follows cs (f a) Q) :
    Follows (c :: cs) (r >>= f) Q := h.before h'

theorem Follows.stuck (h : r.run [] = .error .truncated) : Follows [.stuck reason] r P where
  whole hclear := by
    obtain ⟨bs, hbs⟩ := hclear _ mem_cons_self
    cases hbs
  short {p x} hp hrun := by
    obtain ⟨made, c, left, q, heq, hmade, hq, rfl⟩ := hp
    cases made with
    | nil =>
      cases heq
      obtain rfl : q = [] := hq
      exact nomatch h.symm.trans hrun
    | cons d made =>
      obtain ⟨bs, rfl⟩ := hmade _ mem_cons_self
      simp at heq

/-! ## Values -/

theorem count_follows : Follows [.count n] count (· = n) := by
  by_cases hn : n < 0x80000000
  · exact (count_carries hn).follows
  unfold Chunk.count
  rw [if_neg hn]
  exact .stuck rfl

theorem text_follows : Follows (Chunk.text s) text fun _ => True := by
  by_cases hs : s.utf8ByteSize < 0x100000000
  · have h := (text_carries hs).follows
    exact ⟨fun hc hr => ⟨trivial, (h.whole hc hr).2⟩, h.short⟩
  · unfold Chunk.text
    dsimp only
    rw [utf8_length, if_neg hs]
    exact .stuck rfl

theorem times_follows {bs : List β} (h : ∀ b ∈ bs, Follows (encode b) r fun _ => True) :
    Follows (bs.flatMap encode) (times r bs.length) fun as => as.length = bs.length := by
  induction bs with
  | nil => exact .pure rfl
  | cons b bs ih =>
    exact (h b mem_cons_self).bind fun _ _ =>
      (ih (forall_mem_cons.1 h).2).map fun _ hlen => congrArg (· + 1) hlen

theorem entries_follows {read : Reader Value} (hk : ∀ e ∈ es, Follows (Chunk.arrayKey e.1) read fun
    _ => True) (hv : ∀ e ∈ es, Follows (Chunk.value e.2) read fun _ => True) (old : Entries) :
    Follows (Chunk.entries es) (entries read old es.length) fun _ => True := by
  induction es generalizing old with
  | nil => rw [Chunk.entries]; exact .pure trivial
  | cons e es ih =>
    refine (hk e mem_cons_self).bind fun k _ => (hv e mem_cons_self).bind fun v _ => ?_
    split
    · exact ih (forall_mem_cons.1 hk).2 (forall_mem_cons.1 hv).2 _
    · exact .throw _

theorem key_follows : Follows (Chunk.arrayKey k) (value depth) fun _ => True := by
  cases depth with
  | zero => exact .throw _
  | succ depth =>
    cases k with
    | integer n =>
      exact (byte_carries Tag.integer.byte).beforeCons ((word_carries n).follows.map fun _ _ => trivial)
    | float d =>
      exact (byte_carries Tag.float.byte).beforeCons ((double_carries d).follows.map fun _ _ => trivial)
    | string s =>
      exact (byte_carries Tag.string.byte).beforeCons ((text_follows).map fun _ _ => trivial)
    | key s =>
      exact (byte_carries Tag.key.byte).beforeCons ((text_follows).map fun _ _ => trivial)
    | vector v =>
      exact (byte_carries Tag.vector.byte).beforeCons ((double_carries v.x).beforeCons
        ((double_carries v.y).beforeCons ((double_carries v.z).follows.map fun _ _ => trivial)))
    | rotation q =>
      exact (byte_carries Tag.rotation.byte).beforeCons ((double_carries q.x).beforeCons
        ((double_carries q.y).beforeCons ((double_carries q.z).beforeCons
          ((double_carries q.s).follows.map fun _ _ => trivial))))

theorem value_follows (depth : Nat) : Follows (Chunk.value v) (value depth) fun _ => True := by
  induction v using Value.induct generalizing depth with
  | undefined =>
    cases depth with
    | zero => exact .throw _
    | succ depth =>
      exact (byte_carries Tag.null.byte).beforeCons (.pure trivial)
  | bool b =>
    cases depth with
    | zero => exact .throw _
    | succ depth =>
      exact (byte_carries Tag.bool.byte).beforeCons ((byte_carries _).follows.map fun _ _ => trivial)
  | key k =>
    rw [Chunk.value_toValue]
    exact key_follows
  | list vs ih =>
    cases depth with
    | zero => exact .throw _
    | succ depth =>
      rw [Chunk.value, Chunk.values_eq]
      refine (byte_carries Tag.list.byte).beforeCons ((count_follows).cons fun n hn => ?_)
      subst hn
      exact (times_follows fun v hv => ih v hv depth).map fun _ _ => trivial
  | array es ih =>
    cases depth with
    | zero => exact .throw _
    | succ depth =>
      rw [Chunk.value]
      refine (byte_carries Tag.array.byte).beforeCons ((count_follows).cons fun n hn => ?_)
      subst hn
      exact (entries_follows (fun e _ => key_follows) (fun e he => ih e he depth) []).map
        fun _ _ => trivial

theorem taggedValues_follows :
    Follows (Chunk.taggedValues vs) taggedValues fun us => us.length = vs.length := by
  refine (expect_carries .values).beforeCons ((count_follows).cons fun n hn => ?_)
  subst hn
  refine .get fun bs => ?_
  rw [Chunk.values_eq]
  exact times_follows fun v _ => value_follows _

/-! ## Frames -/

theorem frame_follows (f : Frame) (index : Nat) (innermost : Bool) :
    Follows f.chunks (frame m index innermost) fun f' => f'.outline = f.outline := by
  refine (receiver_carries index _).before ((functionIndex_carries index _).before
    ((count_follows).cons fun pc hpc => (taggedValues_follows).bind fun locals _ =>
      (taggedValues_follows).andThen fun operands hoperands => ?_))
  subst hpc
  dsimp only
  split
  · exact .throw _
  · refine .pure ?_
    simp only [Frame.outline, length_reverse, hoperands]

theorem frames_follows (fs : List Frame) (index : Nat) :
    Follows (fs.flatMap Frame.chunks) (frames m index fs.length)
      fun fs' => fs'.map Frame.outline = fs.map Frame.outline := by
  induction fs generalizing index with
  | nil => exact .pure rfl
  | cons f fs ih =>
    refine (frame_follows f index _).bind fun f' hf => (ih (index + 1)).map fun fs' hfs => ?_
    rw [map_cons, map_cons, hf, hfs]

/-! ## Handlers -/

theorem stateIndex_follows : Follows [] (stateIndex m role (Int32.ofNat t.toNat)) (· = t) := by
  by_cases ht : t.toNat < m.states.length
  · rw [stateIndex_eq ht]
    exact .pure rfl
  · unfold stateIndex
    rw [if_neg (by rw [toInt_ofNat_toNat]; omega)]
    exact .throw _

theorem pending_follows :
    Follows (Chunk.taggedWord ((p.map fun s => Int32.ofNat s.toNat).getD (-1))) (pending m)
      (· = p) := by
  refine (taggedWord_carries _).follows.andThen fun n hn => ?_
  subst hn
  cases p with
  | none => exact .pure rfl
  | some t =>
    simp only [Option.map_some, Option.getD_some]
    rw [if_neg (ofNat_ne_of_neg t (by decide))]
    exact (stateIndex_follows).map fun _ h => congrArg some h

theorem phase_follows : Follows (Chunk.taggedWord p.code) (phase m) (· = p) := by
  refine (taggedWord_carries _).follows.andThen fun n hn => ?_
  subst hn
  cases p with
  | handler | entering => exact .pure rfl
  | exiting t =>
    have h1 : (Phase.exiting t).code ≠ -1 := ofNat_ne_of_neg t (by decide)
    have h2 : (Phase.exiting t).code ≠ -2 := ofNat_ne_of_neg t (by decide)
    rw [if_neg h1, if_neg h2]
    exact (stateIndex_follows).map fun _ h => congrArg Phase.exiting h

theorem activity_follows (a : Activity) (event : Event) :
    Follows a.chunks (activity m event) fun a' => a'.outline = a.outline := by
  refine (pending_follows).bind fun pending hpending => (phase_follows).bind
    fun phase hphase => (count_follows).cons fun n hn => ?_
  subst hpending hphase hn
  rw [← @length_reverse _ a.frames]
  refine (frames_follows a.frames.reverse 0).andThen fun fs hfs => ?_
  split
  · exact .throw _
  refine .pure ?_
  rw [map_reverse] at hfs
  show (⟨a.pending, a.phase, fs.reverse.map Frame.outline⟩ : Activity) = _
  rw [map_reverse, hfs, reverse_reverse]
  rfl

/-! ## Snapshots -/

theorem taggedText_follows : Follows (Chunk.taggedText s) taggedText fun _ => True :=
  (expect_carries .text).beforeCons text_follows

theorem checkIdentity_follows : Follows m.identityChunks (checkIdentity m) fun _ => True := by
  simp only [Module.identityChunks, append_assoc]
  refine (taggedText_follows).bind fun _ _ => (taggedWord_carries _).before
    ((taggedText_follows).andThen fun _ _ => ?_)
  dsimp only
  split
  · exact .pure trivial
  · exact .throw _

theorem Follows.ite [Decidable c] (hpos : c → Follows cs r P)
    (hneg : ¬ c → Follows cs r' P) : Follows cs (if c then r else r') P := by
  split
  · exact hpos ‹_›
  · exact hneg ‹_›

theorem Follows.throw_bind (e : StreamError) (f : α → Reader β) :
    Follows cs ((MonadExcept.throw e : Reader α) >>= f) Q where
  whole _ hrun := by cases hrun
  short _ hrun := by cases hrun

theorem Follows.check (h : Follows [] r fun _ => True) (h' : ∀ a, Follows cs (f a) Q) :
    Follows cs (r >>= f) Q := h.bind fun a _ => h' a

theorem checkGlobals_follows : Follows [] (checkGlobals m globals) fun _ => True := by
  refine .ite (fun _ => .throw _) fun _ => ?_
  rw [forM_eq_forM]
  induction m.globals.zip globals with
  | nil => exact .pure trivial
  | cons gv gvs ih =>
    exact .check (.ite (fun _ => .throw _) fun _ => .pure trivial) fun _ => ih

theorem end_follows (h : P a) : Follows [] (do
    if !(← MonadState.get).isEmpty then fail .trailing
    return a : Reader α) P where
  whole {rest _ _} _ hrun := by
    cases rest with
    | nil => cases hrun; exact ⟨h, rfl⟩
    | cons => cases hrun
  short hp := (Chunk.not_short_nil hp).elim

theorem snapshot_follows (s : Snapshot) (hs : s.active.isSome ↔ s.event ≠ .none) :
    Follows (s.chunks m) (snapshot m) fun s' => s'.outline = s.outline := by
  obtain ⟨state, event, memUsage, memLimit, eventArgs, globals, active⟩ := s
  simp only [Snapshot.chunks, append_assoc]
  refine (byte_carries streamVersion).beforeCons ?_
  refine (checkIdentity_follows).bind fun _ _ => (taggedWord_carries state).before
    (.check (.ite (fun _ => .pure trivial) fun _ => .throw _) fun _ => ?_)
  refine (event_carries event).before (.ite (fun _ => .throw_bind _ _) fun _ => ?_)
  refine (taggedWord_carries memUsage).before ((taggedWord_carries memLimit).before
    ((taggedValues_follows).bind fun args _ => (taggedValues_follows).bind fun values _ =>
      .check checkGlobals_follows fun _ => ?_))
  cases active with
  | none =>
    have hevent : event = .none := by simpa using hs
    rw [if_pos hevent]
    exact end_follows rfl
  | some a =>
    have hevent : event ≠ .none := by simpa using hs
    rw [if_neg hevent, map_eq_pure_bind, bind_assoc]
    refine (activity_follows a event).andThen fun a' ha => end_follows ?_
    show Snapshot.mk state event memUsage memLimit [] [] (some a'.outline) = _
    rw [ha]
    rfl

end Reader

namespace Snapshot

variable {s s' : Snapshot}

/-- What is read from a stream that was written completely has the outline of what was written. -/
theorem outline_of_ofBytes (hs : s.active.isSome ↔ s.event ≠ .none)
    (hsent : (s.send m sink).error = none) (h : ofBytes m (s.send m sink).bytes = .ok s') :
    s'.outline = s.outline := by
  obtain ⟨hclear, hbytes⟩ := bytes_of_send hsent
  rw [hbytes, ofBytes, StateT.run'_eq, ← append_nil (Chunk.join _)] at h
  cases hrun : (Reader.snapshot m).run (Chunk.join (s.chunks m) ++ []) with
  | error e => rw [hrun] at h; cases h
  | ok x =>
    rw [hrun] at h
    cases h
    exact ((Reader.snapshot_follows s hs).whole hclear hrun).1

/-- A stream that is read has all that a sink gets that refuses nothing. -/
theorem whole_of_ofBytes (hs : s.active.isSome ↔ s.event ≠ .none)
    (h : ofBytes m (s.send m sink).bytes = .ok s') (n : Nat) :
    s.send m (.accepting n) = ⟨n, (s.send m sink).bytes, none⟩ := by
  have hbytes : (s.send m sink).bytes = (sink.take [] (s.chunks m)).1.reverse := rfl
  rw [hbytes] at h ⊢
  obtain ⟨p, hp, heq⟩ | ⟨hclear, heq⟩ := sink.take_cases [] (s.chunks m)
  · rw [heq, append_nil, reverse_reverse, ofBytes, StateT.run'_eq] at h
    cases hrun : (Reader.snapshot m).run p with
    | error e => rw [hrun] at h; cases h
    | ok x => exact absurd hrun ((Reader.snapshot_follows s hs).short hp)
  · rw [heq, append_nil, reverse_reverse]
    exact send_accepting (fun _ _ => rfl) hclear

end Snapshot

end EventScript
