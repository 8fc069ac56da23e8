import EventScript.Proofs.Streams.Reading
import Mathlib.Data.List.Forall2
import Mathlib.Data.String.Basic

/-!
# Streams of snapshots

A snapshot that can be of an instance of a module (`Snapshot.Consistent`), with texts and
collections of lengths that can be written (`Snapshot.Sized`), is read back from its stream as it
was. No stream is the beginning of another: what is cut off is reported as such, and so is what
follows (`Snapshot.stream_exact`).
-/

namespace EventScript

open List

/-! ## Snapshots of instances -/

def Frame.RunsIn (m : Module) (f : Frame) : Prop :=
  ∃ g, m.function? f.function = some g ∧ f.pc ≤ g.ops.size ∧ f.locals.length = g.localCount.toNat

/-- The frame of a call of a library function that is to be finished. -/
def Frame.Waits (f : Frame) : Prop :=
  ∃ g, ApiFunction.get? f.function = some g ∧ f.locals.length = g.params.length ∧ f.pc = 0 ∧
    f.operands = []

/-- The frame can stand between calls, of which `inner` are inside it and `outer` around it. Only
the code of the module calls library functions, and they call nothing. -/
def Frame.FitsAt (m : Module) (inner outer : List Frame) (f : Frame) : Prop :=
  match f.receiver with
  | .script => f.RunsIn m
  | .api => f.Waits ∧ inner = [] ∧ outer ≠ []

/-- Every frame can stand where it stands; the innermost is the first. -/
def Frame.Stacked (m : Module) (fs : List Frame) : Prop :=
  ∀ inner f outer, fs = inner ++ f :: outer → f.FitsAt m inner outer

structure Activity.Consistent (m : Module) (a : Activity) : Prop where
  pending : ∀ s ∈ a.pending, s.toNat < m.states.length
  phase : ∀ s, a.phase = .exiting s → s.toNat < m.states.length
  nonempty : a.frames ≠ []
  stacked : Frame.Stacked m a.frames

def Snapshot.values (s : Snapshot) : List Value :=
  s.eventArgs ++ s.globals ++
    ((s.active.map Activity.frames).getD []).flatMap fun f => f.locals ++ f.operands

structure Snapshot.Consistent (m : Module) (s : Snapshot) : Prop where
  state : ∃ n : UInt16, s.state = Int32.ofNat n.toNat ∧ n.toNat < m.states.length
  event : s.event = .none ∨ s.event ∈ Event.handled
  active : s.active.isSome ↔ s.event ≠ .none
  globals : m.globals.Forall₂ (fun g v => g.ty = .object ∨ v.ty = g.ty) s.globals
  activity : ∀ a ∈ s.active, a.Consistent m
  proper : ∀ v ∈ s.values, v.Proper

/-- The counts of a frame can be written. -/
structure Frame.Sized (f : Frame) : Prop where
  pc : f.pc < 2 ^ 31
  locals : f.locals.length < 2 ^ 31
  operands : f.operands.length < 2 ^ 31

/-- All lengths and counts of a snapshot can be written. -/
structure Snapshot.Sized (s : Snapshot) : Prop where
  eventArgs : s.eventArgs.length < 2 ^ 31
  globals : s.globals.length < 2 ^ 31
  depth : ∀ a ∈ s.active, a.frames.length < 2 ^ 31
  frames : ∀ a ∈ s.active, ∀ f ∈ a.frames, f.Sized
  values : ∀ v ∈ s.values, v.Sized

theorem Snapshot.Consistent.event_ne_garbage {s : Snapshot} (hc : s.Consistent m) :
    s.event ≠ .garbage := by
  intro h
  have := hc.event
  rw [h] at this
  simp [Event.handled] at this

theorem Frame.RunsIn.scriptError? {f : Frame} (h : f.RunsIn m) : f.scriptError? m = none := by
  obtain ⟨g, hg, hpc, hlocals⟩ := h
  simp only [Frame.scriptError?, hg]
  rw [if_neg (by omega), if_neg (not_not_intro hlocals)]

theorem Frame.Waits.apiError? {f : Frame} (h : f.Waits) : f.apiError? false true = none := by
  obtain ⟨g, hg, hlocals, hpc, hops⟩ := h
  simp [Frame.apiError?, hg, hlocals, hpc, hops]

namespace Reader

/-! ## Frames -/

theorem receiver_carries (index : Nat) (r : Receiver) :
    Carries enough [.tag .receiver, .word r.code] (receiver index) r := by
  refine (expect_carries .receiver).cons ((word_carries r.code).andThen ?_)
  cases r <;> exact .pure _

theorem toInt_ofNat_toNat (n : UInt16) : (Int32.ofNat n.toNat).toInt = n.toNat :=
  Int32.toInt_ofNat_of_lt (by have := n.toNat_lt; omega)

theorem functionIndex_carries (index : Nat) (n : UInt16) :
    Carries enough (Chunk.taggedWord (Int32.ofNat n.toNat)) (functionIndex index) n := by
  have hn := n.toNat_lt
  refine (taggedWord_carries _).andThen ?_
  rw [toInt_ofNat_toNat, if_pos ⟨by omega, by omega⟩, Int.toNat_natCast, UInt16.ofNat_toNat]
  exact .pure n

theorem frame_carries {f : Frame} {inner outer : List Frame} (hinner : innermost = inner.isEmpty)
    (hf : f.FitsAt m inner outer) (hs : f.Sized)
    (hv : ∀ v ∈ f.locals ++ f.operands, v.Sized ∧ v.Proper) :
    Carries enough f.chunks (frame m outer.length innermost) f := by
  obtain ⟨receiver, function, pc, locals, operands⟩ := f
  have hlocals : ∀ v ∈ locals, v.Sized ∧ v.Proper := fun v h =>
    hv v (mem_append_left _ h)
  have hoperands : ∀ v ∈ operands.reverse, v.Sized ∧ v.Proper := fun v h =>
    hv v (mem_append_right _ (mem_reverse.1 h))
  have hlen : operands.reverse.length < 2 ^ 31 := by rw [length_reverse]; exact hs.operands
  refine (receiver_carries _ _).bind ((functionIndex_carries _ _).bind
    ((count_carries hs.pc).bind ((taggedValues_carries hs.locals hlocals).bind
      ((taggedValues_carries hlen hoperands).andThen ?_))))
  cases receiver with
  | script =>
    have hf : Frame.RunsIn m _ := hf
    simp only [reverse_reverse, hf.scriptError?]
    exact .pure _
  | api =>
    obtain ⟨hf, rfl, houter⟩ := hf
    have hindex : (outer.length == 0) = false := by simpa using houter
    simp only [reverse_reverse, hindex, hinner, isEmpty_nil, hf.apiError?]
    exact .pure _

theorem frames_carries (hf : Frame.Stacked m (done ++ fs).reverse) (hs : ∀ f ∈ fs, f.Sized)
    (hv : ∀ f ∈ fs, ∀ v ∈ f.locals ++ f.operands, v.Sized ∧ v.Proper) :
    Carries enough (fs.flatMap Frame.chunks) (frames m done.length fs.length) fs := by
  induction fs generalizing done with
  | nil => exact .pure []
  | cons f fs ih =>
    have hmem := mem_cons_self (a := f) (l := fs)
    have hfits : f.FitsAt m fs.reverse done.reverse := hf _ _ _ (by simp)
    have hlast : (fs.length == 0) = fs.reverse.isEmpty := by cases fs <;> simp
    have hfirst : Carries enough f.chunks (frame m done.length (fs.length == 0)) f := by
      simpa only [length_reverse] using frame_carries hlast hfits (hs f hmem) (hv f hmem)
    have hstacked : Frame.Stacked m ((done ++ [f]) ++ fs).reverse := by
      rw [append_assoc]; exact hf
    have hrest := ih hstacked (forall_mem_cons.1 hs).2 fun g hg =>
      hv g (mem_cons_of_mem _ hg)
    rw [length_append] at hrest
    exact hfirst.bind (hrest.map (f :: ·))

/-! ## Handlers -/

theorem stateIndex_eq (h : n.toNat < m.states.length) (role : StateRole) :
    stateIndex m role (Int32.ofNat n.toNat) = Pure.pure n := by
  have hn := n.toNat_lt
  rw [stateIndex, toInt_ofNat_toNat, if_pos ⟨by omega, by omega, by omega⟩, Int.toNat_natCast,
    UInt16.ofNat_toNat]

theorem ofNat_ne_of_neg (n : UInt16) (hk : k.toInt < 0) : Int32.ofNat n.toNat ≠ k := by
  intro h
  have := toInt_ofNat_toNat n
  rw [h] at this
  omega

theorem pending_carries (h : ∀ s ∈ p, s.toNat < m.states.length) :
    Carries enough (Chunk.taggedWord ((p.map fun s => Int32.ofNat s.toNat).getD (-1))) (pending m)
      p := by
  refine (taggedWord_carries _).andThen ?_
  cases p with
  | none => exact .pure none
  | some s =>
    simp only [Option.map_some, Option.getD_some]
    rw [if_neg (ofNat_ne_of_neg s (by decide)), stateIndex_eq (h s rfl)]
    exact .pure (some s)

theorem phase_carries (h : ∀ s, p = .exiting s → s.toNat < m.states.length) :
    Carries enough (Chunk.taggedWord p.code) (phase m) p := by
  refine (taggedWord_carries _).andThen ?_
  cases p with
  | handler => exact .pure Phase.handler
  | entering => exact .pure Phase.entering
  | exiting s =>
    have h1 : (Phase.exiting s).code ≠ -1 := ofNat_ne_of_neg s (by decide)
    have h2 : (Phase.exiting s).code ≠ -2 := ofNat_ne_of_neg s (by decide)
    have hs : stateIndex m .target (Phase.exiting s).code = Pure.pure s := stateIndex_eq (h s rfl) _
    rw [if_neg h1, if_neg h2, hs]
    exact .pure (Phase.exiting s)

theorem activity_carries (ha : a.Consistent m) (hlen : a.frames.length < 2 ^ 31)
    (hs : ∀ f ∈ a.frames, f.Sized)
    (hv : ∀ f ∈ a.frames, ∀ v ∈ f.locals ++ f.operands, v.Sized ∧ v.Proper) (event : Event) :
    Carries enough a.chunks (activity m event) a := by
  have hstacked : Frame.Stacked m ([] ++ a.frames.reverse).reverse := by simpa using ha.stacked
  have hframes : Carries enough (a.frames.reverse.flatMap Frame.chunks)
      (frames m 0 a.frames.length) a.frames.reverse := by
    simpa using frames_carries hstacked (by simpa using hs) (by simpa using hv)
  refine (pending_carries ha.pending).bind ((phase_carries ha.phase).bind
    ((count_carries hlen).cons (hframes.andThen ?_)))
  have hne : a.frames.reverse.isEmpty = false := by simpa using ha.nonempty
  rw [hne, reverse_reverse]
  exact .pure a

/-! ## Snapshots -/

theorem Event.ofOrdinal?_ordinal : Event.ofOrdinal? e.ordinal = some e := by
  cases e <;> rfl

theorem event_carries (e : Event) : Carries enough [.tag .eventCode, .word e.ordinal] event e := by
  refine (expect_carries .eventCode).cons ((word_carries e.ordinal).andThen ?_)
  rw [Event.ofOrdinal?_ordinal]
  exact .pure e

theorem utf8Len_le (cs : List Char) : String.utf8Len cs ≤ 4 * cs.length := by
  induction cs with
  | nil => simp
  | cons c cs ih =>
    have := c.utf8Size_le_four
    rw [String.utf8Len_cons, length_cons]
    omega

theorem fingerprintText_size (m : Module) : m.fingerprintText.utf8ByteSize < 2 ^ 32 := by
  have hdigits := Nat.toDigits_length 16 _ 16 (by decide) (by have := m.fingerprint.toNat_lt; omega)
  have h := utf8Len_le (replicate (16 - (Nat.toDigits 16 m.fingerprint.toNat).length) '0' ++
    Nat.toDigits 16 m.fingerprint.toNat)
  rw [length_append, length_replicate] at h
  rw [Module.fingerprintText, Word.hex, String.utf8ByteSize_ofList]
  omega

theorem checkIdentity_carries (hv : m.version.toNat < 2 ^ 31) (hn : m.name.utf8ByteSize < 2 ^ 32) :
    Carries enough m.identityChunks (checkIdentity m) () := by
  simp only [Module.identityChunks, append_assoc]
  refine (taggedText_carries hn).bind ((taggedWord_carries _).bind
    ((taggedText_carries (fingerprintText_size m)).andThen ?_))
  have hclamp : (Word.clamp m.version.toNat).toInt = m.version.toNat := by
    unfold Word.clamp Word.least Word.greatest
    rw [if_neg (by omega), if_neg (by omega)]
    exact Int32.toInt_ofInt_of_le (by omega) (by omega)
  have hword : toString (Word.clamp m.version.toNat).toInt = toString m.version.toNat := by
    rw [hclamp]; rfl
  rw [hword, if_pos rfl]
  exact .pure ()

theorem checkGlobals_eq (h : m.globals.Forall₂ (fun g v => g.ty = .object ∨ v.ty = g.ty) globals) :
    checkGlobals m globals = Pure.pure () := by
  rw [checkGlobals, if_neg (not_not_intro h.length_eq.symm), forM_eq_forM]
  generalize m.globals = slots at h
  induction h with
  | nil => rfl
  | @cons g v slots globals hgv _ ih =>
    have hok : ¬(g.ty ≠ .object ∧ v.ty ≠ g.ty) := fun hne => hgv.elim hne.1 hne.2
    rw [zip_cons_cons, forM_cons]
    dsimp only
    rw [if_neg hok, pure_bind]
    exact ih

/-- The reader takes the writes, and nothing but them, for a value. -/
structure Ends {α : Type} (cs : List Chunk) (r : Reader α) (a : α) : Prop where
  unstuck : ∀ c ∈ cs, ∃ bs, c = .bytes bs
  whole : r.run (Chunk.join cs) = .ok (a, [])
  cut (p q : List UInt8) : Chunk.join cs = p ++ q → q ≠ [] → r.run p = .error .truncated
  more (b : UInt8) (rest : List UInt8) :
    r.run (Chunk.join cs ++ b :: rest) = .error (.content .trailing)

theorem Ends.atEnd (a : α) : Ends [] (do
      if !(← get).isEmpty then fail .trailing
      return a) a where
  unstuck := nofun
  whole := rfl
  cut _ _ h hq := absurd (append_eq_nil_iff.1 h.symm).2 hq
  more _ _ := rfl

theorem Carries.run_bind (h : Carries True cs r a) (rest : List UInt8) :
    (r >>= f).run (Chunk.join cs ++ rest) = (f a).run rest := by
  obtain hr | ⟨hn, -⟩ := h.whole rest
  · exact run_bind_ok hr
  · exact absurd trivial hn

theorem Carries.ends (h : Carries True cs r a) (h' : Ends cs' (f a) b) :
    Ends (cs ++ cs') (r >>= f) b := by
  constructor
  · exact forall_mem_append.2 ⟨h.unstuck, h'.unstuck⟩
  · rw [Chunk.join_append, h.run_bind, h'.whole]
  · exact h.cut_bind h'.cut
  · intro c rest
    rw [Chunk.join_append, append_assoc, h.run_bind, h'.more]

theorem snapshot_ends_of_lt (hv : m.version.toNat < 2 ^ 31)
    (hn : m.name.utf8ByteSize < 2 ^ 32) (hc : s.Consistent m) (hs : s.Sized) :
    Ends (s.chunks m) (snapshot m) s := by
  have hvalues {v : Value} (h : v ∈ s.values) : v.Sized ∧ v.Proper := ⟨hs.values v h, hc.proper v h⟩
  have hargs : ∀ v ∈ s.eventArgs, v.Sized ∧ v.Proper := fun v h =>
    hvalues (by simp [Snapshot.values, h])
  have hglobals : ∀ v ∈ s.globals, v.Sized ∧ v.Proper := fun v h =>
    hvalues (by simp [Snapshot.values, h])
  have hactive := hc.active
  have hactivity : ∀ a ∈ s.active, Carries True a.chunks (activity m s.event) a := fun a ha =>
    activity_carries (hc.activity a ha) (hs.depth a ha) (hs.frames a ha) (fun f hf v h =>
      hvalues (mem_append_right _ (mem_flatMap.2
        ⟨f, by rwa [Option.mem_def.1 ha], h⟩))) s.event
  obtain ⟨n, hstate, hlt⟩ := hc.state
  simp only [Snapshot.chunks, append_assoc]
  refine (byte_carries streamVersion).ends ?_
  refine (checkIdentity_carries hv hn).ends ((taggedWord_carries s.state).ends ?_)
  rw [hstate, stateIndex_eq hlt, pure_bind, ← hstate]
  refine (event_carries s.event).ends ?_
  rw [if_neg hc.event_ne_garbage]
  refine (taggedWord_carries _).ends ((taggedWord_carries _).ends
    ((taggedValues_carries hs.eventArgs hargs).ends
      ((taggedValues_carries hs.globals hglobals).ends ?_)))
  rw [checkGlobals_eq hc.globals, pure_bind]
  obtain ⟨state, event, memUsage, memLimit, eventArgs, globals, active⟩ := s
  cases active with
  | none =>
    have hevent : event = .none := by
      by_contra h
      exact absurd (hactive.2 h) (by simp)
    rw [if_pos hevent]
    exact (Carries.pure none).ends (Ends.atEnd _)
  | some a =>
    have hevent : event ≠ .none := hactive.1 rfl
    rw [if_neg hevent, map_eq_pure_bind, ← append_nil (Option.getD _ _)]
    refine ((hactivity a rfl).map some).ends ?_
    exact Ends.atEnd _

theorem snapshot_ends (hv : m.version = 1) (hn : m.name.utf8ByteSize < 2 ^ 32)
    (hc : s.Consistent m) (hs : s.Sized) : Ends (s.chunks m) (snapshot m) s :=
  snapshot_ends_of_lt (by rw [hv]; decide) hn hc hs

end Reader

/-! ## Sinks -/

theorem Sink.take_accepting {sink : Sink} (h : ∀ taken bs, sink.refuses taken bs = none)
    (hcs : ∀ c ∈ cs, ∃ bs, c = .bytes bs) (taken : List UInt8) :
    sink.take taken cs = ((Chunk.join cs).reverse ++ taken, none) := by
  induction cs generalizing taken with
  | nil => rw [take, h]; rfl
  | cons c cs ih =>
    obtain ⟨bs, rfl⟩ := hcs c mem_cons_self
    have ih := ih (forall_mem_cons.1 hcs).2
    cases bs with
    | nil => rw [take, ih]; rfl
    | cons b bs =>
      rw [take, h]
      simp [ih, Chunk.content]

theorem Snapshot.send_accepting {m : Module} {s : Snapshot}
    (h : ∀ taken bs, sink.refuses taken bs = none) (hs : ∀ c ∈ s.chunks m, ∃ bs, c = .bytes bs) :
    s.send m sink = ⟨sink.id, Chunk.join (s.chunks m), none⟩ := by
  rw [send, Sink.take_accepting h hs]
  simp

/-- A sink that takes every write gets a stream from which the snapshot is read. All that is less
is cut short, and whatever follows is noticed. -/
theorem Snapshot.stream_exact {m : Module} {s : Snapshot} {sink : Sink} (hv : m.version = 1)
    (hn : m.name.utf8ByteSize < 2 ^ 32) (hc : s.Consistent m) (hs : s.Sized)
    (hsink : ∀ taken bs, sink.refuses taken bs = none) :
    ∃ bytes, s.send m sink = ⟨sink.id, bytes, none⟩ ∧ ofBytes m bytes = .ok s ∧
      (∀ p, p <+: bytes → p ≠ bytes → ofBytes m p = .error .truncated) ∧
      ∀ b rest, ofBytes m (bytes ++ b :: rest) = .error (.content .trailing) := by
  have h := Reader.snapshot_ends hv hn hc hs
  refine ⟨_, send_accepting hsink h.unstuck, ?_, ?_, ?_⟩
  · rw [ofBytes, StateT.run'_eq, h.whole]; rfl
  · rintro p ⟨q, hpq⟩ hne
    have hq : q ≠ [] := fun hq => hne (by rw [← hpq, hq, append_nil])
    rw [ofBytes, StateT.run'_eq, h.cut p q hpq.symm hq]; rfl
  · intro b rest
    rw [ofBytes, StateT.run'_eq, h.more]; rfl

/-- A script with one global variable and one function that has a parameter. -/
def relayModule : Module where
  version := 1
  name := "relay"
  fingerprint := 0x6c78e0e3bd51f1d9
  arrays := true
  constants := #[]
  globals := [⟨"seen", .array⟩]
  init := 0
  functions := #[⟨"relay", .script, [.integer], .void, 2, #[.checkRun, .ret], #[⟨1, 1⟩, ⟨1, 1⟩]⟩]
  states := ["default", "away"]
  dispatch := []

/-- The script waits for the end of a call while it leaves its state; a list and an array are in
an array. -/
def relaySnapshot : Snapshot where
  state := 0
  event := .touchStart
  memUsage := -1
  memLimit := 65536
  eventArgs := [.integer 1]
  globals := [.array [(.string "é", .list [.array [(.float ⟨0x7ff8000000000001⟩, .key "")]]),
    (.integer 3, .bool true)]]
  active := some ⟨some 1, .exiting 1,
    [.waiting 4 [.string "x"], ⟨.script, 0, 1, [.integer 1, .undefined], [.list []]⟩]⟩

theorem relaySnapshot_values : relaySnapshot.values = [.integer 1,
    .array [(.string "é", .list [.array [(.float ⟨0x7ff8000000000001⟩, .key "")]]),
      (.integer 3, .bool true)], .string "x", .integer 1, .undefined, .list []] := rfl

theorem relaySnapshot_consistent : relaySnapshot.Consistent relayModule where
  state := ⟨0, rfl, by decide⟩
  event := .inr (by decide)
  active := by decide
  globals := .cons (.inr rfl) .nil
  activity a ha := by
    cases ha
    refine ⟨?_, ?_, cons_ne_nil _ _, ?_⟩
    · rintro s ⟨⟩; decide
    · rintro s ⟨⟩; decide
    rintro (_ | ⟨f, _ | ⟨g, inner⟩⟩) h outer hfs
    · cases hfs
      exact ⟨⟨_, rfl, rfl, rfl, rfl⟩, rfl, cons_ne_nil _ _⟩
    · cases hfs
      exact ⟨_, rfl, by decide, rfl⟩
    · simp at hfs
  proper := by
    rw [relaySnapshot_values]
    simp [Value.Proper, Value.All, Value.AllIn, Value.AllOf, Value.IsMap]

theorem relaySnapshot_sized : relaySnapshot.Sized where
  eventArgs := by decide
  globals := by decide
  depth a ha := by cases ha; decide
  frames a ha f hf := by
    cases ha
    simp at hf
    obtain rfl | rfl := hf <;> exact ⟨by decide, by decide, by decide⟩
  values := by
    rw [relaySnapshot_values]
    simp [Value.Sized, Value.All, Value.AllIn, Value.AllOf, Value.Fits, ArrayKey.Fits]
    decide

theorem relay_stream : relayModule.version = 1 ∧ relaySnapshot.Consistent relayModule ∧
    relaySnapshot.Sized ∧ ∃ bytes, relaySnapshot.send relayModule (.accepting 0) = ⟨0, bytes, none⟩ ∧
      Snapshot.ofBytes relayModule bytes = .ok relaySnapshot ∧
      (∀ p, p <+: bytes → p ≠ bytes → Snapshot.ofBytes relayModule p = .error .truncated) ∧
      ∀ b rest, Snapshot.ofBytes relayModule (bytes ++ b :: rest) = .error (.content .trailing) :=
  ⟨rfl, relaySnapshot_consistent, relaySnapshot_sized,
    @Snapshot.stream_exact relayModule relaySnapshot (.accepting 0) rfl (by decide)
      relaySnapshot_consistent relaySnapshot_sized fun _ _ => rfl⟩

end EventScript
