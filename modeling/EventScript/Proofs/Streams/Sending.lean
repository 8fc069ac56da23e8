import EventScript.Proofs.Streams.Snapshots

/-!
# Sending snapshots

A sink that got a snapshot without an error has the bytes of all its writes, and the lengths of
what was written fit into words (`Snapshot.sized_of_send`). So what an instance wrote is what is
read back (`Snapshot.ofBytes_send`).
-/

namespace EventScript

open List hiding all
open Option

namespace Chunk

/-- Nothing in the writes is too long to be written. -/
def Clear (cs : List Chunk) : Prop := ∀ c ∈ cs, ∃ bs, c = .bytes bs

theorem clear_cons : Clear (c :: cs) ↔ (∃ bs, c = .bytes bs) ∧ Clear cs := forall_mem_cons

theorem clear_append : Clear (cs ++ cs') ↔ Clear cs ∧ Clear cs' :=
  forall_mem_append

theorem lt_of_count (h : ∃ bs, count n = .bytes bs) : n < 2 ^ 31 := by
  unfold count at h
  split at h
  · assumption
  · obtain ⟨bs, h⟩ := h
    cases h

theorem lt_of_text (h : Clear (text s)) : s.utf8ByteSize < 2 ^ 32 := by
  rw [← utf8_length]
  unfold text at h
  dsimp only at h
  split at h
  · assumption
  · obtain ⟨bs, h⟩ := h _ mem_cons_self
    cases h

theorem fits_of_arrayKey (h : Clear (arrayKey k)) : k.Fits := by
  cases k with
  | string s | key s => exact lt_of_text (clear_cons.1 h).2
  | _ => trivial

theorem clear_values (h : Clear (values vs)) : ∀ v ∈ vs, Clear (value v) := by
  rw [Chunk.values_eq] at h
  exact fun v hv c hc => h c (mem_flatMap.2 ⟨v, hv, hc⟩)

theorem clear_entries (h : Clear (entries es)) :
    ∀ e ∈ es, Clear (arrayKey e.1) ∧ Clear (value e.2) := by
  induction es with
  | nil => nofun
  | cons e es ih =>
    obtain ⟨k, v⟩ := e
    rw [entries, clear_append, clear_append] at h
    exact forall_mem_cons.2 ⟨⟨h.1, h.2.1⟩, ih h.2.2⟩

theorem sized_of_value (h : Clear (value v)) : v.Sized := by
  induction v using Value.induct with
  | undefined | bool b => trivial
  | key k =>
    rw [Chunk.value_toValue] at h
    have hk := fits_of_arrayKey h
    cases k <;> exact hk
  | list vs ih =>
    rw [value, clear_cons, clear_cons] at h
    exact Value.all_list.2 ⟨lt_of_count h.2.1, fun v hv => ih v hv (clear_values h.2.2 v hv)⟩
  | array es ih =>
    rw [value, clear_cons, clear_cons] at h
    have hentries := clear_entries h.2.2
    exact Value.all_array.2 ⟨⟨lt_of_count h.2.1, fun e he => fits_of_arrayKey (hentries e he).1⟩,
      fun e he => ih e he (hentries e he).2⟩

theorem sized_of_taggedValues (h : Clear (taggedValues vs)) :
    vs.length < 2 ^ 31 ∧ ∀ v ∈ vs, v.Sized := by
  rw [taggedValues, clear_cons, clear_cons] at h
  exact ⟨lt_of_count h.2.1, fun v hv => sized_of_value (clear_values h.2.2 v hv)⟩

end Chunk

open Chunk

theorem Frame.sized_of_chunks {f : Frame} (h : Clear f.chunks) :
    f.Sized ∧ ∀ v ∈ f.locals ++ f.operands, v.Sized := by
  unfold Frame.chunks at h
  simp only [clear_append] at h
  obtain ⟨⟨⟨-, hpc⟩, hlocals⟩, hoperands⟩ := h
  obtain ⟨hl, hlocals⟩ := sized_of_taggedValues hlocals
  obtain ⟨ho, hoperands⟩ := sized_of_taggedValues hoperands
  rw [length_reverse] at ho
  refine ⟨⟨lt_of_count (hpc _ mem_cons_self), hl, ho⟩, fun v hv => ?_⟩
  rcases mem_append.1 hv with hv | hv
  · exact hlocals v hv
  · exact hoperands v (mem_reverse.2 hv)

variable {s : Snapshot}

theorem Snapshot.sized_of_chunks (h : Clear (s.chunks m)) :
    s.Sized ∧ m.name.utf8ByteSize < 2 ^ 32 := by
  unfold Snapshot.chunks Module.identityChunks at h
  simp only [clear_cons, clear_append] at h
  obtain ⟨-, ⟨⟨⟨⟨⟨⟨⟨⟨⟨hname, -⟩, -⟩, -⟩, -⟩, -⟩, -⟩, hargs⟩, hglobals⟩, hactive⟩⟩ := h
  obtain ⟨ha, hargs⟩ := sized_of_taggedValues hargs
  obtain ⟨hg, hglobals⟩ := sized_of_taggedValues hglobals
  have hframes : ∀ a ∈ s.active, a.frames.length < 2 ^ 31 ∧
      ∀ f ∈ a.frames, f.Sized ∧ ∀ v ∈ f.locals ++ f.operands, v.Sized := by
    intro a ha
    rw [mem_def.1 ha, map_some, getD_some, Activity.chunks, clear_append, clear_cons] at hactive
    refine ⟨lt_of_count hactive.2.1, fun f hf => Frame.sized_of_chunks fun c hc => ?_⟩
    exact hactive.2.2 c (mem_flatMap.2 ⟨f, mem_reverse.2 hf, hc⟩)
  refine ⟨⟨ha, hg, fun a h => (hframes a h).1, fun a h f hf => ((hframes a h).2 f hf).1, ?_⟩,
    lt_of_text (clear_cons.1 hname).2⟩
  intro v hv
  unfold Snapshot.values at hv
  simp only [mem_append, mem_flatMap] at hv
  rcases hv with (hv | hv) | ⟨f, hf, hv⟩
  · exact hargs v hv
  · exact hglobals v hv
  cases hs : s.active with
  | none => rw [hs] at hf; cases hf
  | some a =>
    rw [hs] at hf
    exact ((hframes a hs).2 f hf).2 v (mem_append.2 hv)

/-! ## Sinks -/

variable {sink : Sink}

theorem Sink.take_whole
    (h : sink.take taken cs = (all, none)) : Clear cs ∧ all = (Chunk.join cs).reverse ++ taken := by
  induction cs generalizing taken with
  | nil => exact ⟨forall_mem_nil _, (Prod.mk.inj h).1.symm⟩
  | cons c cs ih =>
    cases c with
    | stuck reason => cases h
    | bytes bs =>
      cases bs with
      | nil =>
        obtain ⟨hclear, rfl⟩ := ih h
        exact ⟨clear_cons.2 ⟨⟨[], rfl⟩, hclear⟩, rfl⟩
      | cons b bs =>
        rw [take.eq_4] at h
        split at h
        · cases h
        · obtain ⟨hclear, rfl⟩ := ih h
          exact ⟨clear_cons.2 ⟨⟨_, rfl⟩, hclear⟩, by simp [Chunk.content]⟩

theorem Snapshot.bytes_of_send (h : (s.send m sink).error = none) :
    Clear (s.chunks m) ∧ (s.send m sink).bytes = Chunk.join (s.chunks m) := by
  unfold send at h ⊢
  generalize ht : sink.take [] (s.chunks m) = r at h ⊢
  obtain ⟨all, error⟩ := r
  cases h
  obtain ⟨hclear, rfl⟩ := Sink.take_whole ht
  exact ⟨hclear, by simp⟩

theorem Snapshot.sized_of_send (h : (s.send m sink).error = none) :
    s.Sized ∧ m.name.utf8ByteSize < 2 ^ 32 :=
  sized_of_chunks (bytes_of_send h).1

/-- What was written completely is read back. -/
theorem Snapshot.ofBytes_send (hv : m.version = 1) (hc : s.Consistent m)
    (h : (s.send m sink).error = none) : ofBytes m (s.send m sink).bytes = .ok s := by
  obtain ⟨hs, hn⟩ := sized_of_send h
  rw [(bytes_of_send h).2, ofBytes, StateT.run'_eq, (Reader.snapshot_ends hv hn hc hs).whole]
  rfl

end EventScript
