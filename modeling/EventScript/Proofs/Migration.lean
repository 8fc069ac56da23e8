import EventScript.Proofs.Soundness

/-!
# Exact migration

An instance at rest can be written, and what was written is a stream that a new instance takes its
place from (`Instance.migration_exact`). The reader finds no fault with it: the snapshot of an
instance of a compiled module is one of the module (`Annotation.consistent`).
-/

namespace EventScript

open Option

namespace Instance

variable {i k : Instance}

theorem requestMigration_eq (hrest : i.isAtRest = true) (sink : Sink) :
    i.requestMigration sink = ((i.snapshot.send i.module sink).error, { i with
      requests := i.requests.settle (some (i.snapshot.send i.module sink)) }) := by
  have hstatus : i.status ≠ .disposed := by
    intro h
    rw [isAtRest, h] at hrest
    cases hrest
  unfold requestMigration flush
  rw [if_neg hstatus]
  exact if_pos (Bool.and_eq_true_iff.2 ⟨hrest, rfl⟩)

theorem migrateIn_eq (hidle : k.status = .idle) (h : Snapshot.ofBytes k.module bytes = .ok s) :
    k.migrateIn bytes = (.ok (k.restore s).status, k.restore s) := by
  unfold migrateIn
  rw [if_pos hidle, h]

end Instance

namespace Regime.Stands

variable {R : Regime}

theorem module (h : R.Stands m settings i) (hrest : i.isAtRest = true) : i.module = m := by
  obtain h | h | h := h
  · exact h.module
  · exact h.module
  · rw [Instance.isAtRest, h] at hrest
    cases hrest

theorem rests (h : R.Stands m settings i) (hidle : i.status = .idle) : R.Rests m settings i := by
  obtain h | h | h := h
  · exact h
  · exact absurd (hidle.symm.trans h.status) (by decide)
  · exact absurd (hidle.symm.trans h) (by decide)

end Regime.Stands

/-- Migration is exact. An instance of a script that tests no types, with texts and collections of
lengths that can be written, is written completely while it rests, and is otherwise unchanged. A new
instance that reads the stream is then the same, but for who asks what of it. -/
theorem Instance.migration_exact {source name : String} {script : Script} {m : Module}
    {settings : Settings} {i k : Instance} {sink : Sink} {fuel : Nat}
    (hs : Script.ofSource source = .ok script) (htests : script.tests = false)
    (hm : Module.ofSource source name = .ok m) (hi : Reachable m settings Env.Typed AllProper i)
    (hrest : i.isAtRest = true) (hsized : i.snapshot.Sized) (hname : m.name.utf8ByteSize < 2 ^ 32)
    (hsink : ∀ taken bs, sink.refuses taken bs = none)
    (hk : Instance.new m settings fuel = some (.ok k)) :
    ∃ bytes,
      i.requestMigration sink = (none, { i with
        requests := (i.requests.post (.migrate sink)).settle (some ⟨sink.id, bytes, none⟩) }) ∧
      k.migrateIn bytes =
        (.ok i.status, { i with alwaysSuspend := k.alwaysSuspend, requests := k.requests }) := by
  obtain ⟨Y, Inv, -, hP, -, -, hversion, hkept⟩ := Module.ofSource_kept hs (fun _ => htests) hm
  have hR := hkept settings
  have hstands := hR.stands hi
  have hfresh : ((m.types Y Inv).regime m).Rests m settings k :=
    (hR.stands (.new hk)).rests (Instance.new_rests hk).2.1
  have hconsistent := Annotation.consistent hP hstands hrest
  have hread := Reader.snapshot_ends hversion hname hconsistent hsized
  have hsend := Snapshot.send_accepting hsink hread.unstuck
  refine ⟨Chunk.join (i.snapshot.chunks m), ?_, ?_⟩
  · rw [requestMigration_eq hrest, hstands.module hrest, hsend]
    rfl
  · rw [migrateIn_eq hfresh.status (s := i.snapshot), hfresh.restore_snapshot hstands hrest]
    rw [hfresh.module, Snapshot.ofBytes, StateT.run'_eq, hread.whole]
    rfl

def walker : String :=
  "XMROption arrays; array seen; integer total;
   add(object o) \x7b total += (integer)o; llSleep(1.0); \x7d
   default \x7b touch_start(integer c) \x7b
     seen[\"a\"] = c; seen[2] = <1, 2, 3>; seen[3] = [\"b\", 4.5];
     object k; object v;
     foreach (k, v in seen) add(c);
   \x7d \x7d"

set_option maxRecDepth 10000 in
/-- The walker migrates while it sleeps, in the middle of a loop over an array with two calls
active. -/
theorem walker_migrates :
    Script.Sample walker "walker" 100 fun script _ i =>
      ∃ i' w' bytes, script.tests = false ∧
      i.startIn (Host.recording.env false) 100 .touchStart [.integer 7] (Recorder.yielding {}) =
        some ((.ok .suspended, i'), w') ∧ i'.status = .suspended ∧ i'.machine.frames.length = 3 ∧
      i'.requestMigration (.accepting 1) = (none, { i' with
        requests := (i'.requests.post (.migrate (.accepting 1))).settle (some ⟨1, bytes, none⟩) }) ∧
      i.migrateIn bytes = (.ok i'.status,
        { i' with alwaysSuspend := i.alwaysSuspend, requests := i.requests }) := by
  refine .of_test (fun script m i =>
      ∃ x ∈ i.startIn (Host.recording.env false) 100 .touchStart [.integer 7]
        (Recorder.yielding {}),
        script.tests = false ∧ x.1.1 = .ok .suspended ∧ x.1.2.status = .suspended ∧
        x.1.2.machine.frames.length = 3 ∧
        (x.1.2.snapshot.send m (.accepting 1)).error = none) ?_
  rintro script m i hs hm hmade ⟨⟨⟨_, i'⟩, w'⟩, hstart, htests, rfl, hstatus, hframes, hsend⟩
  have hargs : AllProper [.integer 7] := fun v hv => by
    rw [List.mem_singleton.1 hv]
    exact trivial
  have hi' : Instance.Reachable m {} Env.Typed AllProper i' :=
    .start (.new hmade) (Host.recording_typed.env false) hargs hstart
  obtain ⟨hsized, hname⟩ := Snapshot.sized_of_send hsend
  obtain ⟨bytes, hrequest, hmigrate⟩ := @Instance.migration_exact _ _ _ _ _ _ _ (.accepting 1) _ hs
    htests hm hi' (by rw [Instance.isAtRest, hstatus]; rfl) hsized hname (fun _ _ => rfl) hmade
  exact ⟨i', w', bytes, htests, hstart, hstatus, hframes, hrequest,
    hmigrate⟩

end EventScript
