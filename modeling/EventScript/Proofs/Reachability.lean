import EventScript.Compile
import EventScript.Proofs.Lexing
import EventScript.Proofs.Stops

/-!
# Reachable instances

The instances that come about by running a module: one is made, handles events, is suspended and
goes on, is written to a sink, and takes the place of another that was written
(`Instance.Reachable`). An idle one has no active calls (`Instance.Reachable.frames_of_idle`).
-/

namespace EventScript

open Option

theorem Script.ofSource_ofList (cs : List Char) :
    Script.ofSource (String.ofList cs) = (TokenStream.ofChars cs).bind Script.ofTokens :=
  congrArg (·.bind Script.ofTokens) (TokenStream.ofSource_ofList cs)

/-- A text is a script of which an instance can be made, and `P` is so of them. -/
def Script.Sample (source name : String) (fuel : Nat) (P : Script → Module → Instance → Prop) :
    Prop :=
  ∃ script m i, Script.ofSource source = .ok script ∧ Module.ofSource source name = .ok m ∧
    Instance.new m {} fuel = some (.ok i) ∧ P script m i

def Script.sample? (cs : List Char) (source name : String) (fuel : Nat) :
    Option (Script × Module × Instance) :=
  ((TokenStream.ofChars cs).bind Script.ofTokens).toOption.bind fun script =>
    (Module.ofScript script source name).toOption.bind fun m =>
      (Instance.new m {} fuel).bind fun made => made.toOption.map fun i => (script, m, i)

/-- To show something of a sample it is enough to evaluate a test that implies it. -/
theorem Script.Sample.of_test {Q : Script → Module → Instance → Prop}
    (P : Script → Module → Instance → Prop)
    (hQ : ∀ script m i, Script.ofSource source = .ok script → Module.ofSource source name = .ok m →
      Instance.new m {} fuel = some (.ok i) → P script m i → Q script m i)
    (hsource : source = .ofList cs := by exact rfl)
    (h : ∃ a ∈ Script.sample? cs source name fuel, P a.1 a.2.1 a.2.2 := by decide +kernel) :
    Script.Sample source name fuel Q := by
  obtain ⟨a, h, hP⟩ := h
  obtain ⟨script, hs, h⟩ := bind_eq_some_iff.1 h
  obtain ⟨m, hm, h⟩ := bind_eq_some_iff.1 h
  obtain ⟨_, hmade, h⟩ := bind_eq_some_iff.1 h
  obtain ⟨i, hi, rfl⟩ := map_eq_some_iff.1 h
  rw [← Script.ofSource_ofList, ← hsource] at hs
  have hs := eq_ok_of_toOption hs
  have hm : Module.ofSource source name = .ok m := by
    rw [Module.ofSource, hs]
    exact eq_ok_of_toOption hm
  have hmade := eq_ok_of_toOption hi ▸ hmade
  exact ⟨script, m, i, hs, hm, hmade, hQ script m i hs hm hmade hP⟩

namespace Instance

variable {σ : Type}

/-- A kind of environments. -/
abbrev Allows := ∀ {σ : Type}, Env (Surroundings σ) → Prop

variable (m : Module) (settings : Settings) (Allowed : Allows) (Given : List Value → Prop) in
/-- The instances of a module that come about in environments of a kind, with event arguments of
a kind. -/
inductive Reachable : Instance → Prop
  | new : Instance.new m settings fuel = some (.ok i) → Reachable i
  | start {σ : Type} {env : Env (Surroundings σ)} {fuel : Nat} {i i' : Instance} {event : Event}
      {args : List Value} {w w' : σ} {r : Except PlacedFault Status} :
      Reachable i → Allowed env → Given args →
      i.startIn env fuel event args w = some ((r, i'), w') → Reachable i'
  | resume {σ : Type} {env : Env (Surroundings σ)} {fuel : Nat} {i i' : Instance} {w w' : σ}
      {r : Except PlacedFault Status} : Reachable i → Allowed env →
      i.resumeIn env fuel w = some ((r, i'), w') → Reachable i'
  | requestSuspend : Reachable i → Reachable i.requestSuspend
  | requestMigration (sink : Sink) : Reachable i → Reachable (i.requestMigration sink).2
  /-- An instance takes the place of one that was written completely. -/
  | migrateIn : Reachable i → Reachable j → j.isAtRest = true →
      (j.snapshot.send m sink).error = none →
      Reachable (i.migrateIn (j.snapshot.send m sink).bytes).2
  | dispose : Reachable i → Reachable i.dispose

/-- The instances of a module that come about in any environments, with any event arguments. -/
abbrev Arises (m : Module) (settings : Settings) : Instance → Prop :=
  Reachable m settings (fun _ => True) (fun _ => True)

/-! ## Idle instances -/

/-- An idle instance has no active calls. -/
def Quiet (i : Instance) : Prop := i.status = .idle → i.machine.frames = []

variable {i : Instance}

theorem settled_quiet (h : i.Quiet) : i.settled.2.Quiet := by
  obtain ⟨q, hq⟩ := settled_eq i
  rw [hq]; exact h

theorem failed_quiet : (i.failed f).2.Quiet := by
  obtain ⟨q, hq⟩ := failed_eq i f
  rw [hq]; exact fun _ => rfl

theorem conclude_advances_quiet (hi : i.machine.frames = []) (ha : Advances i a) :
    (conclude a).Meets (fun _ => True) (·.2.Quiet) := by
  cases ha with
  | rests _ => exact settled_quiet fun _ => hi
  | calls _ _ _ _ => trivial
  | refuses _ _ _ | nests _ => exact failed_quiet

theorem conclude_reset_quiet (h : i.reset fuel = some a) :
    (conclude a).Meets (fun _ => True) (·.2.Quiet) := by
  cases reset_resets h with
  | fails _ | refuses _ _ _ => exact failed_quiet
  | rests hb => exact settled_quiet fun _ => Machine.boot_leaves hb
  | calls _ _ _ => trivial

variable {env : Env (Surroundings σ)}

theorem react_quiet (hr : i.machine.run env i.module fuel ⟨w, i.requests⟩ = some (e, s, ws))
    (hp : (i.ran s ws.requests).react fuel e = some p) :
    p.Meets (fun _ => True) (·.2.Quiet) := by
  have hl := Machine.run_leaves hr
  cases e with
  | completed v =>
    cases hp
    exact conclude_advances_quiet (by exact hl) (advance_advances _)
  | suspended => cases hp; exact settled_quiet nofun
  | fault f => cases hp; exact failed_quiet
  | signal x =>
    cases x with
    | reset =>
      obtain ⟨a, ha, rfl⟩ := map_eq_some_iff.1 hp
      exact conclude_reset_quiet ha
    | terminate => cases hp; exact fun _ => rfl

theorem executeIn_quiet (h : executeIn env fuel i w = some ((r, i'), w')) : i'.Quiet :=
  executeIn_induct (fun _ => True) (·.2.Quiet) (fun _ => react_quiet) trivial h

theorem startIn_quiet {event : Event} (hi : i.Quiet)
    (h : i.startIn env fuel event args w = some ((r, i'), w')) : i'.Quiet := by
  have hs := startIn_starts env fuel i event args w
  rw [h] at hs
  generalize ho : some ((r, i'), w') = o at hs
  cases hs with
  | refuses _ | undelivered _ _ | unhandled _ _ | uncalled _ _ _ _ => cases ho; exact hi
  | calls _ _ _ _ => exact executeIn_quiet ho.symm

theorem migrateIn_quiet (hi : i.Quiet) : (i.migrateIn bytes).2.Quiet := by
  unfold migrateIn
  split
  · split
    · exact nofun
    rename_i s _
    unfold restore
    cases s.active with
    | none => exact fun _ => rfl
    | some a => exact nofun
  · exact hi

variable {Allowed : Allows}

theorem Reachable.quiet (h : Reachable m settings Allowed Given i) : i.Quiet := by
  induction h with
  | new hn =>
    obtain ⟨⟨result, machine, u⟩, hb, hr⟩ := map_eq_some_iff.1 hn
    cases result with
    | error e => cases hr
    | ok u => cases hr; exact fun _ => Machine.boot_leaves hb
  | start _ _ _ h ih => exact startIn_quiet ih h
  | resume _ _ h ih =>
    unfold resumeIn at h
    split at h
    · exact executeIn_quiet h
    · cases h; exact ih
  | requestSuspend _ ih => exact ih
  | requestMigration sink _ ih =>
    obtain ⟨q, hq⟩ := requestMigration_snd _ sink
    rw [hq]; exact ih
  | migrateIn _ _ _ _ ih _ => exact migrateIn_quiet ih
  | dispose _ _ => exact nofun

theorem Reachable.frames_of_idle (h : Reachable m settings Allowed Given i)
    (hi : i.status = .idle) : i.machine.frames = [] := h.quiet hi

theorem new_requests (h : Instance.new m settings fuel = some (.ok i)) : i.requests = {} := by
  obtain ⟨⟨result, machine, u⟩, -, hr⟩ := map_eq_some_iff.1 h
  cases result with
  | error e => cases hr
  | ok u => cases hr; rfl

end Instance

end EventScript
