import EventScript.Proofs.Interpretation.Modules

/-!
# Compiled handlers agree with the interpretation

A machine that has entered the handler of an event comes to the outcome that the interpretation of the
handler comes to, and to none if there is none (`Interp.comesTo_iff_handle`). A machine that is cut
off is left out: one that is suspended or reaches a limit.

1. Outcomes of runs.
2. A machine that follows an interpretation to its end has its outcome. If a state has been asked for,
   the functions are left without an effect.
3. The calls of the library are part of the outcome if the host writes them down.
-/

namespace EventScript

open List Option

open Compile

/-! ## Outcomes of runs -/

/-- How a run ends, without the value that is returned and the place of a fault. -/
def Exit.ending : Exit → Interp.Ending
  | .completed _ => .returned
  | .suspended => .suspended
  | .fault f => .fault f.fault
  | .signal x => .signal x

def Halt.ending : Halt → Interp.Ending
  | .completed _ => .returned
  | .suspended => .suspended
  | .fault f => .fault f
  | .signal x => .signal x

theorem Machine.exit_ending : (exit m s why).ending = why.ending := by cases why <;> rfl

theorem Machine.Reaches.run (h : Reaches env m s w s' w') (hr : run env m fuel s' w' = some r) : ∃
    fuel, run env m fuel s w = some r := by
  induction h with
  | refl => exact ⟨fuel, hr⟩
  | next hstep _ ih =>
    obtain ⟨fuel', hrun⟩ := ih hr
    exact ⟨fuel' + 1, by rw [run_succ, hstep]; exact hrun⟩

namespace Interp

variable {ω : Type}

def Ending.isCut : Ending → Bool
  | .suspended => true
  | .fault f => f.isLimit
  | _ => false

def Outcome.ofRun (r : Exit × Machine × ω) : Outcome ω :=
  ⟨r.1.ending, r.2.1.globals, r.2.1.pending.map UInt16.toNat, r.2.2⟩

def ComesTo (env : Env ω) (m : Module) (s : Machine) (w : ω) (o : Outcome ω) : Prop :=
  ∃ fuel, (Machine.run env m fuel s w).map Outcome.ofRun = some o

def Uncut (env : Env ω) (m : Module) (s : Machine) (w : ω) : Prop :=
  ∀ o, ComesTo env m s w o → o.ending.isCut = false

open Machine

variable {s s' : Machine} {w w1 w' : ω}

theorem ComesTo.of_reaches (h : ComesTo env m s1 w1 o) (hreach : Reaches env m s w s1 w1) :
    ComesTo env m s w o := by
  obtain ⟨fuel, h⟩ := h
  obtain ⟨r, hr, rfl⟩ := map_eq_some_iff.1 h
  obtain ⟨fuel', hrun⟩ := hreach.run hr
  exact ⟨fuel', by rw [hrun]; rfl⟩

theorem ComesTo.of_halt (h : step env m s w = .halt why s' w') :
    ComesTo env m s w ⟨why.ending, s'.globals, s'.pending.map UInt16.toNat, w'⟩ := by
  refine ⟨1, ?_⟩
  rw [run_succ, h, ← exit_ending]
  rfl

theorem ComesTo.unique (h : ComesTo env m s w o) (h' : ComesTo env m s w o') : o = o' := by
  obtain ⟨fuel, h⟩ := h
  obtain ⟨fuel', h'⟩ := h'
  obtain ⟨r, hr, rfl⟩ := map_eq_some_iff.1 h
  obtain ⟨r', hr', rfl⟩ := map_eq_some_iff.1 h'
  have hmax := (run_mono hr (Nat.le_max_left fuel fuel')).symm.trans
    (run_mono hr' (Nat.le_max_right fuel fuel'))
  rw [some.inj hmax]

theorem Uncut.halt (h : Uncut env m s w) (hreach : Reaches env m s w s1 w1)
    (hstep : step env m s1 w1 = .halt why s' w') : why.cuts = false := by
  have hcut := h _ ((ComesTo.of_halt hstep).of_reaches hreach)
  cases why <;> exact hcut

/-! ## Machines that follow an interpretation to its end -/

theorem Stops.comes {globals : Vars} (h : Stops env m why globals w' s w) :
    ComesTo env m s w ⟨why.ending, globals.values, none, w'⟩ := by
  obtain ⟨s', hstep, hglobals, hpending⟩ := h
  have hhalt := ComesTo.of_halt hstep
  rwa [hglobals, hpending] at hhalt

/-- The machine comes to the outcome of an interpretation that is abandoned. -/
theorem Reason.Shown.comes {why : Reason} {globals : Vars}
    (h : why.Shown env m globals w' s w) (hs : Poised m s.pending s.frames) :
    ComesTo env m s w (why.outcome globals w') := by
  cases why with
  | fault f | signal x | suspended => exact Stops.comes h
  | changed t =>
    -- the functions are still to be left
    obtain ⟨rfl, hglobals, ht⟩ := h
    obtain ⟨i, hi, rfl⟩ := map_eq_some_iff.1 ht
    obtain ⟨fuel, v, s', hrun, hquiet, -⟩ := run_of_poised env w hs hi
    refine ⟨fuel, ?_⟩
    rw [hrun, map_some, Outcome.ofRun, hquiet.globals, hquiet.pending, hglobals, hi]
    rfl

/-- What the machine comes to when it follows the interpretation of a function that was entered from
outside. -/
theorem Follows.comes (h : Follows True env m bound r
      (fun v σ s w => Agrees names σ s w ∧ Leaving m [] ret v s) s w)
    (hnumbered : Numbered names) (hm : m.Tidy) (hs : s.Executed m) (huncut : Uncut env m s w) :
    match outcome? r with
    | some o => ComesTo env m s w o
    | none => run env m bound s w = none := by
  obtain ⟨s1, w1, hreach, hends⟩ := Leads.reaches h fun _ _ _ _ _ _ => huncut.halt
  match r with
  | .ok (v, σ) =>
    obtain ⟨hagrees, hleaving⟩ := hends
    show ComesTo env m s w ⟨.returned, σ.globals.values, none, σ.world⟩
    have hcomes := (ComesTo.of_halt hleaving.completes).of_reaches hreach
    rwa [hagrees.values hnumbered, hagrees.pending, ← hagrees.world] at hcomes
  | .error (.abandoned why globals w') =>
    exact (Reason.Shown.comes hends.2 ((hs.reaches hreach).poised hm)).of_reaches hreach
  | .error .exhausted => exact (Leads.lasts h).2.run_eq_none fun _ _ _ _ _ => huncut.halt
  | .error .stuck => exact hends.elim

/-! ## Handlers -/

theorem agrees_start (hbuilt : Assembled script source m names b) (hpending : s.pending = none)
    (hglobals : m.Admits s.globals) (w : ω) :
    Agrees names ⟨globalVars script s.globals, [], w⟩ s w := by
  obtain ⟨⟨htys, hnumbers, -⟩, -⟩ := namesOf_done hbuilt.named
  have hlength : s.globals.length = names.globals.length := by
    rw [← hglobals.length_eq, hbuilt.globals, length_map, length_map]
  have hdecls : names.globals.length = script.globals.length := by
    simpa using congrArg length htys
  refine ⟨rfl, hpending, hlength, forall₂_iff_get.2 ⟨?_, fun k h1 h2 => ?_⟩⟩
  · unfold globalSlots globalVars
    rw [length_map, length_zipWith]
    omega
  · have hp : k < names.globals.length := by simpa [globalSlots] using h1
    have hd : k < script.globals.length := by omega
    have hv : k < s.globals.length := by omega
    have hpd : (names.globals[k].1, names.globals[k].2.ty) =
        (script.globals[k].name, script.globals[k].ty) := by
      have := congrArg (·[k]?) htys
      simpa [hp, hd] using this
    have hty : (m.globals.map GlobalSlot.ty)[k]? = some names.globals[k].2.ty := by
      rw [hbuilt.globals]
      simp [hp]
    have hvalue := getElem?_eq_getElem hv
    simp only [globalSlots, globalVars, get_eq_getElem, getElem_map, getElem_zipWith]
    refine ⟨(Prod.mk.inj hpd).1.symm, (Prod.mk.inj hpd).2.symm,
      forall₂_getElem? hglobals hty hvalue, ?_⟩
    rw [hnumbers k _ (getElem?_eq_getElem hp), hvalue]

/-- A function of the script that is entered from outside comes to the outcome of its
interpretation. -/
theorem comesTo_iff_handle (hbuilt : Assembled script source m names b) (hreg : script.Regular is)
    (harrays : script.arrays = false) (hjumps : script.jumps = false)
    (hfew : script.states.length ≤ 65536) (hm : m.Tidy) (htyped : env.Typed)
    (hpolls : ∀ w, (env.poll w).2 = w)
    (hf : Compiled m names f index) (hframes : s.frames = []) (hpending : s.pending = none)
    (hglobals : m.Admits s.globals)
    (hargs : Ty.AdmitAll (f.params.map Param.ty) args)
    (henter : s.enter m index args = .ok s0) (huncut : Uncut env m s0 w) :
    ComesTo env m s0 w o ↔ ∃ bound, handle env script bound f args s.globals w = some o := by
  have hreflects := Reflects.of_assembled hbuilt hreg harrays hfew
  have hagrees := agrees_start hbuilt hpending hglobals w
  have hcalls := calls_follow hreflects htyped hpolls fun name sig f hsig hfind => by
    obtain ⟨f', g, hfind', hf', -, -, hg, ho⟩ := hbuilt.signature hsig
    obtain rfl := some.inj (hfind.symm.trans hfind')
    exact Compiled.of_assembled hbuilt hreg harrays hjumps (mem_append_left _ hf') ho hg
  have hfollows (bound : Nat) : Follows True env m bound
      ((call env script bound f args).run ⟨globalVars script s.globals, [], w⟩)
      (fun v σ s w => Agrees names σ s w ∧ Leaving m [] f.ret v s) s0 w := by
    cases bound with
    | zero => exact Leads.here ⟨trivial, .zero⟩
    | succ n =>
      refine (call_follows hf hreflects htyped hpolls (hcalls n) hagrees hargs henter).mono ?_
      rintro v σ s' w' ⟨-, hagrees', hleaving⟩
      exact ⟨hagrees', hframes ▸ hleaving⟩
  have hcomes := fun bound =>
    (hfollows bound).comes hreflects.toNumbered hm (.enter hframes hpending henter) huncut
  constructor
  · rintro ⟨fuel, hrun⟩
    -- an interpretation that has used up the bound stands for a longer run
    have hfuel := hcomes fuel
    split at hfuel
    · rename_i ho'
      exact ⟨fuel, ho'.trans (congrArg some (hfuel.unique ⟨fuel, hrun⟩))⟩
    · rw [hfuel] at hrun
      cases hrun
  · rintro ⟨bound, hhandle⟩
    have hbound := hcomes bound
    unfold handle at hhandle
    rwa [hhandle] at hbound

end Interp

/-! ## Calls of the library -/

/-- The host with a log of its calls, the last first. -/
def Host.logged {σ : Type} (h : Host σ) : Host (σ × List LoggedCall) where
  call f args w :=
    let r := h.call f args w.1
    ⟨r.answer, (r.state, ⟨f.name, args⟩ :: w.2), r.posts⟩
  resume f args w :=
    let r := h.resume f args w.1
    ⟨r.answer, (r.state, ⟨f.name, args⟩ :: w.2), r.posts⟩

theorem Host.Typed.logged {h : Host σ} (hh : h.Typed) : h.logged.Typed :=
  ⟨fun f hf args w => hh.call f hf args w.1, fun f hf args w => hh.resume f hf args w.1⟩

open Interp

/-- The code of a script without arrays and jumps does what the script means. A machine that enters
the handler of an event, and is not cut off, comes to the outcome that the interpretation comes to:
the end with its fault, the values of the global variables, the state that has been asked for, and
the surroundings with all calls of the library. If one of them has no end, the other has none.
States are told apart by their indexes, of which there are 65536. -/
theorem Module.handlers_agree {source name : String} {script : Script} {m : Module}
    (hs : Script.ofSource source = .ok script) (hm : Module.ofSource source name = .ok m)
    (harrays : script.arrays = false) (hjumps : script.jumps = false)
    (hfew : script.states.length ≤ 65536) {n : Nat} {event : Event} {f : FuncDecl}
    (hf : script.handler? n event = some f) :
    ∃ index, m.handler? n event = some index ∧
      ∀ {σ : Type} (h : Host σ) (alwaysSuspend : Bool) (w : Surroundings (σ × List LoggedCall))
        (s s₀ : Machine) (args : List Value), h.Typed → s.frames = [] → s.pending = none →
        m.Admits s.globals →
        Instance.argsError? event args = none → s.enter m index args = .ok s₀ →
        Uncut (h.logged.env alwaysSuspend) m s₀ w → ∀ o,
          ComesTo (h.logged.env alwaysSuspend) m s₀ w o ↔
            ∃ bound, handle (h.logged.env alwaysSuspend) script bound f args s.globals w = some o := by
  have hreg := Script.ofSource_regular hs
  have hscript := Module.ofScript_of_source hs hm
  obtain ⟨names, b, hbuilt⟩ := Module.ofScript_assembled hscript hreg
  obtain ⟨hmem, hsignature, index, g, hindex, hg, ho⟩ := hbuilt.handler hf
  refine ⟨index, hindex, fun h suspends w s s₀ args hh hframes hpending hglobals hargs henter
    huncut o => ?_⟩
  have htidy := (Module.ofScript_coded hscript hreg fun _ _ => .inl rfl).tidy
  have hcompiled :=
    Compiled.of_assembled hbuilt hreg harrays hjumps (mem_append_right _ hmem) ho hg
  exact comesTo_iff_handle hbuilt hreg harrays hjumps hfew htidy (hh.logged.env suspends)
    (fun _ => rfl) hcompiled hframes hpending hglobals
    (hsignature ▸ Instance.admits_of_argsError? hargs) henter
    huncut

def countdown : String :=
  "integer n = 2;
   count(integer k) \x7b
     while (k > 0) \x7b llOwnerSay((string)n); integer n = k; k = n - 1; \x7d
     n += 1;
     if (n > 2) state done;
     n = 7;
   \x7d
   default \x7b touch_start(integer c) \x7b count(c); n = 0; \x7d \x7d
   state done \x7b touch_start(integer c) \x7b \x7d \x7d"

set_option maxRecDepth 10000 in
set_option synthInstance.maxSize 1000 in
/-- The handler says the global variable twice, adds to it and asks for the other state. -/
theorem countdown_agrees :
    Script.Sample countdown "countdown" 100 fun script m i =>
      ∃ f index s₀ o, script.arrays = false ∧ script.jumps = false ∧ script.states.length ≤ 65536 ∧
      script.handler? 0 .touchStart = some f ∧ m.handler? 0 .touchStart = some index ∧
      i.machine.enter m index [.integer 2] = .ok s₀ ∧
      ComesTo (Host.recording.logged.env false) m s₀ ⟨({}, []), {}⟩ o ∧
      (∃ bound, handle (Host.recording.logged.env false) script bound f [.integer 2] i.machine.globals
        ⟨({}, []), {}⟩ = some o) ∧ o.ending = .returned ∧ Value.describeAll o.globals = ["3"] ∧
      o.state = some 1 ∧ o.world.host.2.map (fun c => (c.function, Value.describeAll c.args)) =
        [("llOwnerSay", ["\"2\""]), ("llOwnerSay", ["\"2\""])] := by
  refine .of_test (fun script m i =>
      ∃ f ∈ script.handler? 0 .touchStart, ∃ index ∈ m.handler? 0 .touchStart,
      ∃ s₀ ∈ (i.machine.enter m index [.integer 2]).toOption,
      ∃ o ∈ (Machine.run (Host.recording.logged.env false) m 200 s₀ ⟨({}, []), {}⟩).map
        Outcome.ofRun,
        script.arrays = false ∧ script.jumps = false ∧ script.states.length ≤ 65536 ∧
        i.machine.frames.length = 0 ∧ i.machine.pending = none ∧
        m.Admits i.machine.globals ∧ o.ending = .returned ∧
        Value.describeAll o.globals = ["3"] ∧ o.state = some 1 ∧
        o.world.host.2.map (fun c => (c.function, Value.describeAll c.args)) =
          [("llOwnerSay", ["\"2\""]), ("llOwnerSay", ["\"2\""])]) ?_
  rintro script m i hs hm hmade ⟨f, hf, index, hindex, s₀, henter, o, hrun, harrays, hjumps, hfew,
    hframes, hpending, hglobals, hending, hvalues, hstate, hlog⟩
  replace henter := eq_ok_of_toOption henter
  have hcomes : ComesTo (Host.recording.logged.env false) m s₀ ⟨({}, []), {}⟩ o := ⟨200, hrun⟩
  have huncut : Uncut (Host.recording.logged.env false) m s₀ ⟨({}, []), {}⟩ := fun o' ho' => by
    rw [ho'.unique hcomes, hending]
    rfl
  obtain ⟨index', hindex', hagree⟩ := Module.handlers_agree hs hm harrays hjumps hfew hf
  obtain rfl := some.inj (hindex.symm.trans hindex')
  have hhandle := (hagree Host.recording false ⟨({}, []), {}⟩ i.machine s₀ [.integer 2]
    Host.recording_typed (length_eq_zero_iff.1 hframes) hpending hglobals
    (by decide) henter huncut o).1 hcomes
  exact ⟨f, index, s₀, o, harrays, hjumps, hfew, hf, hindex, henter,
    hcomes, hhandle, hending, hvalues, hstate, hlog⟩

end EventScript
