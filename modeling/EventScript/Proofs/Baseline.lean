import EventScript.Proofs.Accounting
import EventScript.Proofs.Migration

/-!
# Memory computed anew

When a handler faults, the memory in use is computed anew from the global variables
(`Machine.baseline`). It is then what the code would have kept account of, whatever the instance has
gone through (`Instance.memory_agrees`), unless a global variable is an `object`: what such a
variable holds is counted only when the memory is computed anew.

1. Sums: computed anew, the memory is the sum of all static sizes and contents, if that is a word
   (`Machine.baseline_toInt`). The account differs from it by what is in objects
   (`Module.contents_eq`).
2. Histories: whatever an idle instance has gone through, its account is right
   (`Instance.Accounted.steady`).
-/

namespace EventScript

open List Option Word

open Compile

/-! ## Sums -/

theorem Word.clamp_nonneg (h : 0 ≤ n) : 0 ≤ (Word.clamp n).toInt := by
  by_cases hn : n ≤ Word.greatest
  · rw [toInt_clamp ⟨Int.le_trans (by decide) h, hn⟩]
    exact h
  · unfold Word.clamp
    rw [if_neg (by unfold Word.least; omega), if_pos (by omega)]
    decide

theorem Ty.staticSize_nonneg (ty : Ty) : 0 ≤ ty.staticSize.toInt := by
  cases ty <;> decide

mutual

theorem Value.dynSize_nonneg : ∀ v : Value, 0 ≤ v.dynSize.toInt
  | .string s | .key s => clamp_nonneg (by omega)
  | .list items => Value.dynSizeFrom_nonneg (by decide) items
  | .undefined | .bool _ | .integer _ | .float _ | .vector _ | .rotation _ | .array _ => by
    unfold Value.dynSize
    decide

theorem Value.dynSizeFrom_nonneg (h : 0 ≤ total.toInt) :
    ∀ vs : List Value, 0 ≤ (Value.dynSizeFrom total vs).toInt
  | [] => h
  | v :: vs => by
    have hv := Value.dynSize_nonneg v
    refine Value.dynSizeFrom_nonneg (clamp_nonneg ?_) vs
    exact Int.add_nonneg (clamp_nonneg (Int.add_nonneg h v.ty.staticSize_nonneg)) hv

end

/-- What a global variable and its value cost, whatever its type is. -/
def GlobalSlot.cost (g : GlobalSlot × Value) : Int := g.1.ty.staticSize.toInt + g.2.dynSize.toInt

def Module.contents (m : Module) (globals : List Value) : Int :=
  ((m.globals.zip globals).map GlobalSlot.cost).sum

/-- What the values of the global variables cost that are objects. -/
def Module.objectCost (m : Module) (globals : List Value) : Int :=
  ((m.globals.zip globals).map fun g => if g.1.ty = .object then g.2.dynSize.toInt else 0).sum

theorem Module.objectCost_eq_zero (m : Module) (h : ∀ g ∈ m.globals, g.ty ≠ .object)
    (globals : List Value) : m.objectCost globals = 0 := by
  refine sum_eq_zero fun n hn => ?_
  obtain ⟨g, hg, rfl⟩ := mem_map.1 hn
  exact if_neg (h _ (of_mem_zip hg).1)

theorem GlobalSlot.sum_cost_nonneg (gs : List (GlobalSlot × Value)) :
    0 ≤ (gs.map GlobalSlot.cost).sum := by
  refine sum_nonneg fun n hn => ?_
  obtain ⟨g, -, rfl⟩ := mem_map.1 hn
  exact Int.add_nonneg g.1.ty.staticSize_nonneg g.2.dynSize_nonneg

theorem Machine.foldl_addGlobal {gs : List (GlobalSlot × Value)} (htotal : 0 ≤ total.toInt)
    (hsum : total.toInt + (gs.map GlobalSlot.cost).sum ≤ Word.greatest) :
    (gs.foldl addGlobal total).toInt = total.toInt + (gs.map GlobalSlot.cost).sum := by
  induction gs generalizing total with
  | nil => exact (Int.add_zero _).symm
  | cons g gs ih =>
    have hstatic := g.1.ty.staticSize_nonneg
    have hdyn := g.2.dynSize_nonneg
    have hrest := GlobalSlot.sum_cost_nonneg gs
    rw [map_cons, sum_cons, GlobalSlot.cost] at hsum ⊢
    -- no part of the sum is negative, so none of its beginnings leaves the range
    have hleast : Word.least ≤ 0 := by decide
    have hfirst : (Word.addSat total g.1.ty.staticSize).toInt =
        total.toInt + g.1.ty.staticSize.toInt := toInt_clamp ⟨by omega, by omega⟩
    have hboth : (addGlobal total g).toInt =
        total.toInt + g.1.ty.staticSize.toInt + g.2.dynSize.toInt := by
      unfold addGlobal
      rw [Word.addSat, hfirst]
      exact toInt_clamp ⟨by omega, by omega⟩
    rw [foldl_cons, ih (by omega) (by omega), hboth]
    omega

/-- Computed anew, the memory in use is what the global variables and their values cost, if that is
a word. -/
theorem Machine.baseline_toInt {s : Machine}
    (h : m.contents s.globals ≤ Word.greatest) : (s.baseline m).toInt = m.contents s.globals := by
  have hzero : (0 : Int32).toInt = 0 := by decide
  have hsum : (0 : Int32).toInt + m.contents s.globals ≤ Word.greatest := by
    rwa [hzero, Int.zero_add]
  have hfold := foldl_addGlobal (by decide) hsum
  rwa [hzero, Int.zero_add] at hfold

theorem Ty.Admits.dynSize {t : Ty} (h : t.Admits v) (hobject : t ≠ .object)
    (hstatic : ¬ t.hasDynamicSize = true) : v.dynSize = 0 := by
  have hty : v.ty = t := eq_of_beq (Bool.and_eq_true_iff.1 (h.resolve_left hobject)).2
  subst hty
  cases v with
  | string | key | list => exact absurd rfl hstatic
  | _ => unfold Value.dynSize; rfl

/-- The account leaves out what is in objects, and nothing else. -/
theorem Module.contents_eq {m : Module} {globals : List Value} (h : m.Admits globals) :
    m.contents globals = m.cost globals + m.objectCost globals := by
  unfold contents cost objectCost
  unfold Module.Admits at h
  generalize m.globals = slots at h
  induction slots generalizing globals with
  | nil => cases h; rfl
  | cons g slots ih =>
    obtain _ | ⟨hv, hrest⟩ := h
    rename_i v vs
    have hone : GlobalSlot.cost (g, v) = g.ty.staticSize.toInt + contentCost g.ty v +
        if g.ty = .object then v.dynSize.toInt else 0 := by
      unfold GlobalSlot.cost contentCost
      by_cases hobject : g.ty = .object
      · rw [hobject, if_pos rfl, if_neg (by decide), Int.add_zero]
      rw [if_neg hobject, Int.add_zero]
      split
      · rfl
      rename_i hstatic
      rw [hv.dynSize hobject hstatic]
      rfl
    simp only [zip_cons_cons, map_cons, sum_cons, globalsCost, ih hrest, hone]
    omega

/-! ## Histories -/

namespace Instance

variable (m : Module) (settings : Settings) (faults : Bool) in
/-- The instances of a module that come about without a sum that leaves the range of words. If
`faults` is not so, all inputs have been handled without a fault, too. -/
inductive Accounted : Instance → Prop
  | new : Instance.new m settings fuel = some (.ok i) → (settings.machine m).BootsExactly m →
      Accounted i
  | handles {i k : Instance} {input : Input}
      {w w' : σ} {r : Except PlacedFault Status} : Accounted i → env.Typed →
      (∀ event args, input = .start event args → AllProper args) → i.HandlesExactly env input w →
      i.handle env fuel w input = some ((r, k), w') → (r.isOk = false → faults = true ∧
        (k.status = .idle → m.contents k.machine.globals ≤ Word.greatest)) → Accounted k
  | requestSuspend : Accounted i → Accounted i.requestSuspend
  | requestMigration (sink : Sink) : Accounted i → Accounted (i.requestMigration sink).2
  | migrateIn : Accounted i → Accounted j → j.isAtRest = true →
      (j.snapshot.send m sink).error = none →
      Accounted (i.migrateIn (j.snapshot.send m sink).bytes).2
  | dispose : Accounted i → Accounted i.dispose

theorem Accounted.reachable (h : Accounted m settings faults i) :
    Reachable m settings Env.Typed AllProper i := by
  induction h with
  | new hnew _ => exact .new hnew
  | @handles σ env fuel i k input w w' r _ henv hargs _ hh _ ih =>
    cases input with
    | start event args => exact .start ih henv (hargs event args rfl) hh
    | resume => exact .resume ih henv hh
  | requestSuspend _ ih => exact .requestSuspend ih
  | requestMigration sink _ ih => exact .requestMigration sink ih
  | migrateIn _ _ hrest herror ih1 ih2 => exact .migrateIn ih1 ih2 hrest herror
  | dispose _ ih => exact .dispose ih

variable {Inv : UInt16 → Nat → Local → Prop}

theorem Reachable.admits (hR : ((m.types Y Inv).regime m).Kept m settings Env.Typed)
    (h : Reachable m settings Env.Typed AllProper i) (hidle : i.status = .idle) :
    m.Admits i.machine.globals :=
  ((hR.stands h).rests hidle).machine.1

/-- Whatever an instance has gone through, the account is right between two inputs. -/
theorem Accounted.steady (hversion : m.version = 1)
    (hP : (m.types Y Inv).Valid m) (hR : ((m.types Y Inv).regime m).Kept m settings Env.Typed)
    (hU : Upkeep m (fun s => s.memUsage.toInt = m.cost s.globals) Active Exact)
    (hboot : ∀ {s s' : Machine} {fuel : Nat}, s.BootsExactly m →
      s.boot Host.null.bareEnv m fuel () = some (.ok (), s', ()) →
      s'.memUsage.toInt = m.cost s'.globals)
    (hobjects : faults = true → ∀ g ∈ m.globals, g.ty ≠ .object)
    (h : Accounted m settings faults i) :
    i.Steady m (fun s => s.memUsage.toInt = m.cost s.globals) Active := by
  induction h with
  | @new fuel i hnew hexact =>
    obtain ⟨⟨result, s, u⟩, hb, hr⟩ := map_eq_some_iff.1 hnew
    cases result with
    | error e => cases hr
    | ok u =>
      cases hr
      exact ⟨rfl, fun _ => ⟨Machine.boot_leaves hb, hboot hexact hb⟩, nofun⟩
  | @handles σ env fuel i k input w w' r hi henv hargs hexact hh hfault ih =>
    obtain hsteady | ⟨hr, j, q, hj, hk⟩ := hU.handle ih hexact hh
    · exact hsteady
    -- a handler that faulted has been dropped, and the memory in use is computed anew
    · have hidle : k.status = .idle := congrArg Instance.status hk
      obtain ⟨hfaults, hsum⟩ := hfault hr
      have hadmits := (Accounted.handles hi henv hargs hexact hh hfault).reachable.admits hR hidle
      have hzero := m.objectCost_eq_zero (hobjects hfaults) k.machine.globals
      have hmachine : k.machine = { j.machine with
          frames := [], pending := none, memUsage := k.machine.baseline m } := by
        rw [show k = _ from hk, ← hj]
        rfl
      have hmem := (congrArg Machine.memUsage hmachine :)
      refine ⟨(congrArg Instance.module hk).trans hj,
        fun _ => ⟨(congrArg Machine.frames hmachine :), ?_⟩, fun hs => ?_⟩
      · rw [hmem, Machine.baseline_toInt (hsum hidle), Module.contents_eq hadmits, hzero,
          Int.add_zero]
      · exact absurd (hidle.symm.trans hs) (by decide)
  | requestSuspend _ ih => exact ih.withRequests _
  | @requestMigration i sink _ ih =>
    obtain ⟨q, hq⟩ := requestMigration_snd i sink
    rw [hq]
    exact ih.withRequests q
  | @migrateIn i j sink hi hj hrest herror ih1 ih2 =>
    by_cases hidle : i.status = .idle
    · rw [Instance.migrateIn_send hversion hP ((hR.stands hi.reachable).rests hidle)
        (hR.stands hj.reachable) hrest herror]
      exact ⟨ih2.module, ih2.idle, ih2.suspended⟩
    · unfold Instance.migrateIn
      rw [if_neg hidle]
      exact ih1
  | dispose _ ih => exact ⟨ih.module, nofun, nofun⟩

end Instance

/-! ## Compiled modules -/

/-- The memory in use of an idle instance is what is computed anew from its global variables,
whether it has just been made, has handled inputs, has been reset or has had a handler dropped that
faulted, as long as no sum leaves the range of words. So it depends on the values of the variables
alone. All this is so if no global variable is an object. If there are objects and nothing has
faulted, what is in them is missing from the memory in use. -/
theorem Instance.memory_agrees {source name : String} {script : Script} {m : Module}
    (hs : Script.ofSource source = .ok script) (hm : Module.ofSource source name = .ok m)
    (hvalued : script.arrays = true → script.valued = true) (settings : Settings) :
    ((∀ d ∈ script.globals, d.ty ≠ .object) →
      (∀ i, Accounted m settings true i → i.status = .idle →
        i.machine.memUsage = i.machine.baseline m ∧
          i.machine.memUsage.toInt = m.contents i.machine.globals) ∧
      ∀ i j, Accounted m settings true i → Accounted m settings true j → i.status = .idle →
        j.status = .idle → i.machine.globals = j.machine.globals →
        i.machine.memUsage = j.machine.memUsage) ∧
    ∀ i, Accounted m settings false i → i.status = .idle →
      m.contents i.machine.globals ≤ Word.greatest →
      (i.machine.baseline m).toInt =
        i.machine.memUsage.toInt + m.objectCost i.machine.globals := by
  obtain ⟨Y, Inv, hlaid, hP, -, -, hversion, hkept⟩ := Module.ofSource_typed hs hvalued hm
  have hR := hkept settings
  have hcoded : m.Coded script false := Module.ofScript_coded (Module.ofScript_of_source hs hm)
    ((Script.ofSource_regular hs).valued hvalued) fun _ => .inr
  obtain ⟨Inv', hP', hstarts, -⟩ := hlaid.accounting
  have hU := hcoded.accounts hP' hstarts
  have hmem {faults : Bool} (hobjects : faults = true → ∀ g ∈ m.globals, g.ty ≠ .object)
      {i : Instance} (hi : Accounted m settings faults i) (hidle : i.status = .idle) :
      i.machine.memUsage.toInt = m.cost i.machine.globals :=
    ((hi.steady hversion hP hR hU hcoded.boot_memUsage hobjects).idle hidle).2
  refine ⟨fun hobjects => ?_, fun i hi hidle hsum => ?_⟩
  · have hslots : ∀ g ∈ m.globals, g.ty ≠ .object := fun g hg => by
      obtain ⟨d, hd, hty⟩ := mem_map.1 (hcoded.globals ▸ mem_map_of_mem hg)
      exact hty ▸ hobjects d hd
    have hagree {i : Instance} (hi : Accounted m settings true i) (hidle : i.status = .idle) :
        i.machine.memUsage = i.machine.baseline m ∧
          i.machine.memUsage.toInt = m.contents i.machine.globals := by
      have hcost := hmem (fun _ => hslots) hi hidle
      rw [← Int.add_zero (m.cost _), ← m.objectCost_eq_zero hslots,
        ← Module.contents_eq (hi.reachable.admits hR hidle)] at hcost
      refine ⟨Int32.toInt_inj.1 ?_, hcost⟩
      rw [Machine.baseline_toInt, hcost]
      -- the memory in use is a word, so the sum that it is equal to is one
      rw [← hcost]
      exact Int.le_of_lt_add_one (Int32.toInt_lt _)
    refine ⟨fun i hi hidle => hagree hi hidle, fun i j hi hj hidle hidle' hglobals => ?_⟩
    rw [(hagree hi hidle).1, (hagree hj hidle').1, Machine.baseline, Machine.baseline, hglobals]
  · rw [Machine.baseline_toInt hsum, Module.contents_eq (hi.reachable.admits hR hidle),
      hmem (fun (h : false = true) => nomatch h) hi hidle]

def scribe : String :=
  "string last = \"none\"; list all; vector v;
   default \x7b touch_start(integer n) \x7b
     last = \"n=\" + (string)n; all += n; v = <6 / (2 - n), 0, 0>; all = []; \x7d
   touch_end(integer n) \x7b last = \"again\"; llResetScript(); \x7d \x7d"

set_option maxRecDepth 10000 in
/-- The first touch faults after it has been written down, the second one is handled, and the end of
it starts the scribe again. -/
theorem scribe_agrees :
    Script.Sample scribe "scribe" 200 fun script m i =>
      ∃ j k l w₁ w₂ w₃ f, (∀ d ∈ script.globals, d.ty ≠ .object) ∧
      i.handle (Host.recording.env false) 200 {} (.start .touchStart [.integer 2]) =
        some ((.error f, j), w₁) ∧
      j.handle (Host.recording.env false) 200 {} (.start .touchStart [.integer 1]) =
        some ((.ok .idle, k), w₂) ∧
      k.handle (Host.recording.env false) 200 {} (.start .touchEnd [.integer 1]) =
        some ((.ok .idle, l), w₃) ∧ i.machine.memUsage = 216 ∧ j.machine.memUsage = 222 ∧
      k.machine.memUsage = 214 ∧ l.machine.memUsage = 216 ∧
      i.machine.memUsage = i.machine.baseline m ∧ j.machine.memUsage = j.machine.baseline m ∧
      k.machine.memUsage = k.machine.baseline m ∧ l.machine.memUsage = l.machine.baseline m ∧
      (i.machine.baseline m).toInt = i.machine.memUsage.toInt + m.objectCost i.machine.globals := by
  refine .of_test (fun script m i =>
      ∃ x ∈ i.handle (Host.recording.env false) 200 {} (.start .touchStart [.integer 2]),
      ∃ y ∈ x.1.2.handle (Host.recording.env false) 200 {} (.start .touchStart [.integer 1]),
      ∃ z ∈ y.1.2.handle (Host.recording.env false) 200 {} (.start .touchEnd [.integer 1]),
        (∀ d ∈ script.globals, d.ty ≠ .object) ∧ script.arrays = false ∧ i.status = .idle ∧
        x.1.2.status = .idle ∧ y.1.2.status = .idle ∧ z.1.2.status = .idle ∧
        m.contents i.machine.globals ≤ Word.greatest ∧
        m.contents x.1.2.machine.globals ≤ Word.greatest ∧
        (Settings.machine {} m).bootsExactly m 200 ∧
        i.handlesExactly (Host.recording.env false) 200 (.start .touchStart [.integer 2]) {} ∧
        x.1.2.handlesExactly (Host.recording.env false) 200 (.start .touchStart [.integer 1]) {} ∧
        y.1.2.handlesExactly (Host.recording.env false) 200 (.start .touchEnd [.integer 1]) {} ∧
        x.1.1.isOk = false ∧ y.1.1 = .ok .idle ∧ z.1.1 = .ok .idle ∧
        i.machine.memUsage = 216 ∧ x.1.2.machine.memUsage = 222 ∧
        y.1.2.machine.memUsage = 214 ∧ z.1.2.machine.memUsage = 216) ?_
  rintro script m i hs hm hmade ⟨⟨⟨r₁, j⟩, w₁⟩, hfirst, ⟨⟨_, k⟩, w₂⟩, hsecond, ⟨⟨_, l⟩, w₃⟩,
    hthird, hobjects, harrays, hidle₀, hidle₁, hidle₂, hidle₃, hsum₀, hsum₁, hboot, hexact₁,
    hexact₂, hexact₃, hr₁, rfl, rfl, husage₀, husage₁, husage₂, husage₃⟩
  have hproper (n : Int32) (event : Event) : ∀ event' args,
      Input.start event [.integer n] = .start event' args → AllProper args := by
    rintro _ _ ⟨⟩ v hv
    rw [mem_singleton.1 hv]
    exact trivial
  have henv := Host.recording_typed.env false
  have hi : Instance.Accounted m {} true i := .new hmade (.of_test hboot)
  have hj : Instance.Accounted m {} true j :=
    .handles hi henv (hproper _ _) (.of_test hexact₁) hfirst fun _ => ⟨rfl, fun _ => hsum₁⟩
  have hk : Instance.Accounted m {} true k :=
    .handles hj henv (hproper _ _) (.of_test hexact₂) hsecond nofun
  have hl : Instance.Accounted m {} true l :=
    .handles hk henv (hproper _ _) (.of_test hexact₃) hthird nofun
  obtain ⟨hagrees, hobject⟩ :=
    Instance.memory_agrees hs hm (fun h => nomatch harrays.symm.trans h) {}
  have hagree := (hagrees hobjects).1
  cases r₁ with
  | ok status => cases hr₁
  | error f =>
    exact ⟨j, k, l, w₁, w₂, w₃, f, hobjects, hfirst, hsecond, hthird,
      husage₀, husage₁, husage₂, husage₃, (hagree i hi hidle₀).1, (hagree j hj hidle₁).1,
      (hagree k hk hidle₂).1, (hagree l hl hidle₃).1,
      hobject i (.new hmade (.of_test hboot)) hidle₀ hsum₀⟩

def casket : String :=
  "XMROption arrays; object o = \"abc\"; default \x7b state_entry() \x7b \x7d \x7d"

/-- The text is not in the account of a new instance, but is counted when the memory in use is
computed anew. -/
theorem casket_disagrees :
    Script.Sample casket "casket" 100 fun script m i =>
      script.valued = true ∧ (Settings.machine {} m).BootsExactly m ∧ i.status = .idle ∧
      i.machine.memUsage = 32 ∧ i.machine.baseline m = 38 := by
  refine .of_test (fun script m i =>
      script.valued = true ∧
      (Settings.machine {} m).bootsExactly m 100 ∧ i.status = .idle ∧
      i.machine.memUsage = 32 ∧ i.machine.baseline m = 38) ?_
  rintro script m i hs hm hmade ⟨hvalued, hboot, hidle, husage, hbaseline⟩
  exact ⟨hvalued, .of_test hboot, hidle, husage, hbaseline⟩

end EventScript
