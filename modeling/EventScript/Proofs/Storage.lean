import EventScript.Module.Json
import EventScript.Proofs.Closure
import EventScript.Proofs.Documents
import EventScript.Proofs.Parsing.Progress

/-!
# Modules that are stored

A compiled module has the shape that is asked of one (`Module.ofSource_valid`). What is made of a
module with a lawful format is taken apart to the same module again, if the numbers among its
constants are (`Module.ofJson?_toJson`). So where the format reads back the text that it prints, a
stored module can take the place of the one that was compiled (`Format.load_store`).
-/

namespace EventScript

open List

variable {F : Format} (hF : F.Lawful)

include hF

theorem Ty.ofJson?_toJson (t : Ty) : Ty.ofJson? F (t.toJson F) = some t :=
  hF.name (by cases t <;> rfl)

theorem Event.ofJson?_toJson (e : Event) : Event.ofJson? F (e.toJson F) = some e :=
  hF.name (by cases e <;> rfl)

theorem VarRef.ofJson?_toJson (v : VarRef) : VarRef.ofJson? F (v.toJson F) = some v := by
  cases v with
  | localVar slot => exact hF.holding (hF.uint16 slot) rfl
  | globalVar index => exact hF.holding (hF.uint16 index) rfl

theorem Op.ofJson?_toJson (op : Op) : Op.ofJson? F (op.toJson F) = some op := by
  cases op with
  | pushConst i | loadLocal i | storeLocal i | loadGlobal i | storeGlobal i | makeList i | call i
  | callApi i | setState i => exact hF.holding (hF.uint16 i) rfl
  | pushDefault t | cast t | castSecond t | isType t =>
    exact hF.holding (t.ofJson?_toJson hF) rfl
  | binary e =>
    have heval : eval? F (F.text e.name) = some e := hF.name (by cases e <;> rfl)
    exact hF.holding heval rfl
  | getField c | setField c =>
    have hcomponent : component? F (F.text c.label) = some c := hF.name (by cases c <;> rfl)
    exact hF.holding hcomponent rfl
  | arraySet v | memIncr v | memDecr v => exact hF.holding (v.ofJson?_toJson hF) rfl
  | jump n | jumpIfFalse n | jumpIfTrue n | jumpIfNoStateChange n =>
    exact hF.holding (hF.uint32 n) rfl
  | memStatic n => exact hF.holding (hF.int32 n) rfl
  | _ => exact hF.plain rfl

omit hF in
def Constant.doubles : Constant → List Double
  | .float d => [d]
  | .vector v => v.toList
  | .rotation q => q.toList
  | _ => []

theorem Constant.ofJson?_toJson (c : Constant) (h : ∀ d ∈ c.doubles, F.Exact d) :
    Constant.ofJson? F (c.toJson F) = some c := by
  cases c with
  | integer n => exact hF.holding (hF.int32 n) rfl
  | float d => exact hF.holding (h d mem_cons_self) rfl
  | string s | key s => exact hF.holding (hF.text s) rfl
  | vector v =>
    have hlist : F.list? F.double? (F.array (v.toList.map F.double)) = some v.toList := hF.list h
    have hvector : vector? F (F.array (v.toList.map F.double)) = some v := by
      rw [vector?, hlist]
      rfl
    exact hF.holding hvector rfl
  | rotation q =>
    have hlist : F.list? F.double? (F.array (q.toList.map F.double)) = some q.toList := hF.list h
    have hrotation : rotation? F (F.array (q.toList.map F.double)) = some q := by
      rw [rotation?, hlist]
      rfl
    exact hF.holding hrotation rfl

theorem Place.ofJson?_toJson (p : Place) : Place.ofJson? F (p.toJson F) = some p := by
  have hlist := hF.list fun n (_ : n ∈ [p.line, p.column]) => hF.uint32 n
  exact congrArg (· >>= _) hlist

theorem GlobalSlot.ofJson?_toJson (g : GlobalSlot) :
    GlobalSlot.ofJson? F (g.toJson F) = some g := by
  have hrecord : F.record? ["name", "ty"] (g.toJson F) = some [F.text g.name, g.ty.toJson F] :=
    hF.record [("name", _), ("ty", _)] (by simp)
  rw [GlobalSlot.ofJson?, hrecord]
  simp [hF.text, g.ty.ofJson?_toJson hF]

theorem FunctionKind.ofJson?_toJson (k : FunctionKind) :
    FunctionKind.ofJson? F (k.toJson F) = some k := by
  cases k with
  | script | init => exact hF.plain rfl
  | handler state event =>
    have hrecord := hF.record [("state", F.nat state.toNat), ("event", event.toJson F)] (by simp)
    have hhandler : handler? F (F.record [("state", F.nat state.toNat), ("event", event.toJson F)]) =
        some (.handler state event) := by
      rw [handler?]
      refine (congrArg (· >>= _) hrecord).trans ?_
      simp [hF.uint16, event.ofJson?_toJson hF]
    exact @Format.Lawful.holding _ _ _ hF _ _ _ id _ _ hhandler rfl

theorem Function.ofJson?_toJson (f : Function) : Function.ofJson? F (f.toJson F) = some f := by
  have hrecord : F.record? ["name", "kind", "params", "ret", "local_count", "ops", "lines"]
      (f.toJson F) = some [F.text f.name, f.kind.toJson F, F.array (f.params.map (Ty.toJson F)),
      f.ret.toJson F, F.nat f.localCount.toNat, F.array (f.ops.toList.map (Op.toJson F)),
      F.array (f.lines.toList.map (Place.toJson F))] :=
    hF.record [("name", _), ("kind", _), ("params", _), ("ret", _), ("local_count", _), ("ops", _),
      ("lines", _)] (by simp)
  rw [Function.ofJson?, hrecord]
  simp [hF.text, f.kind.ofJson?_toJson hF, hF.list fun t (_ : t ∈ f.params) => t.ofJson?_toJson hF,
    f.ret.ofJson?_toJson hF, hF.uint16,
    hF.list fun op (_ : op ∈ f.ops.toList) => op.ofJson?_toJson hF,
    hF.list fun p (_ : p ∈ f.lines.toList) => p.ofJson?_toJson hF]

omit hF in
def Module.doubles (m : Module) : List Double := m.constants.toList.flatMap Constant.doubles

theorem Module.ofJson?_toJson (m : Module) (h : ∀ d ∈ m.doubles, F.Exact d) :
    Module.ofJson? F (m.toJson F) = some m := by
  have hconstants := hF.list fun c (hc : c ∈ m.constants.toList) =>
    c.ofJson?_toJson hF fun d hd => h d (mem_flatMap_of_mem hc hd)
  have hglobals := hF.list fun g (_ : g ∈ m.globals) => g.ofJson?_toJson hF
  have hfunctions := hF.list fun f (_ : f ∈ m.functions.toList) => f.ofJson?_toJson hF
  have hstates := hF.list fun s (_ : s ∈ m.states) => hF.text s
  have hcell (cell : Option UInt16) : F.optional? F.uint16? (cellToJson F cell) = some cell := by
    cases cell with
    | none => simp [Format.optional?, cellToJson, hF.isNull_null]
    | some f =>
      have hnull : F.isNull (F.nat f.toNat) = false := hF.isNull_integer _
      simp [Format.optional?, cellToJson, hnull, hF.uint16]
  have hdispatch := hF.list fun row (_ : row ∈ m.dispatch) =>
    hF.list fun cell (_ : cell ∈ row) => hcell cell
  have hrecord : F.record? fieldNames (m.toJson F) = some [F.nat m.version.toNat, F.text m.name,
      F.nat m.fingerprint.toNat, F.bool m.arrays,
      F.array (m.constants.toList.map (Constant.toJson F)),
      F.array (m.globals.map (GlobalSlot.toJson F)), F.nat m.init.toNat,
      F.array (m.functions.toList.map (Function.toJson F)), F.array (m.states.map F.text),
      F.array (m.dispatch.map fun row => F.array (row.map (cellToJson F)))] :=
    hF.record [("version", _), ("name", _), ("fingerprint", _), ("arrays_enabled", _),
      ("constants", _), ("globals", _), ("init", _), ("functions", _), ("states", _),
      ("dispatch", _)] (by simp)
  rw [Module.ofJson?, hrecord]
  simp [hF.text, hF.bool, hF.uint32, hF.uint64, hF.uint16, hconstants, hglobals, hfunctions, hstates,
    hdispatch]

omit hF

/-! ## Compiled modules -/

theorem forM_eq_ok {ε α : Type} {f : α → Except ε Unit} {as : List α} (h : ∀ a ∈ as, f a = .ok ()) :
    as.forM f = .ok () := by
  induction as with
  | nil => rfl
  | cons a as ih =>
    rw [List.forM, h a mem_cons_self]
    exact ih (forall_mem_cons.1 h).2

theorem Module.ofScript_version {script : Script} {source name : String} {m : Module}
    (h : Module.ofScript script source name = .ok m) : m.version = moduleVersion := by
  unfold Module.ofScript at h
  dsimp only at h
  split at h
  · cases h; rfl
  · cases h

theorem exists_of_forall₂ {α β : Type} {R : α → β → Prop} {as : List α} {bs : List β}
    (h : List.Forall₂ R as bs) {b : β} (hb : b ∈ bs) : ∃ a ∈ as, R a b := by
  induction h with
  | nil => cases hb
  | cons hab _ ih =>
    obtain rfl | hb := mem_cons.1 hb
    · exact ⟨_, mem_cons_self, hab⟩
    · obtain ⟨a, ha, hab⟩ := ih hb
      exact ⟨a, mem_cons_of_mem _ ha, hab⟩

theorem Module.ofSource_valid {source name : String} {m : Module}
    (hm : Module.ofSource source name = .ok m) : m.version = moduleVersion ∧ m.validate = .ok () := by
  cases hs : Script.ofSource source with
  | error e =>
    unfold Module.ofSource at hm
    rw [hs] at hm
    cases hm
  | ok script =>
    have hscript := Module.ofScript_of_source hs hm
    have hreg := Script.ofSource_regular hs
    obtain ⟨names, b, init, s, h⟩ := Module.ofScript_compilation hscript hreg
    refine ⟨Module.ofScript_version hscript, ?_⟩
    have hrow : ∀ row ∈ m.dispatch, m.checkRow row = .ok () := by
      intro row hmem
      obtain ⟨hserves, hwidth⟩ := h.handlers row hmem
      have hcells : (row.any fun cell => cell.any fun f => (m.function? f).isNone) = false := by
        rw [any_eq_false]
        rintro (_ | f) hcell
        · nofun
        obtain ⟨column, hcolumn⟩ := mem_iff_getElem?.1 hcell
        obtain ⟨event, g, -, hg, -⟩ := hserves column f hcolumn
        have hf : m.function? f = some g := by
          rw [getElem?_take, Array.getElem?_toList] at hg
          split at hg
          · exact hg
          · cases hg
        simp [hf]
      rw [checkRow, if_neg (not_not.2 hwidth), hcells]
      rfl
    have hlines : ∀ f ∈ m.functions.toList, checkLines f = .ok () := by
      intro f hf
      refine if_pos ?_
      rw [← take_append_drop m.init.toNat m.functions.toList, h.last, mem_append,
        mem_singleton] at hf
      obtain hf | rfl := hf
      · obtain ⟨d, -, horigin⟩ := exists_of_forall₂ h.compiles hf
        exact horigin.lines
      · exact (h.init_closed hreg).lines
    have hempty : m.states.isEmpty = false := by
      have hpos := length_pos_of_ne_nil hreg.states
      rw [← h.states] at hpos
      exact isEmpty_eq_false_iff.2 (ne_nil_of_length_pos hpos)
    unfold validate
    rw [h.function?_init, forM_eq_ok hrow, forM_eq_ok hlines, hempty, h.dispatch, h.states]
    simp
    rfl

/-- A compiled module passes the checks of a stored one. With a lawful format it is loaded from its
text as it is, as long as the format reads back its document and the numbers in it. -/
theorem Format.load_store {source name : String} {m : Module}
    (hm : Module.ofSource source name = .ok m) :
    m.validate = .ok () ∧ ∀ F : Format, F.Lawful → (∀ d ∈ m.doubles, F.Exact d) →
      F.Legible (m.toJson F) → F.load (F.store m) = .ok m := by
  obtain ⟨hversion, hvalid⟩ := Module.ofSource_valid hm
  refine ⟨hvalid, fun F hF hdoubles hlegible => ?_⟩
  have hread : (F.read? (F.store m)).bind (Module.ofJson? F) = some m := by
    rw [store, hlegible]
    exact m.ofJson?_toJson hF hdoubles
  rw [load, hread]
  simp [hversion, hvalid]

def keepsake : String :=
  "float f = 1.5; default \x7b touch_start(integer n) \x7b string s = \"\\\"\"; \x7d \x7d"

theorem keepsake_number : Json.format.Exact ⟨0x3ff8000000000000⟩ := by
  show Json.double? (Json.double ⟨0x3ff8000000000000⟩) = some _
  decide +kernel

/-- The module has a number and a handler, and is read back. -/
theorem keepsake_survives : ∃ m, Module.ofSource keepsake "keepsake" = .ok m ∧
    m.doubles = [⟨0x3ff8000000000000⟩] ∧ m.handler? 0 .touchStart = some 0 ∧ m.validate = .ok () ∧
    Module.ofText m.toText = .ok m := by
  have ht : ((Module.ofSource keepsake "keepsake").toOption.map fun m =>
      decide (m.doubles = [⟨0x3ff8000000000000⟩] ∧ m.handler? 0 .touchStart = some 0) &&
        Json.recovers (m.toJson Json.format)) = some true := by
    decide +kernel
  obtain ⟨m, hm, ht⟩ := Option.map_eq_some_iff.1 ht
  rw [Bool.and_eq_true] at ht
  obtain ⟨hdoubles, hhandler⟩ := of_decide_eq_true ht.1
  replace hm := eq_ok_of_toOption hm
  obtain ⟨hvalid, hread⟩ := Format.load_store hm
  refine ⟨m, hm, hdoubles, hhandler, hvalid, hread _ Json.format_lawful (fun d hd => ?_)
    (Json.legible_of_recovers ht.2)⟩
  rw [hdoubles, mem_singleton] at hd
  exact hd ▸ keepsake_number

end EventScript
