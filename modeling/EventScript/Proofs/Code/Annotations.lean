import EventScript.Proofs.Code.Conformance
import EventScript.Proofs.Code.Flow
import EventScript.Proofs.Code.Functions

/-!
# Assertions for the functions of a module

The functions of a compiled module have assertions that hold together as soon as structured code has
them: `Module.Laid.annotation` for the functions that run when events are handled, and
`Module.Coded.initAnnotation` for the initializer.
-/

namespace EventScript

open List

open Compile

def Module.frameLinkage (m : Module) (tests : Bool) (g : Function) (Y : Layout) : Linkage :=
  (m.linkage tests).withFrame g.localCount.toNat g.ret Y.frameStatic

/-- Where variables are in scope in the functions of a module. -/
def Module.Laid (m : Module) (script : Script) (tests : Bool) (Y : UInt16 → Layout) : Prop :=
  ∀ (i : UInt16) (g : Function), m.function? i = some g → i.toNat < m.init.toNat →
    ∃ f, script.decls[i.toNat]? = some f ∧ g.params = f.params.map Param.ty ∧ g.ret = f.ret ∧
      FunctionCode (m.frameLinkage tests g (Y i)) g.params f.blocks (Y i) g.ops.toList

theorem Module.function?_of_take {m : Module} (h : (m.functions.toList.take m.init.toNat)[i.toNat]?
    = some g) : i.toNat < m.init.toNat ∧ m.function? i = some g := by
  have hlt : i.toNat < m.init.toNat := by
    have := (List.getElem?_eq_some_iff.1 h).1
    rw [length_take] at this
    omega
  rw [getElem?_take_of_lt hlt, Array.getElem?_toList] at h
  exact ⟨hlt, h⟩

namespace Module.Coded

variable {m : Module}

theorem exists_laid (h : m.Coded script tests) : ∃ Y, m.Laid script tests Y := by
  have hlaid : ∀ i : UInt16, ∃ Y : Layout, ∀ g, m.function? i = some g → i.toNat < m.init.toNat →
      ∃ f, script.decls[i.toNat]? = some f ∧ g.params = f.params.map Param.ty ∧ g.ret = f.ret ∧
        FunctionCode (m.frameLinkage tests g Y) g.params f.blocks Y g.ops.toList := by
    intro i
    by_cases hi : i.toNat < m.init.toNat
    · cases hf : m.function? i with
      | none => exact ⟨default, fun g hg => nomatch hg⟩
      | some g =>
        have hg : (m.functions.toList.take m.init.toNat)[i.toNat]? = some g := by
          rw [getElem?_take_of_lt hi, Array.getElem?_toList]
          exact hf
        obtain ⟨f, hdecl⟩ : ∃ f, script.decls[i.toNat]? = some f := by
          have hlen := (List.getElem?_eq_some_iff.1 hg).1
          rw [← h.functions.length_eq] at hlen
          exact ⟨_, getElem?_eq_getElem hlen⟩
        obtain ⟨hparams, hret, Y, hcode⟩ := forall₂_getElem? h.functions hdecl hg
        refine ⟨Y, fun g' hg' _ => ?_⟩
        cases hg'
        exact ⟨f, hdecl, hparams, hret, hcode⟩
    · exact ⟨default, fun g _ hlt => absurd hlt hi⟩
  choose Y hY using hlaid
  exact ⟨Y, hY⟩

/-- The initializer has assertions that hold together if the code of initializers has. -/
theorem initAnnotation (h : m.Coded script tests) (hconstants : terms.constants =
    m.constants.toList) (hfunctions : terms.functions = [])
    (hlaws : InitLaws { terms with ret := .void, Check := fun _ _ _ => True, strict := false }
      (m.linkage tests) B A) :
    ∃ Inv g, Annotation.Valid ⟨terms, fun _ _ _ _ => True, false, Inv, fun _ _ _ => True⟩ m ∧
      m.function? m.init = some g ∧ ∀ x, B 0 x → Inv m.init 0 x := by
  obtain ⟨g, hg, -, hret, hcode⟩ := h.init
  have hinit : m.function? m.init = some g := by
    have : (m.functions.toList.drop m.init.toNat)[0]? = some g := by rw [hg]; rfl
    rwa [getElem?_drop, Nat.add_zero, Array.getElem?_toList] at this
  obtain ⟨I, hI, hstart⟩ := hcode.annotated hlaws
  refine ⟨fun i p x => i = m.init ∧ I p x, g, ⟨hconstants, ?_, ?_⟩, hinit,
    fun x hx => ⟨rfl, hstart x hx⟩⟩
  · intro i params ret hi
    rw [hfunctions] at hi
    cases hi
  · rintro i g' hg' p x ⟨rfl, hx⟩
    rw [hinit] at hg'
    cases hg'
    obtain ⟨op, hop, hw⟩ := hI p x hx
    refine ⟨op, hop, ?_⟩
    have hcontract : Annotation.contract
        ⟨terms, fun _ _ _ _ => True, false, fun i p x => i = m.init ∧ I p x, fun _ _ _ => True⟩
          m.init g =
        { terms with ret := .void, Check := fun _ _ _ => True, strict := false } := by
      rw [← hret]; rfl
    rw [hcontract]
    exact hw.mono fun q y hy => ⟨rfl, hy⟩

end Module.Coded

/-- The functions of a module have assertions that hold together if the code of functions has. -/
theorem Module.Laid.annotation {m : Module} (hlaid : m.Laid script tests Y)
    (Check : Layout → Nat → List Value → Int → Prop) (Here : Layout → Nat → List Value → Prop)
    (hconstants : terms.constants = m.constants.toList)
    (hfunctions : terms.functions = (m.linkage tests).functions)
    (hcode : ∀ (g : Function) (Y : Layout) (blocks : List (Nat × List Ty)),
      FunctionCode (m.frameLinkage tests g Y) g.params blocks Y g.ops.toList →
      ∃ I, Annotated { terms with ret := g.ret, Check := Check Y, strict, Here := Here Y }
          g.ops.toList I ∧
        ∀ args globals, List.Forall₂ terms.Passed g.params args → terms.Shared globals →
          I 0 ⟨Machine.fillLocals g.localCount.toNat args, [], globals,
            globalsCost terms.globals globals⟩) :
    ∃ Inv, Annotation.Valid ⟨terms, fun i => Check (Y i), strict, Inv, fun i => Here (Y i)⟩ m ∧
      (∀ i g, m.function? i = some g → i.toNat < m.init.toNat →
        Annotation.Starts ⟨terms, fun i => Check (Y i), strict, Inv, fun i => Here (Y i)⟩ i g) ∧
      ∀ i p x, Inv i p x → i.toNat < m.init.toNat := by
  have hinv : ∀ i : UInt16, ∃ I : Nat → Local → Prop, (∀ p x, I p x → i.toNat < m.init.toNat) ∧
      ∀ g, m.function? i = some g →
        Annotated { terms with ret := g.ret, Check := Check (Y i), strict, Here := Here (Y i) }
          g.ops.toList I ∧
        (i.toNat < m.init.toNat → ∀ args globals, List.Forall₂ terms.Passed g.params args →
          terms.Shared globals → I 0 ⟨Machine.fillLocals g.localCount.toNat args, [], globals,
            globalsCost terms.globals globals⟩) := by
    intro i
    by_cases hi : ∃ g, m.function? i = some g ∧ i.toNat < m.init.toNat
    · obtain ⟨g, hg, hlt⟩ := hi
      obtain ⟨f, -, -, -, hf⟩ := hlaid i g hg hlt
      obtain ⟨I, hI, hstart⟩ := hcode g (Y i) f.blocks hf
      refine ⟨I, fun _ _ _ => hlt, fun g' hg' => ?_⟩
      rw [hg] at hg'
      cases hg'
      exact ⟨hI, fun _ => hstart⟩
    -- the initializer is not called, so any assertion will do
    · exact ⟨fun _ _ => False, nofun, fun g hg => ⟨nofun, fun hlt => absurd ⟨g, hg, hlt⟩ hi⟩⟩
  choose Inv hinit hInv using hinv
  refine ⟨Inv, ⟨hconstants, fun i params ret hi => ?_, fun i g hg => (hInv i g hg).1⟩,
    fun i g hg hlt => (hInv i g hg).2 hlt, hinit⟩
  rw [hfunctions] at hi
  obtain ⟨g, hg, heq⟩ := Option.map_eq_some_iff.1 (getElem?_map .. ▸ hi)
  cases heq
  obtain ⟨hlt, hg⟩ := Module.function?_of_take hg
  exact ⟨g, hg, rfl, rfl, (hInv i g hg).2 hlt⟩

end EventScript
