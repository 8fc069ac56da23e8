import EventScript.Proofs.Interpretation.Functions

/-!
# Functions and handlers of compiled scripts

A module is compiled from a script in a single pass, with the numbers of functions and states given
out beforehand. Its code is that of the declarations of the script, and it has them where the code
looks for them: functions by the numbers of their names, handlers in the columns of their events.
-/

namespace EventScript

open List Option

namespace Compile

/-! ## Names of the script -/

theorem states_lookup (states : List StateDecl) (name : String) (j : Nat) :
    ((states.zipIdx j).map fun p => (p.1.name, stateIndex p.2)).lookup name =
      (states.findIdx? (·.name == name)).map fun k => stateIndex (j + k) := by
  induction states generalizing j with
  | nil => rfl
  | cons st states ih =>
    rw [zipIdx_cons, map_cons, lookup_cons, findIdx?_cons, BEq.comm (a := st.name)]
    cases name == st.name with
    | true => rfl
    | false =>
      rw [ih (j + 1)]
      simp only [Bool.false_eq_true, if_false, Option.map_map]
      refine congrArg (fun g => Option.map g _) (funext fun k => ?_)
      rw [Function.comp_apply, Nat.add_assoc, Nat.add_comm 1 k]

end Compile

open Compile

namespace Compile.Assembled

variable (h : Assembled script source m names b)

include h

theorem function? (hg : b.functions[index.toNat]? = some g) : m.function? index = some g := by
  unfold Module.function?
  rw [← Array.getElem?_toList]
  exact getElem?_of_prefix ( take_prefix _ _) (h.functions ▸ hg)

theorem signature (hsig : names.functions.lookup name = some sig) :
    ∃ f g, script.functions.find? (·.name == name) = some f ∧ f ∈ script.functions ∧
      sig.params = f.params.map Param.ty ∧ sig.ret = f.ret ∧ m.function? sig.index = some g ∧
      Origin names b.state f g := by
  rw [(namesOf_done h.named).2.1] at hsig
  obtain ⟨k, f, hfind, hk, hindex, hparams, hret⟩ :=
    (signatures_lookup (namesOf_signatures h.named)).1 sig hsig
  have hdecl : script.decls[k]? = some f := getElem?_of_prefix (prefix_append _ _) hk
  obtain ⟨g, hg⟩ : ∃ g, b.functions[k]? = some g := by
    refine ⟨_, getElem?_eq_getElem ?_⟩
    rw [← h.compiles.length_eq]
    exact (List.getElem?_eq_some_iff.1 hdecl).1
  refine ⟨f, g, hfind, mem_of_getElem? hk, hparams, hret, h.function? ?_,
    forall₂_getElem? h.compiles hdecl hg⟩
  rwa [hindex, Nat.zero_add]

theorem handler (hf : script.handler? n event = some f) :
    f ∈ script.states.flatMap StateDecl.handlers ∧ f.params.map Param.ty = event.signature ∧
      ∃ index g, m.handler? n event = some index ∧ m.function? index = some g ∧
        Origin names b.state f g := by
  obtain ⟨state, hstate, hfind⟩ := bind_eq_some_iff.1 hf
  have hmem := mem_of_find?_eq_some hfind
  have hname : Event.ofName? f.name = some event := by
    simpa using find?_some hfind
  have hs := mem_of_getElem? hstate
  obtain ⟨row, hrow, hkeeps⟩ := h.rows n state hstate
  obtain ⟨k, hk⟩ := getElem?_of_mem hmem
  obtain ⟨event', column, index, g, hosts⟩ := hkeeps.hosts k f hk
  obtain rfl := some.inj (hname.symm.trans hosts.named)
  refine ⟨mem_flatMap.2 ⟨state, hs, hmem⟩, hosts.params, index, g, ?_,
    h.function? (hosts.number ▸ hosts.function), hosts.origin (h.void state hs f hmem)⟩
  unfold Module.handler?
  simp only [hosts.standing, hrow, hosts.cell, bind_eq_bind, bind_some]

end Compile.Assembled

namespace Interp

theorem Reflects.of_assembled (h : Assembled script source m names b) (hreg : script.Regular is)
    (harrays : script.arrays = false) (hfew : script.states.length ≤ 65536) :
    Reflects script m names := by
  have hcore : (!script.arrays) = true := congrArg (!·) harrays
  obtain ⟨⟨htys, hnumbers, -⟩, hfunctions, hstates⟩ := namesOf_done h.named
  refine ⟨⟨hnumbers, fun p hp => ?_⟩, fun name sig hsig => ?_, fun name hname => ?_,
    fun name i hi => ?_⟩
  · have hmem : (p.1, p.2.ty) ∈ script.globals.map fun d => (d.name, d.ty) :=
      htys ▸ mem_map.2 ⟨p, hp, rfl⟩
    obtain ⟨d, hd, heq⟩ := mem_map.1 hmem
    rw [← (Prod.mk.inj heq).2, ← hcore]
    exact (hreg.globals d hd).1
  · obtain ⟨f, g, hfind, hf, hparams, hret, hg, ho⟩ := h.signature hsig
    have hregular := hcore ▸ hreg.functions f hf
    refine ⟨f, g, hfind, hparams, hret, hg, (Origin.signature ho).1.trans hparams.symm,
      (Origin.signature ho).2.trans hret.symm, ?_, hret ▸ hregular.ret⟩
    rw [hparams]
    exact forall_mem_map.2 hregular.params
  · rw [hfunctions] at hname
    exact (signatures_lookup (namesOf_signatures h.named)).2 hname
  · rw [hstates, states_lookup] at hi
    obtain ⟨k, hk, rfl⟩ := map_eq_some_iff.1 hi
    have hlt := (findIdx?_eq_some_iff_getElem.1 hk).1
    rw [hk, Nat.zero_add, stateIndex_toNat, Nat.min_eq_left (by omega)]

theorem Compiled.of_assembled (h : Assembled script source m names b) (hreg : script.Regular is)
    (harrays : script.arrays = false) (hjumps : script.jumps = false)
    (hf : f ∈ script.decls) (ho : Origin names b.state f g)
    (hg : m.function? index = some g) : Compiled m names f index := by
  have hregular : f.Regular true is := by
    have hcore : (!script.arrays) = true := congrArg (!·) harrays
    rw [← hcore]
    rcases mem_append.1 hf with hf | hf
    · exact hreg.functions f hf
    · obtain ⟨state, hs, hf⟩ := mem_flatMap.1 hf
      exact (hreg.handlers state hs f hf).1
  have hquiet : Stmt.anyJumps f.body.stmts = false := by
    exact Bool.eq_false_iff.2 (any_eq_false.1 hjumps f hf)
  have hret := (Origin.signature ho).2
  obtain ⟨s, kind, name, hgen, hes, hcs⟩ := ho
  generalize hr : genFunction names f kind name f.ret s = r at hgen hes hcs
  obtain ⟨g, s'⟩ := r
  cases hgen
  have he := suffix_nil.1 (h.errors ▸ hes)
  obtain ⟨ps, bs, s1, code, hframed⟩ := genFunction_framed hr he
  exact ⟨⟨is, hregular⟩, hquiet, g, ps, bs, s1, s', code, hg, hret, hframed, he,
    hcs.trans h.constants⟩

end Interp

end EventScript
