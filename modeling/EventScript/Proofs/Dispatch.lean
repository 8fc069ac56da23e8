import EventScript.Proofs.Parsing.Progress
import EventScript.Proofs.Soundness

/-!
# Dispatch of events

The table of a module has exactly the handlers that the script declares (`Module.dispatch_exact`).
Functions are numbered as they are generated: those of the script, then the handlers state by state,
then the initializer. So a number tells the state and the place of the handler in it.
-/

namespace EventScript

open List Option Compile

theorem Event.name_injective {e e' : Event} (h : e.name = e'.name) : e = e' := by
  have hinverse : ∀ e : Event, Event.all.find? (·.name == e.name) = some e := by
    intro e; cases e <;> rfl
  exact some.inj ((hinverse e).symm.trans (h ▸ hinverse e'))

theorem Event.name_of_ofName? {word : String} (h : Event.ofName? word = some event) :
    event.name = word := by
  simpa using find?_some h

namespace Compile.Build.Keeps

variable {b : Build} {state : StateDecl}

theorem hosts_of_cell (h : b.Keeps names state i n hs cells) (hcolumn : event.column? = some column)
    (hcell : cells[column]? = some (some index)) :
    ∃ k f g, hs[k]? = some f ∧ b.Hosts names state i cells (n + k) f event column index g := by
  obtain ⟨f, hf, event', hevent, hcolumn'⟩ := h.only column index hcell
  obtain ⟨k, hk⟩ := getElem?_of_mem hf
  obtain ⟨_, _, _, g, hosts⟩ := h.hosts k f hk
  obtain rfl := column?_injective hcolumn hcolumn'
  obtain rfl := some.inj (hevent.symm.trans hosts.named)
  obtain rfl := some.inj (hcolumn.symm.trans hosts.standing)
  obtain rfl := some.inj (some.inj (hcell.symm.trans hosts.cell))
  exact ⟨k, f, g, hk, hosts⟩

theorem hosts_of_name (h : b.Keeps names state i n hs cells) (hf : f ∈ hs)
    (hname : f.name = event.name) : ∃ k column index g, hs[k]? = some f ∧
      b.Hosts names state i cells (n + k) f event column index g := by
  obtain ⟨k, hk⟩ := getElem?_of_mem hf
  obtain ⟨_, column, index, g, hosts⟩ := h.hosts k f hk
  obtain rfl := Event.name_injective ((Event.name_of_ofName? hosts.named).trans hname)
  exact ⟨k, column, index, g, hk, hosts⟩

end Compile.Build.Keeps

def handlersBefore (states : List StateDecl) (n : Nat) : Nat :=
  ((states.take n).flatMap StateDecl.handlers).length

theorem handlersBefore_lt {states : List StateDecl} {state : StateDecl} {k n n' : Nat}
    (hlt : n < n') (hn : states[n]? = some state) (hk : k < state.handlers.length) :
    handlersBefore states n + k < handlersBefore states n' := by
  have hsucc : handlersBefore states (n + 1) = handlersBefore states n + state.handlers.length := by
    unfold handlersBefore
    rw [take_add_one, hn, flatMap_append, length_append]
    simp
  have hmono : handlersBefore states (n + 1) ≤ handlersBefore states n' :=
    ((take_prefix_take_left hlt).flatMap _).length_le
  omega

variable {source name : String} {script : Script} {m : Module}

theorem Script.ofSource_default (h : Script.ofSource source = .ok script) :
    ∃ t d is, TokenStream.ofSource source = .ok t ∧ Parser.Declares (.init t) is ∧
      .defaultState d ∈ is ∧ d.name = "default" ∧
      script.states = d :: is.filterMap Parser.Item.state? := by
  unfold Script.ofSource at h
  cases ht : TokenStream.ofSource source with
  | error e => rw [ht] at h; cases h
  | ok t =>
    rw [ht] at h
    obtain ⟨d, is, hdeclares, hmem, hstates⟩ := Parser.ofTokens_declares h
    obtain ⟨⟨found, d', hf, hd, rfl⟩, -⟩ := Script.ofTokens_found (Parser.regular_exprLaw t.arrays)
      (Parser.regular_stmtLaw t.arrays) rfl (TokenStream.ofSource_allowed ht) h
    obtain ⟨rfl, -⟩ := List.cons.inj hstates
    exact ⟨t, d', is, rfl, hdeclares, hmem, (hf.defaultState d' hd).2, hstates⟩

/-- The table of a module has the handlers that the script declares and no others. The states are the
default one and then the others in the order of their declarations. A state has an entry for an event
just if it declares a handler of that name, which is the only one; the entry is the number of the
function that is generated for it. No two handlers have one number, and none has that of a function
of the script or of the initializer. -/
theorem Module.dispatch_exact (hs : Script.ofSource source = .ok script)
    (hm : Module.ofSource source name = .ok m) :
    (∃ t d is, TokenStream.ofSource source = .ok t ∧ Parser.Declares (.init t) is ∧
      .defaultState d ∈ is ∧ d.name = "default" ∧
      script.states = d :: is.filterMap Parser.Item.state?) ∧
    m.states = script.states.map StateDecl.name ∧
    (∀ n event, (∃ index, m.handler? n event = some index) ↔
      ∃ state h, script.states[n]? = some state ∧ h ∈ state.handlers ∧ h.name = event.name) ∧
    (∀ n event index, m.handler? n event = some index →
      ∃ state h g names s s', script.states[n]? = some state ∧
        (h ∈ state.handlers ∧ h.name = event.name ∧
          ∀ h' ∈ state.handlers, h'.name = event.name → h' = h) ∧
        m.function? index = some g ∧ namesOf script source = (names, []) ∧
        genFunction names h (.handler (stateIndex n) event) (state.name ++ " " ++ event.name) .void
          s = (g, s') ∧ s'.errors = [] ∧ s'.constants <+: m.constants.toList ∧
        g.name = state.name ++ " " ++ event.name ∧ g.params = event.signature ∧ g.ret = .void ∧
        script.functions.length ≤ index.toNat ∧ index.toNat < m.init.toNat) ∧
    ∀ n n' event event' index, m.handler? n event = some index →
      m.handler? n' event' = some index → n = n' ∧ event = event' := by
  have hreg := Script.ofSource_regular hs
  obtain ⟨names, b, hmade⟩ := Module.ofScript_assembled (Module.ofScript_of_source hs hm) hreg
  have hstates : m.states = script.states.map StateDecl.name := by
    rw [hmade.states, (namesOf_done hmade.named).2.2, List.map_map]
    conv_rhs => rw [← List.zipIdx_map_fst 0 script.states, List.map_map]
    rfl
  -- a number in the table is that of a handler of the state
  have hfound {n event index} (h : m.handler? n event = some index) : ∃ state column row k f g,
      script.states[n]? = some state ∧ state.handlers[k]? = some f ∧
      b.Keeps names state n (script.functions.length + handlersBefore script.states n)
        state.handlers row ∧
      b.Hosts names state n row (script.functions.length + handlersBefore script.states n + k) f
        event column index g := by
    obtain ⟨column, hcolumn, h⟩ := bind_eq_some_iff.1 h
    obtain ⟨row, hrow, h⟩ := bind_eq_some_iff.1 h
    obtain ⟨cell, hcell, h⟩ := bind_eq_some_iff.1 h
    obtain ⟨state, hstate⟩ : ∃ state, script.states[n]? = some state :=
      ⟨_, List.getElem?_eq_getElem (hmade.height ▸ (List.getElem?_eq_some_iff.1 hrow).1)⟩
    obtain ⟨row', hrow', hkeeps⟩ := hmade.rows n state hstate
    obtain rfl := some.inj (hrow.symm.trans hrow')
    obtain ⟨k, f, g, hk, hosts⟩ := hkeeps.hosts_of_cell hcolumn (h ▸ hcell)
    exact ⟨state, column, row, k, f, g, hstate, hk, hkeeps, hosts⟩
  refine ⟨Script.ofSource_default hs, hstates, fun n event => ⟨?_, ?_⟩, fun n event index h => ?_,
    fun n n' event event' index h h' => ?_⟩
  · rintro ⟨index, h⟩
    obtain ⟨state, _, _, k, f, _, hstate, hk, _, hosts⟩ := hfound h
    exact ⟨state, f, hstate, List.mem_of_getElem? hk, (Event.name_of_ofName? hosts.named).symm⟩
  · rintro ⟨state, f, hstate, hf, hname⟩
    obtain ⟨row, hrow, hkeeps⟩ := hmade.rows n state hstate
    obtain ⟨k, column, index, g, -, hosts⟩ := hkeeps.hosts_of_name hf hname
    refine ⟨index, ?_⟩
    unfold Module.handler?
    simp only [hosts.standing, hrow, hosts.cell, bind_eq_bind, bind_some]
  · obtain ⟨state, column, row, k, f, g, hstate, hk, hkeeps, hosts⟩ := hfound h
    obtain ⟨s, s', hg, he, hc⟩ := hosts.code
    obtain ⟨hname, hparams, hret⟩ := hosts.assembled
    refine ⟨state, f, g, names, s, s', hstate, ⟨List.mem_of_getElem? hk,
      (Event.name_of_ofName? hosts.named).symm, fun f' hf' hname' => ?_⟩, ?_, hmade.named, hg,
      List.suffix_nil.1 (hmade.errors ▸ he), hc.trans hmade.constants, hname, hparams, hret, ?_, ?_⟩
    · obtain ⟨k', column', index', g', hk', hosts'⟩ := hkeeps.hosts_of_name hf' hname'
      obtain rfl := some.inj (hosts.standing.symm.trans hosts'.standing)
      obtain rfl := some.inj (some.inj (hosts.cell.symm.trans hosts'.cell))
      obtain rfl : k = k' := by have := hosts.number.symm.trans hosts'.number; omega
      exact some.inj (hk'.symm.trans hk)
    · rw [Module.function?, ← Array.getElem?_toList, hosts.number]
      exact getElem?_of_prefix ( List.take_prefix _ _) (hmade.functions ▸ hosts.function)
    · rw [hosts.number]; omega
    · have hlt := (List.getElem?_eq_some_iff.1 hosts.function).1
      rw [← hmade.functions, List.length_take] at hlt
      rw [hosts.number]
      exact (Nat.lt_min.1 hlt).1
  · obtain ⟨state, _, _, k, f, _, hstate, hk, _, hosts⟩ := hfound h
    obtain ⟨state', _, _, k', f', _, hstate', hk', _, hosts'⟩ := hfound h'
    have hnumber := hosts.number.symm.trans hosts'.number
    have hlt := (List.getElem?_eq_some_iff.1 hk).1
    have hlt' := (List.getElem?_eq_some_iff.1 hk').1
    obtain hn | rfl | hn := Nat.lt_trichotomy n n'
    · have := handlersBefore_lt hn hstate hlt
      omega
    · obtain rfl := some.inj (hstate.symm.trans hstate')
      obtain rfl : k = k' := by omega
      obtain rfl := some.inj (hk.symm.trans hk')
      exact ⟨rfl, some.inj (hosts.named.symm.trans hosts'.named)⟩
    · have := handlersBefore_lt hn hstate' hlt'
      omega

def porter : String :=
  "f() \x7b\x7d default \x7b touch_start(integer n) \x7b\x7d state_entry() \x7b\x7d \x7d
   state away \x7b timer() \x7b f(); \x7d \x7d"

theorem porter_dispatch : ∃ script m state h g, Script.ofSource porter = .ok script ∧
    Module.ofSource porter "porter" = .ok m ∧ m.handler? 1 .timer = some 3 ∧
    script.states[1]? = some state ∧ h ∈ state.handlers ∧ h.name = "timer" ∧
    m.function? 3 = some g ∧ g.params = [] ∧ 3 < m.init.toNat := by
  have ht : ∃ script ∈ (Script.ofSource porter).toOption,
      ∃ m ∈ (Module.ofSource porter "porter").toOption, m.handler? 1 .timer = some 3 := by
    decide +kernel
  obtain ⟨script, hs, m, hm, ht⟩ := ht
  have hs := eq_ok_of_toOption hs
  have hm := eq_ok_of_toOption hm
  obtain ⟨state, h, g, _, _, _, hstate, ⟨hh, hname, -⟩, hg, -, -, -, -, -, hparams, -, -, hlt⟩ :=
    (Module.dispatch_exact hs hm).2.2.2.1 1 .timer 3 ht
  exact ⟨script, m, state, h, g, hs, hm, ht, hstate, hh, hname, hg, hparams, hlt⟩

end EventScript
