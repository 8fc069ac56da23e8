import EventScript.Proofs.Worlds

/-!
# What an instruction does

`Machine.Does` lists, instruction by instruction, the state in which a machine goes on. What
instructions preserve is proved by cases on it (`exec_does`), without opening `Machine.exec`.
-/

namespace EventScript

def VarRef.loadOp : VarRef → Op
  | .localVar slot => .loadLocal slot
  | .globalVar index => .loadGlobal index

def VarRef.storeOp : VarRef → Op
  | .localVar slot => .storeLocal slot
  | .globalVar index => .storeGlobal index

theorem Operands.pushResult_ok (h : pushResult rest x = .ok stack) :
    ∃ r, x = .ok r ∧ stack = r :: rest := by
  cases x with
  | ok r => cases h; exact ⟨r, rfl, rfl⟩
  | error e => cases h

namespace Machine

variable {ω : Type}

@[simp] theorem setTop_frames (s : Machine) (f : Frame) :
    (s.setTop f).frames = f :: s.frames.tail := rfl

@[simp] theorem setTop_memUsage (s : Machine) (f : Frame) :
    (s.setTop f).memUsage = s.memUsage := rfl

@[simp] theorem setTop_memLimit (s : Machine) (f : Frame) :
    (s.setTop f).memLimit = s.memLimit := rfl

variable (env : Env ω) (m : Module) (ret : Ty) (f : Frame) (s : Machine) (w : ω) in
/-- How a machine goes on after an instruction; `f` is the innermost frame, which has gone past
it. -/
inductive Does : Op → Machine → ω → Prop
  /-- An instruction that uses nothing but the operands. -/
  | operands {g : List Value → Operands} {stack : List Value} : op.operate? = some g →
      g f.operands = .ok stack → Does op (s.setTop { f with operands := stack }) w
  | pushConst : m.constant? i = some c → Does (.pushConst i) (s.setTop (f.push (.ofConstant c))) w
  | load (var : VarRef) {v : Value} : s.var? f var = some v →
      Does var.loadOp (s.setTop (f.push v)) w
  | store (var : VarRef) {v old : Value} {rest : List Value} : f.operands = v :: rest →
      s.var? f var = some old → Does var.storeOp (s.setVar { f with operands := rest } var v) w
  | arraySet {v k : Value} {rest : List Value} {old new : Entries} :
      f.operands = v :: k :: rest → s.var? f var = some (.array old) → old.setValue k v = .ok new →
      Does (.arraySet var)
        (s.setVar { f with operands := v :: rest } var (.array new)) w
  | jump : Does (.jump target) (s.setTop { f with pc := target.toNat }) w
  | jumpIfFalse {v : Value} {rest : List Value} : f.operands = v :: rest →
      Does (.jumpIfFalse target)
        (s.setTop { f with operands := rest, pc := if !v.truthy then target.toNat else f.pc }) w
  | jumpIfTrue {v : Value} {rest : List Value} : f.operands = v :: rest → Does (.jumpIfTrue target)
        (s.setTop { f with operands := rest, pc := if v.truthy then target.toNat else f.pc }) w
  | jumpIfNoStateChange : Does (.jumpIfNoStateChange target)
        (s.setTop (if s.pending.isNone then { f with pc := target.toNat } else f)) w
  | call :
      m.function? index = some g → Operands.split? g.params.length f.operands = some (args, rest) →
      (s.setTop { f with operands := rest }).enter m index args = .ok s' → Does (.call index) s' w
  | callApi {w' : ω} : ApiFunction.get? index = some g →
      Operands.split? g.params.length f.operands = some (args, rest) →
      env.call g args w = (.ok v, w') → Does (.callApi index)
        (s.setTop (answered g v { f with operands := rest })) w'
  | ret : (if ret = .void then some .undefined else f.operands.head?) = some v →
      s.frames.tail = caller :: callers → Does .ret
        { s with frames := (if ret = .void then caller else caller.push v) :: callers } w
  | memStatic : Does (.memStatic n) ((s.setTop f).charge n) w
  | memIncr : s.var? f var = some v → Does (.memIncr var) ((s.setTop f).charge v.dynSize) w
  | memDecr : s.var? f var = some v → Does (.memDecr var) ((s.setTop f).release v.dynSize) w
  | checkRun : ¬ s.memLimit < s.memUsage → env.poll w = (false, w') → Does .checkRun (s.setTop f) w'
  | setState : Does (.setState state) { s.setTop f with pending := some state } w

@[simp] theorem var?_operands (s : Machine) (f : Frame) (stack : List Value) (var : VarRef) :
    s.var? { f with operands := stack } var = s.var? f var := by
  cases var <;> rfl

theorem load_does (h : load s f x e w = .next s' w') :
    w' = w ∧ ∃ v, x = some v ∧ s' = s.setTop (f.push v) := by
  unfold load at h
  split at h
  · cases h; exact ⟨rfl, _, rfl, rfl⟩
  · cases h

theorem store_does (h : store s f var w = .next s' w') :
    Does env m ret f s w var.storeOp s' w' := by
  unfold store at h
  split at h
  · cases h
  rename_i v rest ho
  dsimp only at h
  split at h
  · rename_i old hv; cases h; exact .store var ho hv
  · cases h

theorem storeElement_does (h : storeElement s f var w = .next s' w') :
    Does env m ret f s w (.arraySet var) s' w' := by
  unfold storeElement at h
  split at h
  · rename_i v k rest ho
    dsimp only at h
    split at h
    · cases h
    rename_i a hv
    cases a with
    | array es =>
      cases hs : Entries.setValue es k v with
      | ok es' =>
        simp only [Value.entries, hs, bind, Except.bind] at h
        cases h
        exact .arraySet ho hv hs
      | error e =>
        simp only [Value.entries, hs, bind, Except.bind] at h
        cases h
    | _ => simp only [Value.entries, bind, Except.bind] at h; cases h
  · cases h

theorem branch_does (h : branch s f test target w = .next s' w') :
    w' = w ∧ ∃ v rest, f.operands = v :: rest ∧
      s' = s.setTop { f with operands := rest, pc := if test v then target.toNat else f.pc } := by
  unfold branch at h
  split at h
  · cases h
  · rename_i v rest ho; cases h; exact ⟨rfl, v, rest, ho, rfl⟩

theorem callFunction_does (h : callFunction m s f index w = .next s' w') :
    Does env m ret f s w (.call index) s' w' := by
  unfold callFunction at h
  split at h
  · cases h
  rename_i g hg
  split at h
  · cases h
  rename_i args rest hs
  dsimp only at h
  split at h
  · rename_i s1 he; cases h; exact .call hg hs he
  · cases h

theorem callApi_does (h : callApi env s f index w = .next s' w') :
    Does env m ret f s w (.callApi index) s' w' := by
  unfold callApi at h
  split at h
  · cases h
  rename_i g hg
  split at h
  · cases h
  rename_i args rest hs
  split at h
  · rename_i v w1 hc; cases h; exact .callApi hg hs hc
  · rename_i i w1 hc
    cases i <;> cases h

theorem leave_does (h : leave (s.setTop f) f ret w = .next s' w') :
    Does env m ret f s w .ret s' w' := by
  unfold leave at h
  dsimp only [setTop_frames, List.tail_cons] at h
  split at h
  · cases h
  rename_i v hv
  split at h
  · cases h
  · rename_i caller callers hc; cases h; exact hc ▸ .ret hv hc

theorem check_does (h : check env (s.setTop f) w = .next s' w') :
    Does env m ret f s w .checkRun s' w' := by
  unfold check at h
  split at h
  · cases h
  rename_i hl
  split at h
  · cases h
  · rename_i w1 hp; cases h; exact .checkRun hl hp

theorem replace_does (hg : op.operate? = some g)
    (h : replace s f (g f.operands) w = .next s' w') : Does env m ret f s w op s' w' := by
  unfold replace at h
  split at h
  · rename_i stack hs; cases h; exact .operands hg hs
  · cases h

theorem exec_does (h : exec env m ret op f s w = .next s' w') : Does env m ret f s w op s' w' := by
  cases op with
  | pushConst i =>
    obtain ⟨rfl, v, hv, rfl⟩ := load_does h
    obtain ⟨c, hc, rfl⟩ := Option.map_eq_some_iff.1 hv
    exact .pushConst hc
  | loadLocal slot =>
    obtain ⟨rfl, v, hv, rfl⟩ := load_does h
    exact .load (.localVar slot) hv
  | loadGlobal index =>
    obtain ⟨rfl, v, hv, rfl⟩ := load_does h
    exact .load (.globalVar index) hv
  | storeLocal slot => exact store_does h
  | storeGlobal index => exact store_does h
  | arraySet var => exact storeElement_does h
  | jump target => cases h; exact .jump
  | jumpIfFalse target =>
    obtain ⟨rfl, v, rest, ho, rfl⟩ := branch_does h
    exact .jumpIfFalse ho
  | jumpIfTrue target =>
    obtain ⟨rfl, v, rest, ho, rfl⟩ := branch_does h
    exact .jumpIfTrue ho
  | jumpIfNoStateChange target => cases h; exact .jumpIfNoStateChange
  | call index => exact callFunction_does h
  | callApi index => exact callApi_does h
  | ret => exact leave_does h
  | memStatic n => cases h; exact .memStatic
  | memIncr var =>
    unfold exec at h
    dsimp only at h
    split at h
    · rename_i v hv; cases h; exact .memIncr hv
    · cases h
  | memDecr var =>
    unfold exec at h
    dsimp only at h
    split at h
    · rename_i v hv; cases h; exact .memDecr hv
    · cases h
  | checkRun => exact check_does h
  | setState state => cases h; exact .setState
  | _ => exact replace_does rfl h

theorem exec_operate (hg : op.operate? = some g) :
    exec env m ret op f s w = replace s f (g f.operands) w := by
  cases op <;> cases hg <;> rfl

/-- The converse: an instruction does what is listed. -/
theorem exec_of_does (h : Does env m ret f s w op s' w') :
    exec env m ret op f s w = .next s' w' := by
  cases h with
  | operands hg hs => rw [exec_operate hg, hs]; rfl
  | pushConst hc =>
    unfold exec
    simp only [hc]
    rfl
  | load var hv => cases var <;> unfold VarRef.loadOp exec <;> simp only [hv] <;> rfl
  | store var ho hv =>
    cases var <;> unfold VarRef.storeOp exec <;> simp only [store, ho, var?_operands, hv]
  | arraySet ho hv hset =>
    unfold exec
    simp only [storeElement, ho, var?_operands, hv]
    have hentries : (do (← (Value.array _).entries).setValue _ _) = Except.ok _ := hset
    rw [hentries]
  | jumpIfFalse ho | jumpIfTrue ho =>
    unfold exec
    simp only [branch, ho]
    rfl
  | call hg hsplit henter =>
    unfold exec
    simp only [callFunction, hg, hsplit, henter]
  | callApi hg hsplit hcall =>
    unfold exec
    simp only [callApi, hg, hsplit, hcall]
    rfl
  | ret hv hframes =>
    unfold exec
    simp only [leave, setTop_frames, List.tail_cons, hv, hframes]
    rfl
  | memIncr hv | memDecr hv =>
    unfold exec
    simp only [hv]
  | checkRun hlimit hpoll =>
    unfold exec
    simp only [check, setTop_memLimit, setTop_memUsage, if_neg hlimit, hpoll]
  | jump | jumpIfNoStateChange | memStatic | setState => rfl

end Machine

end EventScript
