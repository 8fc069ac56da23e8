import EventScript.Compile.Stmt
import EventScript.Script.Parser

/-!
# From scripts to modules

`Module.ofScript` compiles a script and `Module.ofSource` a text. Functions and globals are
numbered before any code is generated, so that they can be used before their declaration. Every
error is reported, and there is a module only if there is no error.
-/

namespace EventScript

namespace Compile

open Gen

def semantic (e : SemanticError) (span : Span) : Diagnostic := { cause := .semantic e, span }

/-! ## Names of the script -/

/-- Functions are numbered in the order of their declarations, from `i` on. -/
def signatures (i : Nat) : List FuncDecl → List (String × Signature) × List Diagnostic
  | [] => ([], [])
  | f :: fs =>
    match Word.index? i with
    | none => ([], [semantic .tooManyFunctions f.span])
    | some index =>
      let (rest, errors) := signatures (i + 1) fs
      ((f.name, ⟨index, f.params.map Param.ty, f.ret⟩) :: rest, errors)

/-- A global variable that is declared again is an error and gets no number. -/
def globalVars (known : List (String × GlobalVar)) :
    List VarDecl → List (String × GlobalVar) × List Diagnostic
  | [] => (known, [])
  | d :: ds =>
    if known.any (·.1 == d.name) then
      let (all, errors) := globalVars known ds
      (all, semantic (.duplicateGlobal d.name) d.span :: errors)
    else
      match Word.index? known.length with
      | none => (known, [semantic .tooManyGlobals d.span])
      | some i => globalVars (known ++ [(d.name, ⟨i, d.ty⟩)]) ds

/-- The index of a state; there are no more than can be told apart. -/
def stateIndex (i : Nat) : UInt16 := UInt16.ofNat (min i 65535)

/-- All that code can name, before any is generated. -/
def namesOf (script : Script) (source : String) : Names × List Diagnostic :=
  let (functions, functionErrors) := signatures 0 script.functions
  let (globals, globalErrors) := globalVars [] script.globals
  let states := script.states.zipIdx.map fun (s, i) => (s.name, stateIndex i)
  (⟨.ofSource source, globals, states, functions⟩, functionErrors ++ globalErrors)

/-! ## Functions -/

/-- A generator that fails leaves no code, and its error with the others. -/
def run (c : Context) (x : Gen Unit) (s : State) : Code × State :=
  match x c s with
  | .done _ code s => (code, s)
  | .failed e s => ([], { s with errors := e :: s.errors })

/-- Only the pool of constants, the place and the errors outlast a function. -/
def State.fresh (s : State) : State := { s with localCount := 0, scopes := [], pc := 0, marks := [] }

/-- A jump to a label goes where the label was left. -/
def resolve (marks : List (String × Nat)) : Instr → Op × Place
  | .op op place => (op, place)
  | .jumpTo label place => (.jump (UInt32.ofNat ((marks.lookup label).getD 0)), place)

/-- A jump whose target is no word of 32 bits. -/
def tooFar (marks : List (String × Nat)) : Instr → Bool
  | .op .. => false
  | .jumpTo label _ => decide (0x100000000 ≤ (marks.lookup label).getD 0)

/-- The places of instructions stand beside them, in an array of their own. -/
def assemble (name : String) (kind : FunctionKind) (params : List Ty) (ret : Ty) (locals : Nat)
    (marks : List (String × Nat)) (code : Code) : Function :=
  let instrs := code.map (resolve marks)
  ⟨name, kind, params, ret, UInt16.ofNat locals, (instrs.map Prod.fst).toArray,
    (instrs.map Prod.snd).toArray⟩

/-- The variables of the outermost block have slots before any code is there, as parameters do. -/
def declareFrame (f : FuncDecl) : Gen Unit := do
  setPlace f.span
  (labelErrors f.body).forM record
  let params ← declareParams (.empty none) f.params
  let body ← declareAll (.empty (some f.body.id)) f.body.stmts
  modify fun s => { s with scopes := [body, params] }

/-- Code enters the frame into the account of memory, runs the body, and returns a default value
at its end. -/
def genFrame (f : FuncDecl) : Gen Unit := do
  let scopes := (← state).scopes
  emit (.memStatic (← context).frameStatic)
  (scopes.drop 1).forM fun params =>
    params.dynamicSlots.forM fun slot => emit (.memIncr (.localVar slot))
  (scopes.take 1).forM fun body => initVars body.owned
  emit .checkRun
  genStmts f.body.stmts
  setPlace (lastOf f.body.span)
  returnDefault

/-- The static size of a frame is known only after its variables are declared. -/
def genFunction (names : Names) (f : FuncDecl) (kind : FunctionKind) (name : String) (ret : Ty)
    (s : State) : Function × State :=
  let c : Context := ⟨names, ret, 0, labelsOf f.body, none⟩
  let (_, s) := run c (declareFrame f) s.fresh
  let frameStatic := s.scopes.foldl (fun n scope => n + scope.staticSize) frameSize
  let (code, s) := run { c with frameStatic } (genFrame f) s
  let s := if code.any (tooFar s.marks) then
    { s with errors := semantic .functionTooLarge ⟨0, 0⟩ :: s.errors } else s
  (assemble name kind (f.params.map Param.ty) ret s.localCount s.marks code, s)

def genFirst (d : VarDecl) : Gen Unit :=
  match d.init with
  | some e => genInitial e d.ty
  | none => emit (.pushDefault d.ty)

/-- An error in one initial value does not hide those in others. -/
def genGlobal (d : VarDecl) (index : UInt16) : Gen Unit := do
  setPlace d.span
  emit (.memStatic d.ty.staticSize)
  report (genFirst d)
  emit (.storeGlobal index)
  if d.ty.hasDynamicSize then emit (.memIncr (.globalVar index))

/-- Gives global variables their first values, from the one with the given number on. Each can use
those before it. -/
def genGlobals (names : Names) (i : Nat) : List VarDecl → State → Code × State
  | [], s => run ⟨names, .void, 0, [], none⟩ (emit .ret) s
  | d :: ds, s =>
    match names.globals.lookup d.name with
    | some g =>
      if g.index.toNat = i then
        let (code, s) := run ⟨names, .void, 0, [], some i⟩ (genGlobal d g.index) s
        let (rest, s) := genGlobals names (i + 1) ds s
        (code ++ rest, s)
      else genGlobals names (i + 1) ds s
    | none => genGlobals names (i + 1) ds s

def genInit (names : Names) (globals : List VarDecl) (s : State) : Function × State :=
  let (code, s) := genGlobals names 0 globals s.fresh
  (assemble "$globals" .init [] .void 0 [] code, s)

/-! ## Handlers -/

/-- The functions so far, and what goes from one to the next. -/
structure Build where
  functions : List Function
  state : State

def Build.complain (b : Build) (e : SemanticError) (span : Span) : Build :=
  { b with state := { b.state with errors := semantic e span :: b.state.errors } }

/-- The handlers of one state, by columns of the dispatch table. -/
structure Row where
  build : Build
  cells : List (Option UInt16)
  seen : List Event

def Row.complain (r : Row) (e : SemanticError) (span : Span) : Row :=
  { r with build := r.build.complain e span }

/-- A handler that is refused leaves its cell empty. -/
def addHandler (names : Names) (state : StateDecl) (i : Nat) (r : Row) (h : FuncDecl) : Row :=
  match Event.ofName? h.name with
  | none => r.complain (.unknownEvent h.name) h.span
  | some event =>
    if event ∈ r.seen then r.complain (.duplicateHandler h.name state.name) h.span
    else
      let r := { r with seen := event :: r.seen }
      if h.params.map Param.ty ≠ event.signature then r.complain (.handlerParameters event) h.span
      else
        match Word.index? r.build.functions.length with
        | none => r.complain .tooManyFunctions h.span
        | some index =>
          let name := state.name ++ " " ++ event.name
          let (f, s) := genFunction names h (.handler (stateIndex i) event) name .void r.build.state
          let cells := match event.column? with
            | some column => r.cells.set column (some index)
            | none => r.cells
          { r with build := ⟨r.build.functions ++ [f], s⟩, cells }

/-- One row of the dispatch table for each state. -/
def genStates (names : Names) (i : Nat) :
    List StateDecl → Build → List (List (Option UInt16)) × Build
  | [], b => ([], b)
  | state :: states, b =>
    let r : Row := ⟨b, List.replicate Event.tableWidth none, []⟩
    let r := state.handlers.foldl (addHandler names state i) r
    let (rows, b) := genStates names (i + 1) states r.build
    (r.cells :: rows, b)

def addFunction (names : Names) (b : Build) (f : FuncDecl) : Build :=
  let (g, s) := genFunction names f .script f.name f.ret b.state
  ⟨b.functions ++ [g], s⟩

end Compile

open Compile in
/-- The code that initialises global variables is the last function. -/
def Module.ofScript (script : Script) (source name : String) : Except (List Diagnostic) Module :=
  let (names, errors) := namesOf script source
  let start : Build := ⟨[], ⟨[], 0, [], ⟨1, 1⟩, 0, [], errors.reverse⟩⟩
  let b := script.functions.foldl (addFunction names) start
  let (dispatch, b) := genStates names 0 script.states b
  let index? := Word.index? b.functions.length
  let b := if index?.isNone then b.complain .tooManyFunctions ⟨0, 0⟩ else b
  let (init, s) := genInit names script.globals b.state
  match s.errors with
  | [] => .ok {
      version := moduleVersion
      name
      fingerprint := EventScript.fingerprint source
      arrays := script.arrays
      constants := s.constants.toArray
      globals := names.globals.map fun (name, g) => ⟨name, g.ty⟩
      init := index?.getD 0
      functions := (b.functions ++ [init]).toArray
      states := names.states.map Prod.fst
      dispatch }
  | errors => .error (errors.reverse.map (Diagnostic.locate source))

def Script.ofSource (source : String) : Except (List Diagnostic) Script := do
  Script.ofTokens (← TokenStream.ofSource source)

def Module.ofSource (source name : String) : Except (List Diagnostic) Module :=
  match Script.ofSource source with
  | .error errors => .error (errors.map (Diagnostic.locate source))
  | .ok script => Module.ofScript script source name

end EventScript
