import EventScript.Command

/-!
# Command lines

`Invocation.ofArgs?` reads the words of a command line. The value of an option is the next word, or
follows the option after an equals sign; it follows a short option also at once. The options that
hold for all commands can stand before the command or after it.
-/

namespace EventScript

namespace CommandLine

inductive Word where
  | plain (text : String)
  /-- An option with two dashes and the value after an equals sign. -/
  | long (name : String) (value : Option String)
  /-- An option with one dash and the value that follows at once. -/
  | short (name : Char) (value : Option String)
  | stop
  deriving DecidableEq

def splitEquals (cs : List Char) : String × Option String :=
  let name := String.ofList (cs.takeWhile (· ≠ '='))
  match cs.dropWhile (· ≠ '=') with
  | _ :: value => (name, some (String.ofList value))
  | [] => (name, none)

def attached : List Char → Option String
  | [] => none
  | '=' :: cs => some (String.ofList cs)
  | cs => some (String.ofList cs)

def Word.ofText (text : String) : Word :=
  match text.toList with
  | ['-', '-'] => .stop
  | '-' :: '-' :: cs =>
    let (name, value) := splitEquals cs
    .long name value
  | '-' :: c :: cs => .short c (attached cs)
  | _ => .plain text

structure Parsed where
  config : Option String := none
  memoryLimit : Option Int32 := none
  events : List String := []
  out : Option String := none
  stream : Option String := none
  plain : List String := []

inductive Key where
  | config
  | memoryLimit
  | event
  | out
  | stream
  deriving DecidableEq

def key? (allowed : List Key) (w : Word) : Option Key :=
  let k := match w with
    | .long "config" _ => some Key.config
    | .long "memory-limit" _ => some .memoryLimit
    | .long "event" _ | .short 'e' _ => some .event
    | .long "out" _ | .short 'o' _ => some .out
    | .long "stream" _ => some .stream
    | _ => none
  k.filter (· ∈ allowed)

def limit? (text : String) : Option Int32 :=
  let (negative, digits) := Decimal.splitSign text.toList
  if digits.isEmpty || !digits.all Char.isDigit then none
  else
    let n : Int := Decimal.digitsValue digits
    EventScript.Word.ofInt? (if negative then -n else n)

/-- Sets an option. Only events can be given several times. -/
def Parsed.set? (p : Parsed) (k : Key) (value : String) : Option Parsed :=
  match k with
  | .config => if p.config.isSome then none else some { p with config := some value }
  | .memoryLimit =>
    if p.memoryLimit.isSome then none
    else (limit? value).map fun n => { p with memoryLimit := some n }
  | .event => some { p with events := p.events ++ [value] }
  | .out => if p.out.isSome then none else some { p with out := some value }
  | .stream => if p.stream.isSome then none else some { p with stream := some value }

def Word.value? : Word → Option String
  | .long _ value | .short _ value => value
  | _ => none

def Word.isValue : Word → Bool
  | .plain _ => true
  | _ => false

/-- Reads words. `untilPlain` stops before the first word that is not an option. -/
def read? (allowed : List Key) (untilPlain : Bool) (p : Parsed) :
    List String → Option (Parsed × List String)
  | [] => some (p, [])
  | text :: rest =>
    let w := Word.ofText text
    match w with
    | .plain _ =>
      if untilPlain then some (p, text :: rest)
      else read? allowed untilPlain { p with plain := p.plain ++ [text] } rest
    | .stop => if untilPlain then none else some ({ p with plain := p.plain ++ rest }, [])
    | _ => do
      let k ← key? allowed w
      match w.value? with
      | some value => read? allowed untilPlain (← p.set? k value) rest
      | none =>
        match rest with
        | value :: rest =>
          if (Word.ofText value).isValue then read? allowed untilPlain (← p.set? k value) rest
          else none
        | [] => none

def general : List Key := [.config, .memoryLimit]

def options? : String → Option (List Key)
  | "check" | "disasm" => some general
  | "compile" => some (.out :: general)
  | "run" => some (.event :: general)
  | "migrate" => some (.event :: .stream :: general)
  | _ => none

def command? (name : String) (p : Parsed) (script : String) : Option Command :=
  match name with
  | "check" => some (.check script)
  | "compile" => some (.compile script p.out)
  | "disasm" => some (.disasm script)
  | "run" => some (.run script p.events)
  | "migrate" => some (.migrate script p.events p.stream)
  | _ => none

end CommandLine

open CommandLine in
def Invocation.ofArgs? (args : List String) : Option Invocation := do
  let (before, rest) ← read? general true {} args
  match rest with
  | [] => none
  | name :: rest =>
    let (p, _) ← read? (← options? name) false {} rest
    match p.plain with
    | [script] =>
      let command ← command? name p script
      return ⟨command, p.config.orElse fun _ => before.config,
        p.memoryLimit.orElse fun _ => before.memoryLimit⟩
    | _ => none

end EventScript
