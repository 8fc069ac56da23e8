import EventScript.Machine.Step

/-!
# Runs

`Machine.run` steps until the machine stops and `Machine.boot` runs the code that gives the global
variables their first values. Scripts need not end, so the number of steps is bounded by `fuel`,
and there is no outcome if it is used up.
-/

namespace EventScript

inductive Exit where
  | completed (value : Value)
  | suspended
  | fault (fault : PlacedFault)
  | signal (signal : Signal)

def Env.unpolled {ω : Type} (env : Env ω) : Env ω := { env with poll := fun w => (false, w) }

namespace Machine

variable {ω : Type}

/-- The end of a run that stopped in a machine state; a fault gets its place. -/
def exit (m : Module) (s : Machine) : Halt → Exit
  | .completed v => .completed v
  | .suspended => .suspended
  | .fault f => .fault ⟨f, s.place? m⟩
  | .signal x => .signal x

/-- Runs until the outermost call returns, the machine is suspended or something stops it. -/
def run (env : Env ω) (m : Module) : Nat → Machine → ω → Option (Exit × Machine × ω)
  | 0, _, _ => none
  | fuel + 1, s, w =>
    match step env m s w with
    | .next s w => run env m fuel s w
    | .halt why s w => some (exit m s why, s, w)

inductive BootError where
  | fault (fault : PlacedFault)
  | signal (signal : Signal)

def BootError.toFault : BootError → PlacedFault
  | fault f => f
  | signal x => Fault.corrupt (.initSignal x)

def bootResult : Exit → Except BootError Unit
  | .completed _ => .ok ()
  | .suspended => .error (.fault (Fault.corrupt .initSuspended))
  | .fault f => .error (.fault f)
  | .signal x => .error (.signal x)

def boot (env : Env ω) (m : Module) (fuel : Nat) (s : Machine) (w : ω) :
    Option (Except BootError Unit × Machine × ω) :=
  let s := s.rewound m
  match s.enter m m.init [] with
  | .error f => some (.error (.fault f), s, w)
  | .ok s => (run env.unpolled m fuel s w).map fun (e, s, w) => (bootResult e, s, w)

end Machine

end EventScript
