import EventScript.Api.Pure
import EventScript.Fault

/-!
# Hosts

A host answers the calls of library functions. It is a state machine: an answer depends on its
state, the function and the arguments alone. A call that cannot be finished yet is suspended and
is finished by `resume` when the script goes on. While it answers, a host can also ask that the
script be suspended or written to a sink.
-/

namespace EventScript

inductive Interrupt where
  | failed (message : String)
  | signal (signal : Signal)
  | suspend
  deriving DecidableEq

/-- A write fails, but some bytes at its beginning may have been taken. -/
structure Refusal where
  reason : String
  taken : Nat := 0

instance : Coe String Refusal := ⟨fun reason => { reason }⟩

structure Sink where
  id : Nat
  /-- Why the sink does not take a write, given the bytes that it took before, last first. The write
  of nothing at the end asks the sink to pass on what it has. -/
  refuses : List UInt8 → List UInt8 → Option Refusal

def Sink.accepting (id : Nat) : Sink := ⟨id, fun _ _ => none⟩

inductive Request where
  | suspend
  | migrate (sink : Sink)

structure Reply (σ : Type) where
  answer : Except Interrupt Value
  state : σ
  posts : List Request := []

structure Host (σ : Type) where
  call : ApiFunction → List Value → σ → Reply σ
  resume : ApiFunction → List Value → σ → Reply σ

namespace Host

def null : Host Unit :=
  let call (f : ApiFunction) (args : List Value) (_ : Unit) : Reply Unit :=
    match ApiFunction.pure? f.name args with
    | some v => ⟨.ok v, (), []⟩
    | none => ⟨.error (.failed "no host attached"), (), []⟩
  ⟨call, call⟩

end Host

end EventScript
