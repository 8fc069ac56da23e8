import EventScript.Host

/-!
# The recording host

A host without a world. It keeps a log of the calls and answers each from a small state, so that
the same calls always get the same answers.
-/

namespace EventScript

structure LoggedCall where
  function : String
  args : List Value
  deriving Inhabited

structure Recorder where
  log : List LoggedCall := []
  /-- `llSleep` suspends the script. -/
  yields : Bool := false
  clock : Double := .zero
  nextHandle : Int32 := 1
  seed : UInt64 := 0x2545f4914f6cdd1d

namespace Recorder

def objectKey : String := "a2e76fcd-9360-4f6d-a924-000000000001"

def ownerKey : String := "a2e76fcd-9360-4f6d-a924-000000000002"

def unixTime : Int32 := 1700000000

/-- Two readings of the clock differ by a quarter of a second. -/
def tick : Double := ⟨0x3fd0000000000000⟩

def shuffle (x : UInt64) : UInt64 :=
  let x := x ^^^ (x <<< 13)
  let x := x ^^^ (x >>> 7)
  x ^^^ (x <<< 17)

/-- The number between zero and one that a state stands for: its first 53 bits. -/
def fraction (x : UInt64) : Double := .ofParts false (x >>> 11).toNat (-53)

def requestKey (n : Int32) : String :=
  "00000000-0000-0000-0000-" ++ Word.hex 12 n.toUInt32.toNat

def answer (f : ApiFunction) (args : List Value) (r : Recorder) : Except Interrupt Value × Recorder :=
  match f.name with
  | "llResetScript" => (.error (.signal .reset), r)
  | "llDie" => (.error (.signal .terminate), r)
  | "llSleep" => if r.yields then (.error .suspend, r) else (.ok (.default f.ret), r)
  | "llGetTime" =>
    let now := r.clock + tick
    (.ok (.float now), { r with clock := now })
  | "llGetUnixTime" => (.ok (.integer unixTime), r)
  | "llFrand" =>
    let seed := shuffle r.seed
    let range := (args.head?.map Value.asFloat).getD .one
    (.ok (.float (fraction seed * range)), { r with seed })
  | "llListen" => (.ok (.integer r.nextHandle), { r with nextHandle := r.nextHandle + 1 })
  | "llGetKey" => (.ok (.key objectKey), r)
  | "llGetOwner" => (.ok (.key ownerKey), r)
  | "llHTTPRequest" =>
    (.ok (.key (requestKey r.nextHandle)), { r with nextHandle := r.nextHandle + 1 })
  | "llGiveMoney" =>
    let payee := (args.head?.map Value.asText).getD ""
    if payee = nullKey ∨ payee = "" then (.error (.failed "cannot pay the null key"), r)
    else (.ok (.integer 1), r)
  | _ => (.ok (.default f.ret), r)

/-- A call: it is computed, or logged and then answered. -/
def call (f : ApiFunction) (args : List Value) (r : Recorder) : Reply Recorder :=
  match ApiFunction.pure? f.name args with
  | some v => ⟨.ok v, r, []⟩
  | none =>
    let (result, r) := answer f args { r with log := ⟨f.name, args⟩ :: r.log }
    ⟨result, r, []⟩

/-- A call that was suspended. A sleep is over; any other call is made again. -/
def resume (f : ApiFunction) (args : List Value) (r : Recorder) : Reply Recorder :=
  if f.name = "llSleep" then ⟨.ok .undefined, r, []⟩ else call f args r

def calls (r : Recorder) : List LoggedCall := r.log.reverse

end Recorder

def Host.recording : Host Recorder := ⟨Recorder.call, Recorder.resume⟩

end EventScript
