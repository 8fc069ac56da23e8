import EventScript.Machine

/-!
# Snapshots

All that is needed to go on with an instance elsewhere, given its module.
-/

namespace EventScript

/-- Where the running handler stands in a change of state. -/
inductive Phase where
  | handler
  | exiting (next : UInt16)
  | entering
  deriving DecidableEq, Inhabited

/-- The part of a snapshot that is about a running handler. -/
structure Activity where
  pending : Option UInt16
  phase : Phase
  frames : List Frame
  deriving Inhabited

structure Snapshot where
  state : Int32
  event : Event
  memUsage : Int32
  memLimit : Int32
  eventArgs : List Value
  globals : List Value
  active : Option Activity
  deriving Inhabited

end EventScript
