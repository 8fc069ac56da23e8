/-!
# Status of an instance
-/

namespace EventScript

inductive Status where
  | idle
  | running
  | suspended
  | migratingOut
  | disposed
  deriving DecidableEq, Inhabited

def Status.name : Status → String
  | idle => "idle"
  | running => "running"
  | suspended => "suspended"
  | migratingOut => "migrating out"
  | disposed => "disposed"

end EventScript
