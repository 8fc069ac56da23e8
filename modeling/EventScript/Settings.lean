import EventScript.File
import EventScript.Json.Decode

/-!
# Settings

The limits and switches of instances, as a file keeps them. Fields that a file does not have take
their defaults.
-/

namespace EventScript

/-- The memory limit is looked at only at checkpoints. With `alwaysSuspend` each of them stops. -/
structure Settings where
  version : UInt32 := 1
  memoryLimit : Int32 := 100000
  alwaysSuspend : Bool := false
  logFilter : String := "info"
  maxCallDepth : Nat := 256
  deriving DecidableEq, Inhabited

/-- The newest version of the file that can be read. -/
def settingsVersion : UInt32 := 1

/-- Values that can be read but not used. -/
inductive SettingsProblem where
  | newer (version : UInt32)
  | memoryLimit
  | maxCallDepth
  deriving DecidableEq

def SettingsProblem.message : SettingsProblem → String
  | newer version =>
    "settings version " ++ toString version.toNat ++ " is newer than " ++
      toString settingsVersion.toNat
  | memoryLimit => "memory_limit must be positive"
  | maxCallDepth => "max_call_depth must be at least 1"

/-- What can go wrong when settings are loaded or stored. -/
inductive SettingsError where
  | file (cause : FileError)
  | unreadable
  | invalid (cause : SettingsProblem)
  deriving DecidableEq

def SettingsError.message : SettingsError → String
  | file cause => "I/O error: " ++ cause.message
  | unreadable => "JSON error"
  | invalid cause => "Invalid settings: " ++ cause.message

namespace Settings

/-- The first problem is the one that is reported. -/
def validate (s : Settings) : Except SettingsError Unit := do
  if settingsVersion < s.version then throw (.invalid (.newer s.version))
  if s.memoryLimit ≤ 0 then throw (.invalid .memoryLimit)
  if s.maxCallDepth = 0 then throw (.invalid .maxCallDepth)

variable (F : Format)

def toJson (s : Settings) : F.Doc :=
  F.record [
    ("version", F.nat s.version.toNat),
    ("memory_limit", F.integer s.memoryLimit.toInt),
    ("always_suspend", F.bool s.alwaysSuspend),
    ("log_filter", F.text s.logFilter),
    ("max_call_depth", F.nat s.maxCallDepth)]

/-- A field that is missing has its default, but one that cannot be read is an error. -/
def fieldOr {α : Type} (default : α) (read : F.Doc → Option α) : Option F.Doc → Option α
  | none => some default
  | some j => read j

def ofJson? (j : F.Doc) : Option Settings := do
  let names := ["version", "memory_limit", "always_suspend", "log_filter", "max_call_depth"]
  match ← F.partialRecord? names j with
  | [version, memory, always, filter, depth] =>
    let d : Settings := {}
    return {
      version := ← fieldOr F d.version F.uint32? version
      memoryLimit := ← fieldOr F d.memoryLimit F.int32? memory
      alwaysSuspend := ← fieldOr F d.alwaysSuspend F.bool? always
      logFilter := ← fieldOr F d.logFilter F.text? filter
      maxCallDepth := ← fieldOr F d.maxCallDepth (F.nat? (1 <<< 64)) depth }
  | _ => none

def ofText (text : String) : Except SettingsError Settings :=
  match (Json.format.read? text).bind (ofJson? Json.format) with
  | none => .error .unreadable
  | some s => do
    s.validate
    return s

def load : Except FileError String → Except SettingsError Settings
  | .error e => .error (.file e)
  | .ok text => ofText text

/-- Only a file that is not there gives the defaults; one that cannot be read is an error. -/
def loadOrDefault : Except FileError String → Except SettingsError Settings
  | .error .notFound => .ok {}
  | file => load file

/-- Settings that cannot be used are not stored. -/
def toText (s : Settings) : Except SettingsError String := do
  s.validate
  return Json.format.print (s.toJson Json.format)

end Settings

end EventScript
