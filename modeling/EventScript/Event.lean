import EventScript.Ty

/-!
# Events

What a script can react to. Every event has a stable code number, which is also its column in a
dispatch table, and fixes the parameter types of its handlers. `none` stands for no event and
`garbage` is what a disposed instance shows; neither has handlers.
-/

namespace EventScript

inductive Event where
  | none
  | attach
  | stateExit
  | timer
  | touch
  | collision
  | collisionEnd
  | collisionStart
  | control
  | dataserver
  | email
  | httpResponse
  | landCollision
  | landCollisionEnd
  | landCollisionStart
  | atTarget
  | listen
  | money
  | movingEnd
  | movingStart
  | notAtRotTarget
  | notAtTarget
  | touchStart
  | objectRez
  | remoteData
  | runTimePermissions
  | touchEnd
  | stateEntry
  | atRotTarget
  | changed
  | linkMessage
  | noSensor
  | onRez
  | sensor
  | garbage
  deriving DecidableEq, Inhabited

namespace Event

def handled : List Event :=
  [attach, stateExit, timer, touch, collision, collisionEnd, collisionStart, control, dataserver,
   email, httpResponse, landCollision, landCollisionEnd, landCollisionStart, atTarget, listen,
   money, movingEnd, movingStart, notAtRotTarget, notAtTarget, touchStart, objectRez, remoteData,
   runTimePermissions, touchEnd, stateEntry, atRotTarget, changed, linkMessage, noSensor, onRez,
   sensor]

def ordinal : Event → Int32
  | none => -1
  | attach => 0
  | stateExit => 1
  | timer => 2
  | touch => 3
  | collision => 4
  | collisionEnd => 5
  | collisionStart => 6
  | control => 7
  | dataserver => 8
  | email => 9
  | httpResponse => 10
  | landCollision => 11
  | landCollisionEnd => 12
  | landCollisionStart => 13
  | atTarget => 14
  | listen => 15
  | money => 16
  | movingEnd => 17
  | movingStart => 18
  | notAtRotTarget => 19
  | notAtTarget => 20
  | touchStart => 21
  | objectRez => 22
  | remoteData => 23
  | runTimePermissions => 28
  | touchEnd => 29
  | stateEntry => 30
  | atRotTarget => 32
  | changed => 33
  | linkMessage => 34
  | noSensor => 35
  | onRez => 36
  | sensor => 37
  | garbage => 12345678

def all : List Event := none :: garbage :: handled

def ofOrdinal? (n : Int32) : Option Event := all.find? (·.ordinal == n)

def tableWidth : Nat := 38

def column? (e : Event) : Option Nat :=
  let n := e.ordinal.toInt
  if 0 ≤ n ∧ n < tableWidth then some n.toNat else Option.none

def name : Event → String
  | none => "None"
  | attach => "attach"
  | stateExit => "state_exit"
  | timer => "timer"
  | touch => "touch"
  | collision => "collision"
  | collisionEnd => "collision_end"
  | collisionStart => "collision_start"
  | control => "control"
  | dataserver => "dataserver"
  | email => "email"
  | httpResponse => "http_response"
  | landCollision => "land_collision"
  | landCollisionEnd => "land_collision_end"
  | landCollisionStart => "land_collision_start"
  | atTarget => "at_target"
  | listen => "listen"
  | money => "money"
  | movingEnd => "moving_end"
  | movingStart => "moving_start"
  | notAtRotTarget => "not_at_rot_target"
  | notAtTarget => "not_at_target"
  | touchStart => "touch_start"
  | objectRez => "object_rez"
  | remoteData => "remote_data"
  | runTimePermissions => "run_time_permissions"
  | touchEnd => "touch_end"
  | stateEntry => "state_entry"
  | atRotTarget => "at_rot_target"
  | changed => "changed"
  | linkMessage => "link_message"
  | noSensor => "no_sensor"
  | onRez => "on_rez"
  | sensor => "sensor"
  | garbage => "Garbage"

def ofName? (s : String) : Option Event := handled.find? (·.name == s)

def signature : Event → List Ty
  | atRotTarget => [.integer, .rotation, .rotation]
  | atTarget => [.integer, .vector, .vector]
  | attach | objectRez => [.key]
  | changed | collision | collisionEnd | collisionStart | onRez | runTimePermissions | sensor
  | touch | touchStart | touchEnd => [.integer]
  | control => [.key, .integer, .integer]
  | dataserver => [.key, .string]
  | email => [.string, .string, .string, .string, .integer]
  | httpResponse => [.key, .integer, .list, .string]
  | landCollision | landCollisionEnd | landCollisionStart => [.vector]
  | linkMessage => [.integer, .integer, .string, .key]
  | listen => [.integer, .string, .key, .string]
  | money => [.key, .integer]
  | remoteData => [.integer, .key, .key, .string, .integer, .string]
  | movingEnd | movingStart | noSensor | notAtRotTarget | notAtTarget | stateEntry | stateExit
  | timer | none | garbage => []

end Event

end EventScript
