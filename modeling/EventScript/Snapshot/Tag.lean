/-!
# Tags

Every value in a snapshot stream follows a byte that says what it is.
-/

namespace EventScript

/-- What follows in a stream. -/
inductive Tag where
  | null
  | eventCode
  | float
  | integer
  | key
  | list
  | rotation
  | string
  | vector
  | values
  | double
  | single
  | word
  | text
  | array
  | receiver
  | bool
  deriving DecidableEq, Inhabited

namespace Tag

def all : List Tag :=
  [null, eventCode, float, integer, key, list, rotation, string, vector, values, double, single,
    word, text, array, receiver, bool]

def byte : Tag → UInt8
  | null => 0
  | eventCode => 1
  | float => 2
  | integer => 3
  | key => 4
  | list => 5
  | rotation => 6
  | string => 7
  | vector => 8
  | values => 9
  | double => 10
  | single => 11
  | word => 12
  | text => 13
  | array => 14
  | receiver => 15
  | bool => 16

def ofByte? (b : UInt8) : Option Tag := all.find? (·.byte == b)

def label : Tag → String
  | null => "NULL"
  | eventCode => "EVENTCODE"
  | float => "LSLFLOAT"
  | integer => "LSLINT"
  | key => "LSLKEY"
  | list => "LSLLIST"
  | rotation => "LSLROT"
  | string => "LSLSTR"
  | vector => "LSLVEC"
  | values => "OBJARRAY"
  | double => "SYSDOUB"
  | single => "SYSFLOAT"
  | word => "SYSINT"
  | text => "SYSSTR"
  | array => "XMRARRAY"
  | receiver => "SUBST"
  | bool => "SYSBOOL"

end Tag

end EventScript
