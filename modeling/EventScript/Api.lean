import EventScript.Ty

/-!
# Library functions

The functions that scripts call and hosts answer. Compiled code names a function by its place in
the table.
-/

namespace EventScript

structure ApiFunction where
  name : String
  params : List (String × Ty)
  ret : Ty
  category : String
  description : String
  deriving DecidableEq, Inhabited

namespace ApiFunction

def table : List ApiFunction :=
  [⟨"llSay", [("channel", .integer), ("msg", .string)], .void, "chat",
     "Say text on a channel (20m range)"⟩,
   ⟨"llShout", [("channel", .integer), ("msg", .string)], .void, "chat",
     "Shout text on a channel (100m range)"⟩,
   ⟨"llWhisper", [("channel", .integer), ("msg", .string)], .void, "chat",
     "Whisper text on a channel (10m range)"⟩,
   ⟨"llRegionSay", [("channel", .integer), ("msg", .string)], .void, "chat",
     "Say text to the whole region"⟩,
   ⟨"llOwnerSay", [("msg", .string)], .void, "chat", "Send text to the object owner only"⟩,
   ⟨"llListen", [("channel", .integer), ("name", .string), ("id", .key), ("msg", .string)],
     .integer, "chat", "Open a listener; returns its handle"⟩,
   ⟨"llListenRemove", [("handle", .integer)], .void, "chat", "Close a listener"⟩,
   ⟨"llSetTimerEvent", [("sec", .float)], .void, "time",
     "Fire the timer event every `sec` seconds (0 stops it)"⟩,
   ⟨"llSleep", [("sec", .float)], .void, "time", "Pause the script"⟩,
   ⟨"llGetTime", [], .float, "time", "Seconds since the script started or the timer was reset"⟩,
   ⟨"llGetUnixTime", [], .integer, "time", "Seconds since the Unix epoch"⟩,
   ⟨"llStringLength", [("s", .string)], .integer, "string", "Number of characters in a string"⟩,
   ⟨"llGetSubString", [("s", .string), ("start", .integer), ("end", .integer)], .string, "string",
     "Inclusive substring; negative indices count from the end"⟩,
   ⟨"llToUpper", [("s", .string)], .string, "string", "Upper-case copy"⟩,
   ⟨"llToLower", [("s", .string)], .string, "string", "Lower-case copy"⟩,
   ⟨"llGetListLength", [("src", .list)], .integer, "list", "Number of elements in a list"⟩,
   ⟨"llList2String", [("src", .list), ("index", .integer)], .string, "list",
     "Element converted to string (empty when out of range)"⟩,
   ⟨"llList2Integer", [("src", .list), ("index", .integer)], .integer, "list",
     "Element converted to integer (0 when out of range)"⟩,
   ⟨"llList2Float", [("src", .list), ("index", .integer)], .float, "list",
     "Element converted to float (0.0 when out of range)"⟩,
   ⟨"llList2Key", [("src", .list), ("index", .integer)], .key, "list", "Element converted to key"⟩,
   ⟨"llDumpList2String", [("src", .list), ("sep", .string)], .string, "list",
     "Join elements with a separator"⟩,
   ⟨"llAbs", [("val", .integer)], .integer, "math", "Integer absolute value"⟩,
   ⟨"llFabs", [("val", .float)], .float, "math", "Float absolute value"⟩,
   ⟨"llSqrt", [("val", .float)], .float, "math", "Square root"⟩,
   ⟨"llPow", [("base", .float), ("exp", .float)], .float, "math", "Power"⟩,
   ⟨"llSin", [("theta", .float)], .float, "math", "Sine"⟩,
   ⟨"llCos", [("theta", .float)], .float, "math", "Cosine"⟩,
   ⟨"llFloor", [("val", .float)], .integer, "math", "Round down to integer"⟩,
   ⟨"llCeil", [("val", .float)], .integer, "math", "Round up to integer"⟩,
   ⟨"llRound", [("val", .float)], .integer, "math", "Round half away from zero"⟩,
   ⟨"llFrand", [("mag", .float)], .float, "math", "Pseudo-random float in [0, mag)"⟩,
   ⟨"llVecMag", [("v", .vector)], .float, "vector", "Vector magnitude"⟩,
   ⟨"llVecNorm", [("v", .vector)], .vector, "vector", "Unit vector in the same direction"⟩,
   ⟨"llVecDist", [("a", .vector), ("b", .vector)], .float, "vector", "Distance between two points"⟩,
   ⟨"llGetKey", [], .key, "object", "Key of the prim running the script"⟩,
   ⟨"llGetOwner", [], .key, "object", "Key of the object owner"⟩,
   ⟨"llMessageLinked", [("link", .integer), ("num", .integer), ("str", .string), ("id", .key)],
     .void, "object", "Send a link_message event to scripts in the link set"⟩,
   ⟨"llGiveMoney", [("dest", .key), ("amount", .integer)], .integer, "object",
     "Pay an avatar from the owner's balance"⟩,
   ⟨"llHTTPRequest", [("url", .string), ("params", .list), ("body", .string)], .key, "net",
     "Start an HTTP request; the reply arrives as http_response"⟩,
   ⟨"llResetScript", [], .void, "control", "Reset globals and restart in the default state"⟩,
   ⟨"llDie", [], .void, "control", "Delete the object and stop the script"⟩]

def get? (index : UInt16) : Option ApiFunction := table[index.toNat]?

def find? (name : String) : Option (Nat × ApiFunction) :=
  (table.findIdx? (·.name == name)).bind fun i => table[i]?.map fun f => (i, f)

def signature (f : ApiFunction) : List Ty := f.params.map Prod.snd

end ApiFunction

end EventScript
