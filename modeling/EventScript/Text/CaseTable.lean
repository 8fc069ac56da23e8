import EventScript.Text.Ranges

/-!
# Case tables

The upper and lower case of every character that has one. Neighbouring characters that move by
the same distance share a `Run`; characters whose other case is longer than one character stand in
lists of their own. Lower case goes back where upper case goes, but for a few letters.
-/

namespace EventScript.Text

/-- Every `step`-th code point from `first` to `last` moves by `shift`. -/
structure Run where
  first : Nat
  last : Nat
  step : Nat
  shift : Int

def Run.holds (r : Run) (n : Nat) : Bool :=
  decide (r.first ≤ n) && decide (n ≤ r.last) && (n - r.first) % r.step == 0

def Run.inverse (r : Run) : Run :=
  ⟨(r.first + r.shift).toNat, (r.last + r.shift).toNat, r.step, -r.shift⟩

/-- Runs from the given code point on. Each is given by the distance to the one before, the number of
its code points, its step and its shift. -/
def runsFrom (n : Nat) : List (Nat × Nat × Nat × Int) → List Run
  | [] => []
  | (gap, count, step, shift) :: rest =>
    let last := n + gap + (count - 1) * step
    ⟨n + gap, last, step, shift⟩ :: runsFrom (last + 1) rest

def upperRuns : List Run := runsFrom 0
  [(97,26,1,-32),(58,1,1,743),(42,23,1,-32),(1,7,1,-32),(0,1,1,121),(1,24,2,-1),(1,1,1,-232),
   (1,3,2,-1),(2,8,2,-1),(2,23,2,-1),(2,3,2,-1),(0,1,1,-300),(0,1,1,195),(2,2,2,-1),(2,1,1,-1),
   (3,1,1,-1),(5,1,1,-1),(2,1,1,97),(3,1,1,-1),(0,1,1,163),(0,1,1,42561),(2,1,1,130),(2,3,2,-1),
   (2,1,1,-1),(4,1,1,-1),(2,1,1,-1),(3,2,2,-1),(2,1,1,-1),(3,1,1,-1),(1,1,1,56),(5,1,1,-1),
   (0,1,1,-2),(1,1,1,-1),(0,1,1,-2),(1,1,1,-1),(0,1,1,-2),(1,8,2,-1),(0,1,1,-79),(1,9,2,-1),
   (2,1,1,-1),(0,1,1,-2),(1,1,1,-1),(3,20,2,-1),(3,9,2,-1),(8,1,1,-1),(2,2,1,10815),(1,1,1,-1),
   (4,5,2,-1),(0,1,1,10783),(0,1,1,10780),(0,1,1,10782),(0,1,1,-210),(0,1,1,-206),(1,2,1,-205),
   (1,1,1,-202),(1,1,1,-203),(0,1,1,42319),(3,1,1,-205),(0,1,1,42315),(1,1,1,-207),(0,1,1,42343),
   (0,1,1,42280),(0,1,1,42308),(1,1,1,-209),(0,1,1,-211),(0,1,1,42308),(0,1,1,10743),(0,1,1,42305),
   (2,1,1,-211),(1,1,1,10749),(0,1,1,-213),(2,1,1,-214),(7,1,1,10727),(2,1,1,-218),(1,1,1,42307),
   (0,1,1,-218),(3,1,1,42282),(0,1,1,-218),(0,1,1,-69),(0,2,1,-217),(0,1,1,-71),(5,1,1,-219),
   (10,1,1,42261),(0,1,1,42258),(166,1,1,84),(43,2,2,-1),(3,1,1,-1),(3,3,1,130),(46,1,1,-38),
   (0,3,1,-37),(1,17,1,-32),(0,1,1,-31),(0,9,1,-32),(0,1,1,-64),(0,2,1,-63),(1,1,1,-62),(0,1,1,-57),
   (3,1,1,-47),(0,1,1,-54),(0,1,1,-8),(1,12,2,-1),(0,1,1,-86),(0,1,1,-80),(0,1,1,7),(0,1,1,-116),
   (1,1,1,-96),(2,1,1,-1),(2,1,1,-1),(52,32,1,-32),(0,16,1,-80),(1,17,2,-1),(9,27,2,-1),(2,7,2,-1),
   (0,1,1,-15),(1,48,2,-1),(49,38,1,-48),(2889,43,1,3008),(2,3,1,3008),(760,6,1,-8),
   (2178,1,1,-6254),(0,1,1,-6253),(0,1,1,-6244),(0,2,1,-6242),(0,1,1,-6243),(0,1,1,-6236),
   (0,1,1,-6181),(0,1,1,35266),(1,1,1,-1),(238,1,1,35332),(3,1,1,3814),(16,1,1,35384),(114,75,2,-1),
   (5,1,1,-59),(5,48,2,-1),(0,8,1,8),(8,6,1,8),(10,8,1,8),(8,8,1,8),(8,6,1,8),(11,4,2,8),(8,8,1,8),
   (8,2,1,74),(0,4,1,86),(0,2,1,100),(0,2,1,128),(0,2,1,112),(0,2,1,126),(50,2,1,8),(12,1,1,-7205),
   (17,2,1,8),(14,2,1,8),(3,1,1,7),(360,1,1,-28),(33,16,1,-16),(4,1,1,-1),(843,26,1,-26),
   (1862,48,1,-48),(1,1,1,-1),(3,1,1,-10795),(0,1,1,-10792),(1,3,2,-1),(6,1,1,-1),(2,1,1,-1),
   (10,50,2,-1),(8,2,2,-1),(4,1,1,-1),(12,38,1,-7264),(1,1,1,-7264),(5,1,1,-7264),(30995,23,2,-1),
   (19,14,2,-1),(135,7,2,-1),(3,31,2,-1),(10,2,2,-1),(2,5,2,-1),(4,1,1,-1),(4,2,2,-1),(0,1,1,48),
   (2,10,2,-1),(11,8,2,-1),(4,2,2,-1),(2,8,2,-1),(26,1,1,-1),(860,1,1,-928),(28,80,1,-38864),
   (21377,26,1,-32),(1229,40,1,-40),(136,36,1,-40),(155,11,1,-39),(1,15,1,-39),(1,7,1,-39),
   (1,2,1,-39),(1795,51,1,-64),(125,22,1,-32),(2874,32,1,-32),(21888,32,1,-32),(59,25,1,-27),
   (31310,34,1,-34)]

/-- Vowels with an iota below, which becomes a letter of its own. -/
def withIota (first base : Nat) : List (Nat × List Nat) :=
  (List.range 16).map fun k => (first + k, [base + k % 8, 0x399])

def upperLong : List (Nat × List Nat) :=
  withIota 0x1f80 0x1f08 ++ withIota 0x1f90 0x1f28 ++ withIota 0x1fa0 0x1f68 ++
  [(0xdf, [0x53, 0x53]), (0x149, [0x2bc, 0x4e]), (0x1f0, [0x4a, 0x30c]),
   (0x390, [0x399, 0x308, 0x301]), (0x3b0, [0x3a5, 0x308, 0x301]), (0x587, [0x535, 0x552]),
   (0x1e96, [0x48, 0x331]), (0x1e97, [0x54, 0x308]), (0x1e98, [0x57, 0x30a]),
   (0x1e99, [0x59, 0x30a]), (0x1e9a, [0x41, 0x2be]), (0x1f50, [0x3a5, 0x313]),
   (0x1f52, [0x3a5, 0x313, 0x300]), (0x1f54, [0x3a5, 0x313, 0x301]),
   (0x1f56, [0x3a5, 0x313, 0x342]), (0x1fb2, [0x1fba, 0x399]), (0x1fb3, [0x391, 0x399]),
   (0x1fb4, [0x386, 0x399]), (0x1fb6, [0x391, 0x342]), (0x1fb7, [0x391, 0x342, 0x399]),
   (0x1fbc, [0x391, 0x399]), (0x1fc2, [0x1fca, 0x399]), (0x1fc3, [0x397, 0x399]),
   (0x1fc4, [0x389, 0x399]), (0x1fc6, [0x397, 0x342]), (0x1fc7, [0x397, 0x342, 0x399]),
   (0x1fcc, [0x397, 0x399]), (0x1fd2, [0x399, 0x308, 0x300]), (0x1fd3, [0x399, 0x308, 0x301]),
   (0x1fd6, [0x399, 0x342]), (0x1fd7, [0x399, 0x308, 0x342]), (0x1fe2, [0x3a5, 0x308, 0x300]),
   (0x1fe3, [0x3a5, 0x308, 0x301]), (0x1fe4, [0x3a1, 0x313]), (0x1fe6, [0x3a5, 0x342]),
   (0x1fe7, [0x3a5, 0x308, 0x342]), (0x1ff2, [0x1ffa, 0x399]), (0x1ff3, [0x3a9, 0x399]),
   (0x1ff4, [0x38f, 0x399]), (0x1ff6, [0x3a9, 0x342]), (0x1ff7, [0x3a9, 0x342, 0x399]),
   (0x1ffc, [0x3a9, 0x399]), (0xfb00, [0x46, 0x46]), (0xfb01, [0x46, 0x49]), (0xfb02, [0x46, 0x4c]),
   (0xfb03, [0x46, 0x46, 0x49]), (0xfb04, [0x46, 0x46, 0x4c]), (0xfb05, [0x53, 0x54]),
   (0xfb06, [0x53, 0x54]), (0xfb13, [0x544, 0x546]), (0xfb14, [0x544, 0x535]),
   (0xfb15, [0x544, 0x53b]), (0xfb16, [0x54e, 0x546]), (0xfb17, [0x544, 0x53d])]

/-- Letters that are not the upper case of their lower case, or not of it alone. -/
def lowerOnly : List Run :=
  [⟨452,458,3,2⟩,⟨453,459,3,1⟩,⟨497,497,1,2⟩,⟨498,498,1,1⟩,⟨921,924,3,32⟩,⟨931,931,1,32⟩,⟨1012,1012,
   1,-60⟩,⟨7838,7838,1,-7615⟩,⟨8072,8079,1,-8⟩,⟨8088,8095,1,-8⟩,⟨8104,8111,1,-8⟩,⟨8124,8124,1,-9⟩,
   ⟨8140,8140,1,-9⟩,⟨8188,8188,1,-9⟩,⟨8486,8486,1,-7517⟩,⟨8490,8490,1,-8383⟩,⟨8491,8491,1,-8262⟩,
   ⟨42570,42570,1,1⟩]

def lowerRuns : List Run := lowerOnly ++ upperRuns.map Run.inverse

def lowerLong : List (Nat × List Nat) :=
  [(0x130, [0x69, 0x307])]

def cased : Ranges := .ofGaps 0
  [65,26,6,26,47,1,10,1,4,1,5,23,1,31,1,195,1,4,4,208,2,35,7,2,30,5,96,1,42,4,2,2,2,4,1,1,6,1,1,3,1,
   1,1,20,1,83,1,139,8,166,1,38,9,41,2839,38,1,1,5,1,2,43,1,4,672,86,2,6,2178,11,5,43,2,3,64,192,64,
   278,2,6,2,38,2,6,2,8,1,1,1,1,1,1,1,31,2,53,1,7,1,1,3,3,1,7,3,4,2,6,4,13,5,3,1,7,116,1,13,1,16,13,
   101,1,4,1,2,10,1,1,3,5,6,1,1,1,1,1,1,4,1,6,4,1,2,4,5,5,4,1,17,32,3,2,817,52,1814,229,6,4,3,2,12,
   38,1,1,5,1,30994,46,18,30,132,102,3,4,1,77,20,6,1,3,821,43,1,14,6,80,20288,7,12,5,1033,26,6,26,
   1189,80,96,36,4,36,116,11,1,15,1,7,1,2,1,11,1,15,1,7,1,2,451,1,2,3,1,42,1,9,1221,51,13,51,93,22,
   10,22,2842,64,21856,64,32,25,2,25,25900,85,1,71,1,2,2,1,2,2,2,4,1,12,1,1,1,7,1,65,1,4,2,8,1,7,1,
   28,1,4,1,5,1,1,3,7,1,340,2,25,1,25,1,31,1,25,1,31,1,25,1,31,1,25,1,31,1,25,1,8,1844,10,1,20,6,6,
   261,62,2194,68,2028,26,6,26,6,26]

/-- Characters that do not end a word when its case is changed. -/
def caseIgnorable : Ranges := .ofGaps 0
  [39,1,6,1,11,1,35,1,1,1,71,1,4,1,1,1,4,1,2,2,503,192,4,2,4,1,9,2,1,1,251,7,207,1,5,1,49,45,1,1,1,
   2,1,2,1,1,44,1,11,6,10,11,1,1,35,1,10,21,16,1,101,8,1,10,1,4,33,1,1,1,30,27,91,11,58,11,4,1,2,1,
   24,24,43,3,44,1,7,2,5,9,41,58,55,1,1,1,4,8,4,1,3,7,10,2,13,1,15,1,58,1,4,4,8,1,20,2,26,1,2,2,57,
   1,4,2,4,2,2,3,3,1,30,2,3,1,11,2,57,1,4,5,1,2,4,1,20,2,22,6,1,1,58,1,2,1,1,4,8,1,7,2,11,2,30,1,61,
   1,12,1,50,1,3,1,55,1,1,3,5,3,1,4,7,2,11,2,29,1,58,1,2,1,6,1,5,2,20,2,28,2,57,2,4,4,8,1,20,2,29,1,
   72,1,7,3,1,1,90,1,2,7,11,9,98,1,2,9,9,1,1,7,73,2,27,1,1,1,1,1,55,14,1,5,1,2,5,11,1,36,9,1,102,4,
   1,6,1,2,2,2,25,2,4,3,16,4,13,1,2,2,6,1,15,1,94,1,608,3,946,3,29,2,30,2,30,2,64,2,1,7,8,1,2,11,3,
   1,5,1,45,5,51,1,65,2,34,1,118,3,4,2,9,1,6,3,219,2,2,1,58,1,1,7,1,1,1,1,2,8,6,10,2,1,39,1,8,46,2,
   12,20,4,48,1,1,5,1,1,5,1,40,9,12,2,32,4,2,2,1,3,56,1,1,2,3,1,1,3,58,8,2,2,64,6,82,3,1,13,1,7,4,1,
   6,1,3,2,50,63,13,1,34,101,445,1,1,3,11,3,13,3,13,3,13,2,12,5,8,2,10,1,2,1,2,5,49,5,1,10,1,1,13,1,
   16,13,51,33,2955,2,113,3,125,1,15,1,96,32,47,1,469,1,36,4,3,5,5,1,93,6,93,3,28438,1,1250,6,270,1,
   98,4,1,10,1,1,28,4,80,2,14,34,78,1,23,3,102,4,3,2,8,1,3,1,4,1,25,2,5,1,151,2,26,18,13,1,38,8,25,
   11,46,3,48,1,2,4,2,2,17,1,21,2,66,6,2,2,2,2,12,1,8,1,35,1,11,1,51,1,1,3,2,2,5,2,1,1,27,1,14,2,5,
   2,1,1,100,5,9,3,121,1,2,1,4,1,20272,1,147,17,573,16,3,1,12,16,34,1,2,1,169,1,7,1,6,1,11,1,35,1,1,
   1,47,1,45,2,67,1,21,3,513,1,226,1,149,5,1029,6,1,42,1,9,582,3,1,2,5,4,40,3,4,1,165,2,573,4,38,1,
   26,5,1,1,315,2,24,1,52,6,70,11,49,4,123,1,54,15,41,1,2,2,10,3,49,4,2,2,2,1,4,1,10,1,50,3,36,5,1,
   8,62,1,12,2,52,9,10,4,2,1,95,3,2,1,1,2,6,1,2,1,157,1,3,8,21,2,57,2,3,1,37,7,3,5,70,6,13,1,1,1,1,
   1,14,2,85,8,2,3,1,1,23,1,84,6,1,1,4,2,1,2,238,4,6,2,1,2,27,2,85,8,2,1,1,2,106,1,1,1,2,6,1,1,101,
   1,1,1,2,4,1,5,259,9,1,2,256,2,1,1,4,1,144,4,2,2,4,1,32,10,40,6,2,4,8,1,9,6,2,3,46,13,1,2,198,1,1,
   3,1,1,201,7,1,6,1,1,82,22,2,7,1,2,1,2,122,6,3,1,1,2,1,7,1,1,72,2,3,1,1,1,65,1,281,2,11,2,52,5,5,
   1,1,1,23,1,5333,17,6,15,11464,12,3,3,2496,5,59,7,9,4,508,3,40,2,482,1,63,17,64,2,1,2,13,2,16380,
   4,1,7,1,2,3230,2,1,4,4700,46,2,23,544,3,9,16,2,7,30,4,148,3,1979,55,4,50,8,1,14,1,22,5,1,15,1360,
   7,1,17,2,7,1,2,1,5,5,62,33,1,160,14,368,1,61,4,507,5,254,2,243,1,2,1,7,2,5,1,9,1,464,7,109,8,
   2735,5,789505,1,30,96,128,240]

end EventScript.Text
