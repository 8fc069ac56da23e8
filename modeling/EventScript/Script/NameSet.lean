/-!
# Sets of names

A search tree, in the order of texts. It tells whether a name has been declared before, in scripts
with many declarations.
-/

namespace EventScript

inductive NameSet where
  | empty
  | node (left : NameSet) (name : String) (right : NameSet)

namespace NameSet

def contains : NameSet → String → Bool
  | .empty, _ => false
  | .node left name right, x =>
    match compare x name with
    | .lt => left.contains x
    | .eq => true
    | .gt => right.contains x

def insert : NameSet → String → NameSet
  | .empty, x => .node .empty x .empty
  | .node left name right, x =>
    match compare x name with
    | .lt => .node (left.insert x) name right
    | .eq => .node left name right
    | .gt => .node left name (right.insert x)

end NameSet

end EventScript
