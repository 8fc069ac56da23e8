import EventScript.Compile.Gen
import EventScript.Script

/-!
# Labels of a function

Before the code of a function is generated its labels are collected: the block that each stands
in, and whether a jump after it goes back to it. Statements are numbered in the order of the text.
-/

namespace EventScript.Compile

inductive Mention where
  | label (name : String) (block : Nat) (span : Span)
  | jump (name : String)

mutual

/-- The labels and jumps of a statement inside a block, each with its number, and the number of
the last statement. -/
def mentions (block : Nat) : Stmt → (count : Nat) → List (Nat × Mention) × Nat
  | .label name span, n => ([(n + 1, .label name block span)], n + 1)
  | .jump name _, n => ([(n + 1, .jump name)], n + 1)
  | .block id stmts _, n => mentionsAll id stmts (n + 1)
  | .ifThen _ body _, n => mentions block body (n + 1)
  | .ifElse _ body other _, n =>
    let (first, n) := mentions block body (n + 1)
    let (second, n) := mentions block other n
    (first ++ second, n)
  | .whileDo _ body _, n => mentions block body (n + 1)
  | .doWhile body _ _, n => mentions block body (n + 1)
  | .forDo _ _ _ body _, n => mentions block body (n + 1)
  | .foreach _ _ _ body _, n => mentions block body (n + 1)
  | _, n => ([], n + 1)

def mentionsAll (block : Nat) : List Stmt → (count : Nat) → List (Nat × Mention) × Nat
  | [], n => ([], n)
  | s :: ss, n =>
    let (first, n) := mentions block s n
    let (rest, n) := mentionsAll block ss n
    (first ++ rest, n)

end

def labelsIn (ms : List (Nat × Mention)) : List (Nat × String × Nat × Span) :=
  ms.filterMap fun (n, m) =>
    match m with
    | .label name block span => some (n, name, block, span)
    | .jump _ => none

def jumpedAfter (ms : List (Nat × Mention)) (name : String) (count : Nat) : Bool :=
  ms.any fun (n, m) =>
    match m with
    | .jump target => target == name && decide (count < n)
    | .label .. => false

def repeatedLabels : (seen : List String) → List (Nat × String × Nat × Span) →
    List (String × Span)
  | _, [] => []
  | seen, (_, name, _, span) :: rest =>
    if name ∈ seen then (name, span) :: repeatedLabels seen rest
    else repeatedLabels (name :: seen) rest

def labelsOf (body : Block) : List Label :=
  let ms := (mentionsAll body.id body.stmts 0).1
  let found := labelsIn ms
  found.map fun (_, name, _, _) =>
    let block := (found.find? (·.2.1 == name)).elim body.id (·.2.2.1)
    let last := (found.reverse.find? (·.2.1 == name)).elim 0 (·.1)
    ⟨name, block, jumpedAfter ms name last⟩

def labelErrors (body : Block) : List Diagnostic :=
  (repeatedLabels [] (labelsIn (mentionsAll body.id body.stmts 0).1)).map fun (name, span) =>
    { cause := .semantic (.duplicateLabel name), span }

end EventScript.Compile
