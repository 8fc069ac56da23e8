/-!
# Files

Names of files, and what can be read and written.
-/

namespace EventScript

inductive FileError where
  | notFound
  | isDirectory
  | notText
  deriving DecidableEq, Inhabited

def FileError.message : FileError → String
  | notFound => "No such file or directory (os error 2)"
  | isDirectory => "Is a directory (os error 21)"
  | notText => "stream did not contain valid UTF-8"

structure Files where
  read : String → Except FileError String
  refuses : String → Option FileError

namespace Path

def parts : List Char → List (List Char)
  | [] => [[]]
  | c :: cs =>
    match parts cs with
    | [] => [[c]]
    | p :: ps => if c = '/' then [] :: p :: ps else (c :: p) :: ps

/-- The last part that is a name, unless it goes up. Parts that stay where they are do not count. -/
def fileName? (path : String) : Option (List Char) :=
  match ((parts path.toList).filter fun p => p ≠ [] ∧ p ≠ ['.']).getLast? with
  | some ['.', '.'] | none => none
  | some name => some name

/-- A name cut at its last dot. A dot at the start does not count. -/
def splitName (name : List Char) : List Char × Option (List Char) :=
  let after := (name.reverse.takeWhile (· ≠ '.')).reverse
  let before := (name.reverse.dropWhile (· ≠ '.')).reverse.dropLast
  if before.isEmpty then (name, none) else (before, some after)

def stem? (path : String) : Option String :=
  (fileName? path).map fun name => String.ofList (splitName name).1

def extension? (path : String) : Option String :=
  (fileName? path).bind fun name => (splitName name).2.map String.ofList

end Path

end EventScript
