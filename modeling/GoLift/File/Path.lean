/-!
# File paths

A path is a root, empty for a relative path, and the names on the way. **Paths
are kept in normal form**: empty names and `.` say nothing and are dropped,
while `..` stays, because what it means depends on the files. `Path.ofString`
reads a path and `Path.text` writes it, so two spellings of one normal form are
shown alike.
-/

set_option autoImplicit false

namespace GoLift

/-- A path in normal form. -/
structure Path where
  /-- What an absolute path starts with. -/
  root : String := ""
  /-- The names on the way, none of them empty or `.`. -/
  parts : List String := []
deriving DecidableEq, Repr

/-- The pieces of a text between slashes. -/
def slashed : List Char → List (List Char)
  | [] => [[]]
  | c :: cs =>
    match slashed cs with
    | [] => [[c]]
    | p :: ps => if c == '/' then [] :: p :: ps else (c :: p) :: ps

/-- Does a piece of a path say where to go? -/
def isStep (piece : List Char) : Bool :=
  !piece.isEmpty && piece != ['.']

namespace Path

/-- The root of a written path. Exactly two slashes are a root of their own. -/
def rootOf : List Char → String
  | '/' :: '/' :: '/' :: _ => "/"
  | '/' :: '/' :: _ => "//"
  | '/' :: _ => "/"
  | _ => ""

/-- The path that a text writes. -/
def ofString (s : String) : Path where
  root := rootOf s.toList
  parts := ((slashed s.toList).filter isStep).map String.ofList

/-- A path as it is written. -/
def text (p : Path) : String :=
  if p.root.isEmpty && p.parts.isEmpty then "." else p.root ++ "/".intercalate p.parts

/-- A path taken from another one; an absolute path stays what it is. -/
def join (p q : Path) : Path :=
  if q.root.isEmpty then { p with parts := p.parts ++ q.parts } else q

/-- The path one step up, as it is written. -/
def parent (p : Path) : Path :=
  { p with parts := p.parts.dropLast }

/-- The last name of a path. -/
def name (p : Path) : String :=
  p.parts.getLast?.getD ""

/-- The last name without what stands after its last dot. A name that starts
with its only dot or ends with a dot is taken whole. -/
def stem (p : Path) : String :=
  let reversed := p.name.toList.reverse
  let ending := reversed.takeWhile (· != '.')
  let rest := (reversed.dropWhile (· != '.')).drop 1
  if ending.isEmpty || rest.isEmpty then p.name else String.ofList rest.reverse

/-- The path beside a path that has another last name. -/
def sibling (p : Path) (name : String) : Path :=
  { p with parts := p.parts.dropLast ++ [name] }

end Path

end GoLift
