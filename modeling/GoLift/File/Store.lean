import GoLift.File.Fault
import GoLift.File.Path

/-!
# A store of files

Files and directories below a working directory. **The view of a store is
`entry?`**, which says for a list of names what it leads to; everything else is
a walk along a path. Names are followed one by one: each must lead to
something, and everything but the last must be a directory. What lies outside
the working directory is not known, apart from there being a directory above
it.
-/

set_option autoImplicit false

namespace GoLift

/-- What a name stands for. -/
inductive Entry
  | file (bytes : List UInt8)
  | directory
deriving DecidableEq, Repr

/-- Files and directories, by the names that lead to them. The working directory
itself is not listed. -/
structure Store where
  entries : List (List String × Entry) := []

/-- Where a walk has come to. -/
inductive Place
  /-- Below the working directory. -/
  | inside (names : List String)
  /-- In a directory that is not below it. -/
  | outside
deriving DecidableEq, Repr

namespace Store

/-- How many bytes a name may have. -/
def maxNameBytes : Nat := 255

/-- How many bytes a path may have as it is written. -/
def maxPathBytes : Nat := 4095

/-- What a list of names leads to. -/
def entry? (s : Store) (names : List String) : Option Entry :=
  if names.isEmpty then some .directory else s.entries.lookup names

/-- Enter something at a list of names, in place of what is there. -/
def put (s : Store) (names : List String) (e : Entry) : Store :=
  { entries := (names, e) :: s.entries.filter (fun old => old.1 != names) }

/-- The place one name further. -/
def step (s : Store) (here : Place) (name : String) : Except FileFault Place :=
  match here with
  | .outside =>
    if name == ".." then .ok .outside
    else if maxNameBytes < name.utf8ByteSize then .error .nameTooLong
    else .error .missing
  | .inside names =>
    match s.entry? names with
    | some .directory =>
      if name == ".." then
        .ok (if names.isEmpty then .outside else .inside names.dropLast)
      else if maxNameBytes < name.utf8ByteSize then .error .nameTooLong
      else if (s.entry? (names ++ [name])).isSome then .ok (.inside (names ++ [name]))
      else .error .missing
    | some (.file _) => .error .notDirectory
    | none => .error .missing

/-- The place that a list of names leads to from a place. -/
def walk (s : Store) (here : Place) (names : List String) : Except FileFault Place :=
  names.foldlM s.step here

/-- Where a walk along a path starts. -/
def start (p : Path) : Place :=
  if p.root.isEmpty then .inside [] else .outside

/-- Is the text one that no path can hold? -/
def hasNull (p : Path) : Bool :=
  p.parts.any (fun name => name.toList.contains '\x00')

/-- The place that a path leads to. -/
def find (s : Store) (p : Path) : Except FileFault Place :=
  if hasNull p then .error .nullCharacter
  else if maxPathBytes < p.text.utf8ByteSize then .error .nameTooLong
  else s.walk (start p) p.parts

/-- The entry at a place; there is always a directory outside. -/
def entryAt (s : Store) : Place → Option Entry
  | .inside names => s.entry? names
  | .outside => some .directory

/-! ### Reading -/

/-- The bytes of a file. -/
def read (s : Store) (p : Path) : Except FileFault (List UInt8) := do
  match s.entryAt (← s.find p) with
  | some (.file bytes) => return bytes
  | some .directory => throw .directory
  | none => throw .missing

/-- Does a path lead to a directory? -/
def isDirectory (s : Store) (p : Path) : Bool :=
  match s.find p with
  | .ok place => s.entryAt place = some .directory
  | .error _ => false

/-! ### Writing -/

/-- Enter something new in the directory that holds a path. -/
def create (s : Store) (p : Path) (e : Entry) : Except FileFault Store := do
  match p.parts.getLast?, ← s.find p.parent with
  | some name, .inside names =>
    match s.entry? names with
    | some .directory => return s.put (names ++ [name]) e
    | _ => throw .notDirectory
  | _, _ => throw .missing

/-- Write the bytes of a file, which is made if its directory is there. -/
def write (s : Store) (p : Path) (bytes : List UInt8) : Except FileFault Store :=
  match s.find p with
  | .ok place =>
    match place, s.entryAt place with
    | .inside names, some (.file _) => .ok (s.put names (.file bytes))
    | _, _ => .error .directory
  | .error .missing => s.create p (.file bytes)
  | .error f => .error f

/-- Make one directory. One that is there already will do. -/
def makeOne (s : Store) (p : Path) : Except FileFault Store :=
  match s.find p with
  | .ok _ => if s.isDirectory p then .ok s else .error .exists
  | .error .missing => s.create p .directory
  | .error f => .error f

/-- Make directories along a path of `n` names, from the first one that is
missing on. -/
def makeAlong (s : Store) (p : Path) : Nat → Except FileFault Store
  | 0 => s.makeOne p
  | n + 1 =>
    match s.makeOne p with
    | .error .missing => do
      let s ← s.makeAlong p.parent n
      s.makeOne p
    | result => result

/-- Make a directory and those it is in. -/
def makeDirectory (s : Store) (p : Path) : Except FileFault Store :=
  s.makeAlong p p.parts.length

/-- The store of given files and directories; the directories that they are in
are made for them. -/
def ofList (entries : List (Path × Entry)) : Store :=
  entries.foldl
    (fun s (p, e) =>
      match s.makeDirectory p.parent with
      | .ok s =>
        match e with
        | .file bytes => (s.write p bytes).toOption.getD s
        | .directory => (s.makeDirectory p).toOption.getD s
      | .error _ => s)
    {}

/-- The files of `s` that `old` does not have, or has with other bytes. -/
def changedFrom (old s : Store) : List (List String × List UInt8) :=
  s.entries.filterMap (fun (names, e) =>
    match e with
    | .file bytes => if old.entries.lookup names == some e then none else some (names, bytes)
    | .directory => none)

end Store

end GoLift
