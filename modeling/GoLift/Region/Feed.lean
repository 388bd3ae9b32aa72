import GoLift.Json.Reader
import GoLift.Region.Primitive

/-!
# Primitive feeds

A function's primitives come as a JSON list of records. A record has a kind
under `prim`, labels by role under `nodes`, or under `members` the listed
members of a sequence, and optionally the labels `node` and `entry`. The first
record with a fault keeps the whole feed from being read.
-/

set_option autoImplicit false

namespace GoLift

namespace Json

/-- The string of a value. -/
def string? : Json → Option String
  | .string s => some s
  | _ => none

/-- The strings of a list of values, if they all are strings. -/
def strings? (xs : List Json) : Option (List String) :=
  xs.mapM string?

/-- The string members of an object, if they all are strings. -/
def stringTable? (members : List (String × Json)) : Option (Table String) := do
  let table := Table.ofList members
  let entries ← table.entries.mapM (fun e => (string? e.2).map (e.1, ·))
  return ⟨entries⟩

end Json

namespace Primitive

/-- A label that may be missing. -/
def optionalLabel (members : List (String × Json)) (name : String) :
    Except RecordFault (Option String) :=
  match Json.member? members name with
  | none | some .null => .ok none
  | some (.string s) => .ok (some s)
  | some _ => .error (.key name)

/-- The kind of a record. -/
def recordKind (members : List (String × Json)) : Except RecordFault Kind :=
  match Json.member? members "prim" with
  | some (.string tag) => if tag.isEmpty then .error .kind else .ok (Kind.ofTag tag)
  | _ => .error .kind

/-- The roles of a record. -/
def recordRoles (members : List (String × Json)) : Except RecordFault (Table String) :=
  match Json.member? members "nodes" with
  | none => .ok {}
  | some (.object nodes) =>
    match Json.stringTable? nodes with
    | some table => .ok table
    | none => .error .nodes
  | some _ => .error .nodes

/-- The listed members of a record. -/
def recordMembers (members : List (String × Json)) : Except RecordFault (List String) :=
  match Json.member? members "members" with
  | none => .ok []
  | some (.array items) =>
    match Json.strings? items with
    | some labels => .ok labels
    | none => .error .members
  | some _ => .error .members

/-- The primitive of a record. -/
def ofRecord : Json → Except RecordFault Primitive
  | .object members => do
    let kind ← recordKind members
    let roles ← recordRoles members
    let sequence ← recordMembers members
    let node ← optionalLabel members "node"
    let entry ← optionalLabel members "entry"
    return { kind, roles, sequence, node, entry }
  | _ => .error .notObject

/-- The primitives of a list of records, numbered from `index`. -/
def ofRecords (index : Nat) : List Json → Except FeedFault (List Primitive)
  | [] => .ok []
  | r :: rs =>
    match ofRecord r with
    | .error fault => .error (.record index fault)
    | .ok p => (p :: ·) <$> ofRecords (index + 1) rs

/-- The primitives of a document. -/
def ofDocument (source : String) : Json → Except Fault (List Primitive)
  | .array records =>
    match ofRecords 0 records with
    | .ok ps => .ok ps
    | .error fault => .error (Cause.feed source fault).fault
  | _ => .error (Cause.feed source .notList).fault

/-- The primitives of a feed. -/
def ofFeed (source : String) (text : List Char) : Except Fault (List Primitive) :=
  match Json.read text with
  | .ok document => ofDocument source document
  | .error fault =>
    if fault.kind = .longInteger then .error (.abort .longInteger)
    else .error (Cause.feed source (.notJson (fault.message text))).fault

end Primitive

end GoLift
