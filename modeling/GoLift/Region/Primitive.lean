import GoLift.Fault

/-!
# Primitives

A primitive names blocks that belong together, each by the role it plays, and
says what structured statement they make. Roles come in a map; **members are
visited in the order that the kind gives its roles**, and roles the kind does
not know come after them, sorted. How the map was stored is therefore never
seen.
-/

set_option autoImplicit false

namespace GoLift

/-- The kinds of structured statements. -/
inductive Kind
  /-- One block after the other. -/
  | seq
  /-- A condition with a body. -/
  | ifThen
  /-- A condition with a body that leaves the function. -/
  | ifReturn
  /-- A condition with two bodies. -/
  | ifElse
  /-- A loop that tests before its body. -/
  | preLoop
  /-- A loop that tests after its body. -/
  | postLoop
  /-- A single block. -/
  | compound
  /-- A kind that is not known. -/
  | other (tag : String)
deriving DecidableEq, Repr

namespace Kind

/-- The tag of a kind. -/
def tag : Kind → String
  | seq => "seq"
  | ifThen => "if"
  | ifReturn => "if_return"
  | ifElse => "if_else"
  | preLoop => "pre_loop"
  | postLoop => "post_loop"
  | compound => "compound"
  | other tag => tag

/-- The kinds that are known. -/
def known : List Kind := [seq, ifThen, ifReturn, ifElse, preLoop, postLoop, compound]

/-- Spelled-out tags. -/
def aliases : List (String × Kind) :=
  [("sequence", seq), ("conditional", ifThen), ("two-armed-conditional", ifElse),
    ("pre-test-loop", preLoop), ("post-test-loop", postLoop)]

/-- The kind of a tag, short or spelled out. -/
def ofTag (tag : String) : Kind :=
  ((aliases.lookup tag).or (known.find? (·.tag == tag))).getD (other tag)

/-- The roles of a kind, in order. -/
def roles? : Kind → Option (List String)
  | seq => some ["entry", "exit"]
  | ifThen | ifReturn | preLoop | postLoop => some ["cond", "body", "exit"]
  | ifElse => some ["cond", "body_true", "body_false", "exit"]
  | compound => some ["body"]
  | other _ => none

/-- The roles that must be filled. -/
def required? : Kind → Option (List String)
  | seq => some ["entry", "exit"]
  | ifThen | ifReturn | preLoop => some ["cond", "body"]
  | ifElse => some ["cond", "body_true", "body_false"]
  | postLoop => some ["cond"]
  | compound => some ["body"]
  | other _ => none

end Kind

/-- A primitive. -/
structure Primitive where
  kind : Kind
  /-- The label in each role. -/
  roles : Table String := {}
  /-- The members of a sequence, if they are listed rather than given roles. -/
  sequence : List String := []
  /-- The label of the block that the primitive makes, if it has one. -/
  node : Option String := none
  /-- The label by which control enters; nothing depends on it. -/
  entry : Option String := none

namespace Primitive

/-- Are the members listed? -/
def isListed (p : Primitive) : Bool :=
  p.kind == .seq && !p.sequence.isEmpty

/-- Is a role and label before another? -/
def roleLE (a b : String × String) : Bool :=
  decide (a.1 < b.1) || (a.1 == b.1 && decide (a.2 ≤ b.2))

/-- Roles and labels in the order of visit. -/
def members (p : Primitive) : List (String × String) :=
  if p.isListed then p.sequence.map ("member", ·)
  else
    let order := p.kind.roles?.getD []
    let known := order.filterMap (fun role => (p.roles.get? role).map (role, ·))
    let extra := p.roles.entries.filter (fun e => !order.contains e.1)
    known ++ extra.mergeSort roleLE

/-- The labels of the members. -/
def labels (p : Primitive) : List String :=
  p.members.map Prod.snd

/-- The primitive in messages. -/
def describe (p : Primitive) : String :=
  let name := (informative p.node).getD "?"
  p.kind.tag ++ " '" ++ name ++ "' (" ++ ", ".intercalate p.labels ++ ")"

/-- The required roles that nothing fills. -/
def missing (p : Primitive) : List String :=
  if p.isListed then []
  else (p.kind.required?.getD []).filter (fun role => !p.roles.contains role)

end Primitive

end GoLift
