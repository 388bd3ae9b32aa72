import GoLift.Region.Primitive
import GoLift.Region.Registry

/-!
# Reducing regions

A primitive collapses its members into one block whose statements are the
structured statement they make. **A primitive either is applied whole or changes
no block**: `Registry.apply` finds its members and builds the new block first,
and only then takes the members and enters the block, which cannot fail.

How control leaves a region:

* the *carrier*, an `exit` member or the last member of a sequence, lends the
  new block its terminator;
* otherwise the new block goes to the join, the successor of the condition that
  is not part of the region;
* any other member that leaves the function gets the statement for it in place.
-/

set_option autoImplicit false

namespace GoLift

open Go (Expr Stmt)

/-- What a primitive makes of its members. -/
structure Region where
  stmts : List Stmt
  terminator : Option Terminator
  entry : String

/-- Members with their roles, in the order of visit. -/
abbrev Members := List (String × WorkBlock)

/-! ### Finding the members -/

/-- The blocks of a list of roles and labels; `seen` labels must not come again. -/
def Registry.resolveFrom (r : Registry) (desc : String) (seen : List String) :
    List (String × String) → Except Fault Members
  | [] => .ok []
  | (role, label) :: rest =>
    if seen.contains label then .error (Cause.memberRepeated desc label).fault
    else
      match r.lookup label with
      | none => .error (Cause.memberDead desc label role (r.consumedBy label)).fault
      | some b => ((role, b) :: ·) <$> r.resolveFrom desc (label :: seen) rest

/-- The blocks that a primitive names. -/
def Registry.resolve (r : Registry) (p : Primitive) : Except Fault Members :=
  r.resolveFrom p.describe [] p.members

/-- Can the new block have the label that the primitive gives it? The label of a
member is free by then. -/
def Registry.checkNode (r : Registry) (p : Primitive) (members : Members) : Except Fault Unit :=
  match p.node with
  | none => .ok ()
  | some label =>
    if r.contains label && !(members.map (·.2.label)).contains label then
      .error (Cause.nodeTaken label p.describe).fault
    else .ok ()

/-! ### Building the statement -/

namespace Region

variable (scope : Scope) (p : Primitive)

/-- Does control leave the function at the end of a block? -/
def leaves (b : WorkBlock) : Bool :=
  b.terminator.any Terminator.leaves

/-- The statements of a member that is no carrier. -/
def member (b : WorkBlock) : DraftM (List Stmt) := do
  if leaves b then return b.sequence ++ (← Lower.exitStmts scope b.terminator)
  else return b.sequence

/-- The statements of several members that are no carriers. -/
def membersOf : List WorkBlock → DraftM (List Stmt)
  | [] => return []
  | b :: bs => return (← member scope b) ++ (← membersOf bs)

/-- The condition and the two targets of a condition member. -/
def condBranch (cond : WorkBlock) : DraftM (Value × String × String) :=
  match cond.terminator with
  | some (.condBr c ifTrue ifFalse) => return (c, ifTrue, ifFalse)
  | some (.switch ..) => DraftM.refuse (.unsupported (.switchIn p.describe cond.label))
  | _ => DraftM.refuse (.condNotBranch cond.label p.describe)

/-- The test under which a condition goes to a block, and where else it goes. -/
def branchTowards (cond target : WorkBlock) : DraftM (Expr × String) := do
  let (c, ifTrue, ifFalse) ← condBranch p cond
  let test ← c.lower scope
  if ifTrue == target.entry then return (test, ifFalse)
  else if ifFalse == target.entry then return (test.negate, ifTrue)
  else DraftM.refuse (.notSuccessor target.label cond.label p.describe)

/-- The end of a region: the exit member's statements and terminator, or a branch
to the join. -/
def close (stmts : List Stmt) (exit : Option WorkBlock) (join : Option String) (entry : String) :
    Region :=
  match exit with
  | some b => { stmts := stmts ++ b.sequence, terminator := b.terminator, entry }
  | none => { stmts, terminator := join.map Terminator.br, entry }

/-- `if !test { break }`. -/
def breakUnless (test : Expr) : Stmt :=
  .ifElse test.negate [.branch "break"] none

/-- A required role that nothing fills. -/
def unfilled {α : Type} : DraftM α :=
  DraftM.refuse (.missingRoles p.describe p.missing)

/-- One block after the other; the last carries the terminator. -/
def seq (members : Members) : DraftM Region := do
  match members.map Prod.snd with
  | [] => unfilled p
  | first :: rest =>
    let blocks := first :: rest
    let last := rest.getLast?.getD first
    let stmts ← membersOf scope blocks.dropLast
    return { stmts := stmts ++ last.sequence, terminator := last.terminator, entry := first.entry }

/-- A condition with a body. -/
def ifThen (members : Members) : DraftM Region := do
  match members.lookup "cond", members.lookup "body" with
  | some cond, some body =>
    let (test, join) ← branchTowards scope p cond body
    let head ← member scope cond
    let inner ← member scope body
    return close (head ++ [.ifElse test inner none]) (members.lookup "exit") (some join) cond.entry
  | _, _ => unfilled p

/-- A condition with a body that leaves the function. -/
def ifReturn (members : Members) : DraftM Region := do
  match members.lookup "body" with
  | some body =>
    if leaves body then ifThen scope p members
    else DraftM.refuse (.bodyStays body.label p.describe)
  | none => unfilled p

/-- Where a block goes if it ends in a plain branch. -/
def branchTarget? (b : WorkBlock) : Option String :=
  match b.terminator with
  | some (.br target) => some target
  | _ => none

/-- A condition with two bodies. -/
def ifElse (members : Members) : DraftM Region := do
  match members.lookup "cond", members.lookup "body_true", members.lookup "body_false" with
  | some cond, some first, some second =>
    let (c, ifTrue, ifFalse) ← condBranch p cond
    let arm? (label : String) : Option WorkBlock :=
      if label == second.entry then some second
      else if label == first.entry then some first
      else none
    match arm? ifTrue, arm? ifFalse with
    | some yes, some no =>
      if ifTrue == ifFalse then
        DraftM.refuse (.armsMismatch p.describe cond.label first.label second.label)
      else
        let test ← c.lower scope
        let thenStmts ← member scope yes
        let elseStmts ← member scope no
        let head ← member scope cond
        return close (head ++ [.ifElse test thenStmts (some (.block elseStmts))])
          (members.lookup "exit") ((branchTarget? yes).or (branchTarget? no)) cond.entry
    | _, _ => DraftM.refuse (.armsMismatch p.describe cond.label first.label second.label)
  | _, _, _ => unfilled p

/-- A loop that tests before its body. If the condition has statements of its
own, they are run and tested inside the loop. -/
def preLoop (members : Members) : DraftM Region := do
  match members.lookup "cond", members.lookup "body" with
  | some cond, some body =>
    let (test, join) ← branchTowards scope p cond body
    let head ← member scope cond
    let inner ← member scope body
    let loop :=
      if head.isEmpty then Stmt.loop (some test) inner
      else Stmt.loop none (head ++ breakUnless test :: inner)
    return close [loop] (members.lookup "exit") (some join) cond.entry
  | _, _ => unfilled p

/-- A loop that tests after its body. Without a body, the condition is all of
it. -/
def postLoop (members : Members) : DraftM Region := do
  match members.lookup "cond" with
  | some cond =>
    let body := members.lookup "body"
    let head := body.getD cond
    let (test, join) ← branchTowards scope p cond head
    let inner ← membersOf scope body.toList
    let last ← member scope cond
    return close [.loop none (inner ++ last ++ [breakUnless test])] (members.lookup "exit")
      (some join) head.entry
  | none => unfilled p

/-- A single block. -/
def compound (members : Members) : DraftM Region :=
  match members.lookup "body" with
  | some body =>
    return { stmts := body.sequence, terminator := body.terminator, entry := body.entry }
  | none => unfilled p

/-- The region that a primitive makes of its members. -/
def build (members : Members) : DraftM Region :=
  match p.kind with
  | .seq => seq scope p members
  | .ifThen => ifThen scope p members
  | .ifReturn => ifReturn scope p members
  | .ifElse => ifElse scope p members
  | .preLoop => preLoop scope p members
  | .postLoop => postLoop scope p members
  | .compound => compound p members
  | .other tag => DraftM.refuse (.unsupported (.primitive tag))

end Region

/-! ### Applying primitives -/

/-- A result, or its fault. -/
def DraftM.ofExcept {α : Type} : Except Fault α → DraftM α
  | .ok a => return a
  | .error f => throw f

namespace Registry

/-- Is the kind known, and is every required role filled? -/
def checkRoles (p : Primitive) : Except Fault Unit :=
  match p.kind with
  | .other tag => .error (Cause.unsupported (.primitive tag)).fault
  | _ =>
    if p.missing.isEmpty then .ok ()
    else .error (Cause.missingRoles p.describe p.missing).fault

/-- Take the members of a region and enter its block. -/
def collapse (r : Registry) (p : Primitive) (members : Members) (region : Region) :
    WorkBlock × Registry :=
  let taken := members.foldl (fun r m => r.retire m.2.handle p.describe) r
  let (label, named) :=
    match p.node with
    | some label => (label, taken)
    | none => taken.freshLabel p.kind.tag
  named.enter
    { label
      entry := some region.entry
      stmts := region.stmts
      terminator := region.terminator
      synthesized := true }

/-- Apply a primitive: the block it makes, and the registry afterwards. -/
def apply (scope : Scope) (p : Primitive) (r : Registry) : DraftM (WorkBlock × Registry) := do
  DraftM.ofExcept (checkRoles p)
  let members ← DraftM.ofExcept (r.resolve p)
  DraftM.ofExcept (r.checkNode p members)
  let region ← Region.build scope p members
  let (block, r) := r.collapse p members region
  DraftM.tell (.reduced p.describe block.label)
  return (block, r)

/-- Apply primitives in order. -/
def applyAll (scope : Scope) (r : Registry) : List Primitive → DraftM Registry
  | [] => return r
  | p :: ps => do
    let (_, r) ← r.apply scope p
    r.applyAll scope ps

/-- The one block that is left. -/
def survivor (r : Registry) : Except Fault WorkBlock :=
  match r.live with
  | [b] => .ok b
  | _ => .error (Cause.incomplete r.liveLabels).fault

/-- Reduce the registry to one block. -/
def reduce (scope : Scope) (r : Registry) (ps : List Primitive) : DraftM WorkBlock := do
  let r ← r.applyAll scope ps
  DraftM.ofExcept r.survivor

end Registry

end GoLift
