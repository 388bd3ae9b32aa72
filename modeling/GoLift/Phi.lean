import GoLift.IR.Flow
import GoLift.Lower.Function

/-!
# Phi copies

A phi takes the value of the edge that control arrives along. In the emitted
code the block at the start of the edge assigns it, at its end: this is the
block's *buffer* of copies. A buffer holds the copies for all successors of its
block, and **all of them read their values before any of them writes**. When a
value in a buffer is the destination of another copy in it, assigning one after
the other would read an overwritten variable; then every value is first
captured in a temporary.

A phi must list each predecessor of its block exactly once, or no buffer of the
function is made.
-/

set_option autoImplicit false

namespace GoLift

open Go (Expr Stmt)

/-- A phi instruction. -/
structure Phi where
  dest : String
  type : Ty
  incoming : List (String × Value)

/-- The phi that an instruction is. -/
def Instr.phi? : Instr → Option Phi
  | .phi dest type incoming => some { dest, type, incoming }
  | _ => none

/-- The phis of a block, in order. -/
def Block.phis (b : Block) : List Phi :=
  b.instrs.filterMap Instr.phi?

/-- The labels a phi has values for. -/
def Phi.labels (φ : Phi) : List String :=
  φ.incoming.map Prod.fst

/-- The members of `xs` that are not in `ys`, sorted and each once. -/
def sortedDiff (xs ys : List String) : List String :=
  sorted (firsts (xs.filter (fun x => !ys.contains x)))

/-- Does a phi of a block list exactly the given predecessors, each once? -/
def Phi.check (block : String) (preds : List String) (φ : Phi) : Except Fault Unit :=
  let dupes := repeated φ.labels
  let missing := sortedDiff preds φ.labels
  let extra := sortedDiff φ.labels preds
  if !dupes.isEmpty then .error (Cause.phiRepeats φ.dest block dupes).fault
  else if missing.isEmpty && extra.isEmpty then .ok ()
  else .error (Cause.phiMismatch φ.dest block missing extra).fault

/-- An assignment of a phi's destination. -/
structure Copy where
  dest : String
  type : Ty
  value : Value

/-- The copies that a block makes for a phi of a block with the given
predecessors. -/
def Phi.copiesFrom (pred : String) (preds : List String) (φ : Phi) : List Copy :=
  (preds.filter (· == pred)).filterMap (fun p =>
    (φ.incoming.lookup p).map (fun value => { dest := φ.dest, type := φ.type, value }))

/-- The copies that a block makes: by successor in block order, then by phi. -/
def copiesFrom (blocks : List Block) (preds : Table (List String)) (pred : String) : List Copy :=
  blocks.flatMap (fun b =>
    b.phis.flatMap (Phi.copiesFrom pred ((preds.get? b.name).getD [])))

/-- Every block's copies, or the first phi that does not fit its block. -/
def phiCopies (blocks : List Block) : Except Fault (Table (List Copy)) := do
  let preds ← Flow.predecessors blocks
  blocks.forM (fun b => b.phis.forM (Phi.check b.name ((preds.get? b.name).getD [])))
  return ⟨preds.keys.map (fun p => (p, copiesFrom blocks preds p))⟩

/-! ### Buffers -/

/-- Does a copy read the destination of another one? -/
def Copy.reads (dests : List String) (c : Copy) : Bool :=
  match c.value with
  | .localRef name _ => dests.contains name && name != c.dest
  | _ => false

/-- Would assigning one after the other read an overwritten variable? -/
def conflicting (copies : List Copy) : Bool :=
  copies.any (Copy.reads (copies.map Copy.dest))

/-- The copies one after the other. -/
def directCopies (scope : Scope) : List Copy → DraftM (List Stmt)
  | [] => return []
  | c :: cs => do
    let d ← DraftM.localVar c.dest
    let e ← c.value.lower scope
    return .set d e :: (← directCopies scope cs)

/-- Capture every value, each in a temporary of its own. -/
def captures (scope : Scope) : List Copy → DraftM (List (Copy × String × Stmt))
  | [] => return []
  | c :: cs => do
    let tmp ← DraftM.temporary c.type
    let e ← c.value.lower scope
    return (c, tmp, .set (.ident tmp) e) :: (← captures scope cs)

/-- Assign the captured values. -/
def releases : List (Copy × String × Stmt) → DraftM (List Stmt)
  | [] => return []
  | (c, tmp, _) :: cs => do
    let d ← DraftM.localVar c.dest
    return .set d (.ident tmp) :: (← releases cs)

/-- The statements of the copies out of a block. -/
def bufferOf (scope : Scope) (label : String) (copies : List Copy) : DraftM (List Stmt) := do
  if conflicting copies then
    DraftM.tell (.captured label copies.length)
    let captured ← captures scope copies
    return captured.map (·.2.2) ++ (← releases captured)
  else directCopies scope copies

/-- The buffers of a list of blocks. -/
def buffersOf (scope : Scope) :
    List (String × List Copy) → DraftM (List (String × List Stmt))
  | [] => return []
  | (label, copies) :: rest => do
    let buffer ← bufferOf scope label copies
    return (label, buffer) :: (← buffersOf scope rest)

/-- The buffers of a function body. -/
def phiBuffers (scope : Scope) (blocks : List Block) : DraftM (Table (List Stmt)) := do
  match phiCopies blocks with
  | .error f => throw f
  | .ok copies => return ⟨← buffersOf scope copies.entries⟩

end GoLift
