import GoLift.Phi

/-!
# The registry of working blocks

Reduction works on blocks of statements: at first one for each block of the
function, later also the ones that primitives make. **The arena only grows**; a
block is addressed by its handle, its place in the arena, for good. A block that
a primitive has taken is still there but no longer active. A label map finds
the active block of a label, and a second table remembers, for labels whose
block is gone, what took it.
-/

set_option autoImplicit false

namespace GoLift

open Go (Stmt)

/-- A block while it is reduced. -/
structure WorkBlock where
  handle : Nat
  label : String
  /-- The label by which control enters. Branches keep naming it after the block
  has become part of a region. -/
  entry : String
  stmts : List Stmt := []
  /-- The phi copies to make when control leaves. -/
  phiOut : List Stmt := []
  /-- How control leaves; `none` if it never does. -/
  terminator : Option Terminator := none
  /-- Was the block made by a primitive? -/
  synthesized : Bool := false
  active : Bool := true
  /-- What took the block. -/
  consumer : Option String := none

/-- All statements of a block, in order. -/
def WorkBlock.sequence (b : WorkBlock) : List Stmt :=
  b.stmts ++ b.phiOut

/-- What a block is made of when it is entered. -/
structure NewBlock where
  label : String
  /-- The label by which control enters, its own if none is given. -/
  entry : Option String := none
  stmts : List Stmt := []
  phiOut : List Stmt := []
  terminator : Option Terminator := none
  synthesized : Bool := false

/-- The working blocks of a function. -/
structure Registry where
  arena : List WorkBlock := []
  /-- The handle of each label in use. -/
  byLabel : Table Nat := {}
  /-- What took the last block of each label that is not in use. -/
  consumed : Table String := {}
  /-- The number of the next label that is made up. -/
  counter : Nat := 0

namespace Registry

/-! ### Looking -/

/-- The active block of a label. -/
def lookup (r : Registry) (label : String) : Option WorkBlock :=
  (r.byLabel.get? label).bind (r.arena[·]?)

/-- Is a label in use? -/
def contains (r : Registry) (label : String) : Bool :=
  r.byLabel.contains label

/-- How many labels are in use. -/
def size (r : Registry) : Nat :=
  r.byLabel.size

/-- What took the block of a label, if one was taken and none has the label now. -/
def consumedBy (r : Registry) (label : String) : Option String :=
  r.consumed.get? label

/-- The active blocks, by handle. -/
def live (r : Registry) : List WorkBlock :=
  r.arena.filter WorkBlock.active

/-- The labels of the active blocks. -/
def liveLabels (r : Registry) : List String :=
  r.live.map WorkBlock.label

/-- The place in the arena of a handle. A negative handle counts from the end. -/
def index? (r : Registry) (handle : Int) : Option Nat :=
  let i := if handle < 0 then handle + r.arena.length else handle
  if 0 ≤ i ∧ i < r.arena.length then some i.toNat else none

/-- The block of a handle. -/
def block? (r : Registry) (handle : Int) : Option WorkBlock :=
  (r.index? handle).bind (r.arena[·]?)

/-! ### Entering -/

/-- The working block of a new block with a handle. -/
def ofNew (handle : Nat) (b : NewBlock) : WorkBlock where
  handle
  label := b.label
  entry := (informative b.entry).getD b.label
  stmts := b.stmts
  phiOut := b.phiOut
  terminator := b.terminator
  synthesized := b.synthesized

/-- Enter a block under a label that is not in use. -/
def enter (r : Registry) (b : NewBlock) : WorkBlock × Registry :=
  let block := ofNew r.arena.length b
  (block,
    { r with
      arena := r.arena ++ [block]
      byLabel := r.byLabel.put b.label block.handle
      consumed := r.consumed.erase b.label })

/-- Enter a block, unless its label is in use. -/
def insert (r : Registry) (b : NewBlock) : Except Fault (WorkBlock × Registry) :=
  if r.contains b.label then .error (Cause.duplicateLabel b.label).fault
  else .ok (r.enter b)

/-! ### Taking -/

/-- Mark the block at a place as taken. -/
def mark (r : Registry) (i : Nat) (consumer : String) : Registry :=
  { r with
    arena := r.arena.modify i (fun b => { b with active := false, consumer := some consumer }) }

/-- Take the block at a place: it is no longer active, and its label is free. -/
def retire (r : Registry) (i : Nat) (consumer : String) : Registry :=
  match r.arena[i]? with
  | none => r
  | some b =>
    { r.mark i consumer with
      byLabel := r.byLabel.erase b.label
      consumed := r.consumed.put b.label consumer }

/-- Take blocks by their handles, one after the other, up to the first that
cannot be taken. A block whose label is not in use is marked before the work
stops. -/
def consume (r : Registry) (consumer : String) : List Int → Except Abort Unit × Registry
  | [] => (.ok (), r)
  | h :: hs =>
    match r.index? h with
    | none => (.error (.handle h), r)
    | some i =>
      match r.arena[i]? with
      | none => (.error (.handle h), r)
      | some b =>
        if r.contains b.label then (r.retire i consumer).consume consumer hs
        else (.error (.unmapped b.label), r.mark i consumer)

/-! ### Made-up labels -/

/-- The `k`-th label of a hint. -/
def candidate (hint : String) (k : Nat) : String :=
  hint ++ "_" ++ toString k

/-- A label that no block has ever had. -/
def freshLabel (r : Registry) (hint : String) : String × Registry :=
  let used := r.arena.map WorkBlock.label
  let k := firstFree used (candidate hint) r.counter used.length
  (candidate hint k, { r with counter := k + 1 })

/-! ### The registry of a function -/

/-- Enter the blocks of a function, lowering their instructions. -/
def seedFrom (scope : Scope) (buffers : Table (List Stmt)) (r : Registry) :
    List Block → DraftM Registry
  | [] => return r
  | b :: bs => do
    let stmts ← Lower.instrs scope b.instrs
    let new : NewBlock :=
      { label := b.name
        stmts
        phiOut := (buffers.get? b.name).getD []
        terminator := b.terminator }
    match r.insert new with
    | .error f => throw f
    | .ok (_, r) => seedFrom scope buffers r bs

/-- The registry of a function's blocks, in their order. -/
def seed (scope : Scope) (buffers : Table (List Stmt)) (blocks : List Block) : DraftM Registry :=
  seedFrom scope buffers {} blocks

end Registry

end GoLift
