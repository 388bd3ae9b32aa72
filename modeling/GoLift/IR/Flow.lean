import GoLift.Fault
import GoLift.IR.Program

/-!
# Control flow between blocks

Where control can go from a block is read off its terminator. The predecessors
of a label are then simply **the blocks, in order, that can go there**. A body
in which some block has no end, or goes to a label no block carries, has no
predecessor table.
-/

set_option autoImplicit false

namespace GoLift

/-- The labels a terminator names, in the order of its operands. -/
def Terminator.targets : Terminator → List String
  | .br target => [target]
  | .condBr _ ifTrue ifFalse => [ifTrue, ifFalse]
  | .switch _ default cases => default :: cases.map Prod.snd
  | .ret _ | .unreachable | .unknown _ => []

/-- The labels control can go to, each once. -/
def Terminator.successors : Terminator → Except Abort (List String)
  | .unknown kind => .error (.terminator kind)
  | t => .ok (firsts t.targets)

/-- The labels control can go to from a block that may have no end. -/
def Block.successors (b : Block) : Except Abort (List String) :=
  match b.terminator with
  | some t => t.successors
  | none => .ok []

namespace Flow

/-- Where a block of a body with the given labels goes to. -/
def edges (labels : List String) (b : Block) : Except Fault (String × List String) :=
  match b.terminator with
  | none => .error (Cause.openBlock b.name).fault
  | some t =>
    match t.successors with
    | .error a => .error (.abort a)
    | .ok targets =>
      match targets.find? (fun s => !labels.contains s) with
      | some s => .error (Cause.unknownTarget b.name s).fault
      | none => .ok (b.name, targets)

/-- The blocks that go to a label. -/
def sourcesOf (graph : List (String × List String)) (label : String) : List String :=
  (graph.filter (fun e => e.2.contains label)).map Prod.fst

/-- The predecessors of every label of a body. -/
def predecessors (blocks : List Block) : Except Fault (Table (List String)) := do
  let labels := blocks.map Block.name
  let graph ← blocks.mapM (edges labels)
  return ⟨(firsts labels).map (fun l => (l, sourcesOf graph l))⟩

end Flow

end GoLift
