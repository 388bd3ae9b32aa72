import GoLift.Proofs.IR.Flow

/-!
# Definitions, uses and paths

What the blocks of a function say about their bindings: which ones they make, which
ones their instructions and their ends mention, and along which paths control can
come from one block to another.

**A block dominates another if no path from the entry comes to the second one without
the first** (`Flow.Dominates`). A path that is put together of two shows where a dominating
block lies: on the first, if it is not on the second (`Flow.Path.append`).
-/

set_option autoImplicit false

namespace GoLift

/-! ### Operands -/

mutual

/-- The bindings that a value mentions. -/
def Value.locals : Value → List String
  | .localRef name _ => [name]
  | .globalRef .. => []
  | .const _ p => p.locals

/-- The bindings that a payload mentions. -/
def Payload.locals : Payload → List String
  | .ref v => v.locals
  | .elements vs => Value.localsOf vs
  | .list items => Payload.localsOf items
  | .null | .undef | .int _ | .float _ => []

/-- The bindings that a list of values mentions. -/
def Value.localsOf : List Value → List String
  | [] => []
  | v :: vs => v.locals ++ Value.localsOf vs

/-- The bindings that a list of payloads mentions. -/
def Payload.localsOf : List Payload → List String
  | [] => []
  | p :: ps => p.locals ++ Payload.localsOf ps

end

/-- The operands that an instruction looks at where it stands. Those of a phi are
looked at on the edges into its block. -/
def Instr.operands : Instr → List Value
  | .binary _ _ _ left right | .icmp _ _ _ left right | .fcmp _ _ _ left right => [left, right]
  | .alloca _ _ count => count.toList
  | .load _ _ ptr => [ptr]
  | .store _ value ptr => [value, ptr]
  | .cast _ _ value _ => [value]
  | .call _ _ callee args => callee :: args
  | .select _ cond ifTrue ifFalse => [cond, ifTrue, ifFalse]
  | .gep _ _ ptr indices => ptr :: indices
  | .phi .. | .unknown _ => []

/-- The binding that an instruction makes. -/
def Instr.dest? : Instr → Option String
  | .binary dest .. | .icmp dest .. | .fcmp dest .. | .alloca dest .. | .load dest ..
  | .cast dest .. | .select dest .. | .gep dest .. | .phi dest .. => some dest
  | .call dest .. => dest
  | .store .. | .unknown _ => none

/-- The operands that a terminator looks at. -/
def Terminator.operands : Terminator → List Value
  | .condBr cond _ _ => [cond]
  | .ret value => value.toList
  | .switch value _ cases => value :: cases.map Prod.fst
  | .br _ | .unreachable | .unknown _ => []

/-- The bindings that the end of a block looks at, if it has one. -/
def Terminator.reads (t : Option Terminator) : List String :=
  ((t.map Terminator.operands).getD []).flatMap Value.locals

namespace Block

/-- The operands of a block's instructions. -/
def operands (b : Block) : List Value :=
  b.instrs.flatMap Instr.operands

/-- The operands of a block's end. -/
def endOperands (b : Block) : List Value :=
  (b.terminator.map Terminator.operands).getD []

/-- The bindings that a block makes. -/
def dests (b : Block) : List String :=
  b.instrs.filterMap Instr.dest?

/-- The bindings that the instructions of a block look at. -/
def reads (b : Block) : List String :=
  b.operands.flatMap Value.locals

/-- The bindings that the end of a block looks at. -/
def endReads (b : Block) : List String :=
  b.endOperands.flatMap Value.locals

end Block

/-! ### Paths -/

namespace Flow

/-- `Path blocks a bs b`: control can come from `a` to `b` by way of `bs`, both ends among
them. -/
inductive Path (blocks : List Block) : Block → List Block → Block → Prop
  | single {b : Block} : Path blocks b [b] b
  | cons {a s b : Block} {bs : List Block} :
      s ∈ blocks → s.name ∈ a.targets → Path blocks s bs b → Path blocks a (a :: bs) b

variable {blocks : List Block} {a b c t u : Block} {bs cs : List Block}

theorem Path.mem_end (h : Path blocks a bs b) : b ∈ bs := by
  induction h with
  | single => exact List.mem_cons_self
  | cons _ _ _ ih => exact List.mem_cons_of_mem _ ih

theorem Path.mem_start (h : Path blocks a bs b) : a ∈ bs := by
  cases h <;> exact List.mem_cons_self

/-- A path is at its end or goes on to a block of it. -/
theorem Path.eq_or_step (h : Path blocks a bs b) :
    a = b ∨ ∃ s ∈ blocks, s.name ∈ a.targets ∧ s ∈ bs := by
  cases h with
  | single => exact .inl rfl
  | cons hs htarget hrest => exact .inr ⟨_, hs, htarget, List.mem_cons_of_mem _ hrest.mem_start⟩

/-- Two paths make one, of the blocks of both. -/
theorem Path.append (h : Path blocks a bs b) (h' : Path blocks b cs c) :
    ∃ ds, Path blocks a ds c ∧ ∀ x ∈ ds, x ∈ bs ∨ x ∈ cs := by
  induction h with
  | single => exact ⟨cs, h', fun x hx => .inr hx⟩
  | @cons a s b bs hs ht _ ih =>
    obtain ⟨ds, hds, hmem⟩ := ih h'
    refine ⟨a :: ds, .cons hs ht hds, fun x hx => ?_⟩
    rcases List.mem_cons.1 hx with rfl | hx
    · exact .inl List.mem_cons_self
    · exact (hmem x hx).imp (List.mem_cons_of_mem _) id

/-- The block can be reached from the entry. -/
def Reached (blocks : List Block) (b : Block) : Prop :=
  ∃ e bs, blocks.head? = some e ∧ Path blocks e bs b

theorem Reached.step (h : Reached blocks a) (hb : b ∈ blocks) (ht : b.name ∈ a.targets) :
    Reached blocks b := by
  obtain ⟨e, bs, he, hpath⟩ := h
  obtain ⟨ds, hds, -⟩ := hpath.append (.cons hb ht .single)
  exact ⟨e, ds, he, hds⟩

/-- Every path from the entry to the second block passes the first. -/
def Dominates (blocks : List Block) (t u : Block) : Prop :=
  ∀ e bs, blocks.head? = some e → Path blocks e bs u → t ∈ bs

theorem Dominates.refl (blocks : List Block) (b : Block) : Dominates blocks b b :=
  fun _ _ _ hpath => hpath.mem_end

/-- A block that dominates the end of a path it is not on dominates the start. -/
theorem Dominates.of_path (h : Dominates blocks t u) (hpath : Path blocks a bs u)
    (ht : t ∉ bs) : Dominates blocks t a := by
  intro e cs he hcs
  obtain ⟨ds, hds, hmem⟩ := hcs.append hpath
  exact (hmem t (h e ds he hds)).resolve_right ht

/-- What dominates a block, dominates all blocks that go there, unless it is that
block. -/
theorem Dominates.of_edge (h : Dominates blocks t b) (hb : b ∈ blocks)
    (hab : b.name ∈ a.targets) (hne : t ≠ b) : Dominates blocks t a := by
  intro e bs he hbs
  obtain ⟨ds, hds, hmem⟩ := hbs.append (.cons hb hab .single)
  rcases hmem t (h e ds he hds) with ht | ht
  · exact ht
  · have ht : t = a := by simpa [hne] using ht
    exact ht ▸ hbs.mem_end

end Flow

end GoLift
