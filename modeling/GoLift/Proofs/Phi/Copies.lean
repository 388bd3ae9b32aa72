import GoLift.Phi
import GoLift.Proofs.IR.Flow

/-!
# The copies out of a block

The copies are made from the side of the phis: for each phi of each block, one copy
for each predecessor of the block. Read from the side of the block that makes them,
**a block makes the copies of all phis of all blocks it goes to**, in the order of these
blocks, and each copy has a value because the phi was checked against the
predecessors.
-/

set_option autoImplicit false

namespace GoLift

/-! ### Checked phis -/

theorem sortedDiff_isEmpty {xs ys : List String} :
    (sortedDiff xs ys).isEmpty = true ↔ xs ⊆ ys := by
  rw [List.isEmpty_iff, List.eq_nil_iff_forall_not_mem]
  constructor
  · intro h x hx
    by_contra hy
    exact h x (mem_sorted.2 (mem_firsts.2 (by simpa using ⟨hx, hy⟩)))
  · intro h x hx
    have hx := mem_firsts.1 (mem_sorted.1 hx)
    rw [List.mem_filter] at hx
    have := h hx.1
    simp_all

/-- A phi that fits its block has a value for every predecessor, and for nothing
else. -/
theorem Phi.check_ok {block : String} {preds : List String} {φ : Phi}
    (h : φ.check block preds = .ok ()) :
    (∀ p, p ∈ preds ↔ p ∈ φ.labels) ∧ φ.labels.Nodup := by
  unfold Phi.check at h
  dsimp only at h
  split at h
  · cases h
  · next hdupes =>
    split at h
    · next hsame =>
      rw [Bool.and_eq_true, sortedDiff_isEmpty, sortedDiff_isEmpty] at hsame
      refine ⟨fun p => ⟨fun hp => hsame.1 hp, fun hp => hsame.2 hp⟩, ?_⟩
      rw [List.nodup_iff_count_le_one]
      intro x
      by_contra hx
      refine hdupes ?_
      have hmem : x ∈ repeated φ.labels := by
        refine mem_sorted.2 (mem_firsts.2 (List.mem_filter.2 ⟨?_, by simpa using hx⟩))
        exact List.count_pos_iff.1 (by omega)
      simpa using List.ne_nil_of_mem hmem
    · cases h

/-- The value of a phi for an edge. -/
def Phi.valueFrom (pred : String) (φ : Phi) : Option Value :=
  φ.incoming.lookup pred

theorem Phi.valueFrom_iff {pred : String} {φ : Phi} :
    (∃ v, φ.valueFrom pred = some v) ↔ pred ∈ φ.labels := by
  rw [← Option.isSome_iff_exists]
  exact Table.contains_iff ⟨φ.incoming⟩ pred

/-! ### Copies by the block that makes them -/

/-- The copy that a block makes for a phi, if the phi has a value for it. -/
def Phi.copyFrom (pred : String) (φ : Phi) : Option Copy :=
  (φ.valueFrom pred).map fun value => { dest := φ.dest, type := φ.type, value }

theorem Phi.copyFrom_eq {pred : String} {φ : Phi} {v : Value} (h : φ.valueFrom pred = some v) :
    φ.copyFrom pred = some { dest := φ.dest, type := φ.type, value := v } := by
  rw [copyFrom, h, Option.map_some]

/-- Copies have the destinations of their phis. -/
theorem Phi.dests_copyFrom (pred : String) (φs : List Phi) :
    ((φs.filterMap (Phi.copyFrom pred)).map Copy.dest).Sublist (φs.map Phi.dest) := by
  induction φs with
  | nil => exact .slnil
  | cons φ φs ih =>
    rw [List.filterMap_cons, List.map_cons]
    rcases hv : φ.valueFrom pred with _ | v <;> simp only [Phi.copyFrom, hv] at ih ⊢
    · exact ih.cons _
    · exact ih.cons_cons _

/-- The copies that a block makes for the phis of another. -/
def Block.copiesTo (p s : Block) : List Copy :=
  if s.name ∈ p.targets then s.phis.filterMap (Phi.copyFrom p.name) else []

/-- The copies that a block makes. -/
def Block.copies (blocks : List Block) (p : Block) : List Copy :=
  blocks.flatMap p.copiesTo

/-- The phis of the blocks that a block goes to. -/
def Block.phisAhead (blocks : List Block) (p : Block) : List Phi :=
  blocks.flatMap fun s => if s.name ∈ p.targets then s.phis else []

/-- **A block makes the copies of the phis ahead of it.** -/
theorem Block.copies_eq (blocks : List Block) (p : Block) :
    p.copies blocks = (p.phisAhead blocks).filterMap (Phi.copyFrom p.name) := by
  rw [copies, phisAhead, List.filterMap_flatMap]
  refine List.flatMap_congr fun s _ => ?_
  rw [copiesTo]
  split
  · rfl
  · rw [List.filterMap_nil]

/-- The phis of a body are those of its instructions. -/
theorem phis_eq_filterMap (blocks : List Block) :
    blocks.flatMap Block.phis = (blocks.flatMap Block.instrs).filterMap Instr.phi? := by
  rw [List.filterMap_flatMap]
  rfl

/-- The copies of a block have the destinations of phis of the body, each once. -/
theorem Block.dests_copies (blocks : List Block) (p : Block) :
    ((p.copies blocks).map Copy.dest).Sublist ((blocks.flatMap Block.phis).map Phi.dest) := by
  rw [copies_eq]
  refine (Phi.dests_copyFrom _ _).trans (List.Sublist.map _ ?_)
  rw [phisAhead]
  induction blocks with
  | nil => exact .slnil
  | cons s blocks ih =>
    rw [List.flatMap_cons, List.flatMap_cons]
    refine List.Sublist.append ?_ ih
    split
    · exact .refl _
    · exact List.nil_sublist _

/-- **What the copies of a body are.** -/
structure CopiesOf (blocks : List Block) (copies : Table (List Copy)) : Prop where
  closed : Closed blocks
  keys : copies.keys = firsts (blocks.map Block.name)
  get : ∀ p ∈ blocks, copies.get? p.name = some (p.copies blocks)
  /-- A phi has a value for an edge exactly if there is the edge. -/
  value : ∀ s ∈ blocks, ∀ φ ∈ s.phis, ∀ p ∈ blocks,
    (∃ v, φ.valueFrom p.name = some v) ↔ s.name ∈ p.targets

/-- The phis ahead of a block have values for it. -/
theorem CopiesOf.exists_value {blocks : List Block} {copies : Table (List Copy)}
    (hof : CopiesOf blocks copies) {p : Block} (hp : p ∈ blocks) {φ : Phi}
    (hφ : φ ∈ p.phisAhead blocks) : ∃ v, φ.valueFrom p.name = some v := by
  obtain ⟨s, hs, hφ⟩ := List.mem_flatMap.1 hφ
  split at hφ
  · next ht => exact (hof.value s hs φ hφ p hp).2 ht
  · cases hφ

theorem phiCopies_ok {blocks : List Block} (hnames : (blocks.map Block.name).Nodup)
    {copies : Table (List Copy)} (h : phiCopies blocks = .ok copies) :
    CopiesOf blocks copies := by
  obtain ⟨preds, hpreds, h⟩ := except_bind_ok h
  obtain ⟨u, hcheck, h⟩ := except_bind_ok h
  cases h
  obtain ⟨hclosed, hkeys, hget⟩ := Flow.predecessors_ok hpreds
  have hsources : ∀ s ∈ blocks, (preds.get? s.name).getD [] = Flow.into blocks s.name :=
    fun s hs => by rw [hget _ (List.mem_map_of_mem hs)]; rfl
  refine ⟨hclosed, ?_, fun p hp => ?_, fun s hs φ hφ p hp => ?_⟩
  · rw [← hkeys]
    simp [Table.keys, Function.comp_def]
  · have hmem : p.name ∈ preds.keys := hkeys ▸ mem_firsts.2 (List.mem_map_of_mem hp)
    rw [Table.get?, lookup_map_pair, if_pos hmem]
    refine congrArg some (List.flatMap_congr fun s hs => ?_)
    -- The predecessors of a block name each block that goes there once.
    have hphi : ∀ φ : Phi, φ.copiesFrom p.name (Flow.into blocks s.name) =
        if s.name ∈ p.targets then (φ.copyFrom p.name).toList else [] := by
      intro φ
      rw [Phi.copiesFrom, Flow.filter_into hnames hp]
      split
      · rcases hvalue : φ.incoming.lookup p.name with _ | v <;>
          simp only [List.filterMap_cons, List.filterMap_nil, Phi.copyFrom, Phi.valueFrom, hvalue,
            Option.map_none, Option.map_some, Option.toList]
      · rfl
    rw [hsources s hs, Block.copiesTo, List.flatMap_congr fun φ _ => hphi φ]
    split
    · rw [List.filterMap_eq_flatMap_toList]
    · exact List.flatMap_eq_nil_iff.2 fun _ _ => rfl
  · have hphi := (Phi.check_ok (forM_ok (forM_ok hcheck s hs) φ hφ)).1 p.name
    rw [hsources s hs, Flow.mem_into hnames hp] at hphi
    rw [hphi]
    exact Phi.valueFrom_iff

/-! ### Copies along a single edge -/

/-- A block that goes to blocks without phis makes no copies. -/
theorem Block.copies_eq_nil {blocks : List Block} {p : Block}
    (h : ∀ s ∈ blocks, s.name ∈ p.targets → s.phis = []) : p.copies blocks = [] := by
  refine List.flatMap_eq_nil_iff.2 fun s hs => ?_
  rw [copiesTo]
  split
  · next ht => rw [h s hs ht, List.filterMap_nil]
  · rfl

/-- A block that goes to one block makes the copies of its phis. -/
theorem Block.copies_eq_of_br {blocks : List Block} (hnames : (blocks.map Block.name).Nodup)
    {p s : Block} (hs : s ∈ blocks) (hp : p.targets = [s.name]) :
    p.copies blocks = s.phis.filterMap (Phi.copyFrom p.name) := by
  obtain ⟨before, after, rfl⟩ := List.append_of_mem hs
  rw [List.map_append, List.map_cons, List.nodup_append, List.nodup_cons] at hnames
  obtain ⟨-, ⟨hafter, -⟩, hbefore⟩ := hnames
  have hother : ∀ b : Block, b.name ≠ s.name → p.copiesTo b = [] := fun b hb => by
    rw [copiesTo, hp, if_neg (by simpa using hb)]
  have hbefore' : before.flatMap p.copiesTo = [] :=
    List.flatMap_eq_nil_iff.2 fun b hb =>
      hother b (hbefore _ (List.mem_map_of_mem hb) _ List.mem_cons_self)
  have hafter' : after.flatMap p.copiesTo = [] :=
    List.flatMap_eq_nil_iff.2 fun b hb =>
      hother b fun heq => hafter (heq ▸ List.mem_map_of_mem hb)
  rw [copies, List.flatMap_append, List.flatMap_cons, hbefore', hafter', copiesTo, hp,
    if_pos List.mem_cons_self, List.nil_append, List.append_nil]

end GoLift
