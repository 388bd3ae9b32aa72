import GoLift.Proofs.IR.Flow
import GoLift.Proofs.Region.Apply

/-!
# The states of a reduction

`Registry.Reachable` are the states that seeding and any applications, successful or
not, lead to. In each of them the registry keeps `Registry.Inv`; the parts that
later proofs live on are that **the entries of live blocks stay distinct** and that
**no `break` leads out of a block**.
-/

set_option autoImplicit false

namespace GoLift

open Go (Expr Stmt)
open DraftM

namespace Registry

variable {r r' : Registry} {p : Primitive} {ms : Members} {scope : Scope} {D : Draft}
  {buffers : Table (List Stmt)}

/-! ### The live blocks -/

theorem Sound.handles_eq (hr : r.Sound) :
    r.arena.map WorkBlock.handle = List.range r.arena.length := by
  refine List.ext_getElem? fun i => ?_
  rw [List.getElem?_map]
  rcases hi : r.arena[i]? with _ | b
  · rw [List.getElem?_eq_none (by simpa using List.getElem?_eq_none_iff.1 hi)]
    rfl
  · rw [List.getElem?_range (List.getElem?_eq_some_iff.1 hi).1]
    exact congrArg some (hr.handle hi)

/-- The live blocks come in the order of their handles. -/
theorem Sound.sorted_live (hr : r.Sound) : r.live.Pairwise (fun b b' => b.handle < b'.handle) := by
  have hsub : (r.live.map WorkBlock.handle).Sublist (List.range r.arena.length) := by
    rw [← hr.handles_eq]
    exact List.filter_sublist.map _
  exact List.pairwise_map.1 (List.pairwise_lt_range.sublist hsub)

theorem Sound.nodup_labels (hr : r.Sound) : (r.live.map WorkBlock.label).Nodup := by
  refine List.pairwise_map.2 (hr.sorted_live.imp_of_mem fun {b b'} hb hb' hlt heq => ?_)
  rw [hr.eq_of_label hb hb' heq] at hlt
  exact Nat.lt_irrefl _ hlt

/-! ### Seeding -/

/-- The working block of a block of the function. -/
structure Seeded (scope : Scope) (buffers : Table (List Stmt)) (D : Draft) (b : Block)
    (w : WorkBlock) : Prop where
  label : w.label = b.name
  entry : w.entry = b.name
  stmts : Gives (Lower.instrs scope b.instrs) D w.stmts
  phiOut : w.phiOut = (buffers.get? b.name).getD []
  terminator : w.terminator = b.terminator

theorem grows_seedFrom (scope : Scope) (buffers : Table (List Stmt)) (blocks : List Block) :
    ∀ r, Grows (seedFrom scope buffers r blocks) := by
  induction blocks with
  | nil => exact fun _ => .pure _
  | cons b blocks ih =>
    intro r
    refine (Lower.steady_instrs scope _).grows.bind fun stmts => ?_
    dsimp only
    split
    · exact grows_throw _
    · exact ih _

/-- Seeding goes on behind a block whose label is free: otherwise it enters nothing. -/
theorem seedFrom_cons {b : Block} {blocks : List Block} {d d' : Draft}
    (h : seedFrom scope buffers r (b :: blocks) d = (.ok r', d')) :
    r.contains b.name = false ∧ ∃ stmts d₁, Lower.instrs scope b.instrs d = (.ok stmts, d₁) ∧
      seedFrom scope buffers
        (r.enter
          { label := b.name
            stmts
            phiOut := (buffers.get? b.name).getD []
            terminator := b.terminator }).2 blocks d₁ = (.ok r', d') := by
  obtain ⟨stmts, d₁, hstmts, h⟩ := bind_ok h
  dsimp only at h
  have hlabel : r.contains b.name = false := by
    by_contra hin
    rw [insert_of_contains (by simpa using hin)] at h
    cases h
  rw [insert_of_not_contains hlabel] at h
  exact ⟨hlabel, stmts, d₁, hstmts, h⟩

theorem seedFrom_ok {blocks : List Block} {d d' : Draft} (hr : r.Sound)
    (h : seedFrom scope buffers r blocks d = (.ok r', d')) :
    r'.Sound ∧ ∃ new, r'.live = r.live ++ new ∧
      List.Forall₂ (Seeded scope buffers d') blocks new ∧
      new.map WorkBlock.handle = List.range' r.arena.length blocks.length := by
  induction blocks generalizing r d with
  | nil =>
    cases h
    exact ⟨hr, [], by simp, .nil, rfl⟩
  | cons b blocks ih =>
    obtain ⟨hlabel, stmts, d₁, hstmts, h⟩ := seedFrom_cons h
    obtain ⟨hr', rest, hrest, hseeded, hhandles⟩ := ih (hr.enter hlabel) h
    refine ⟨hr', _ :: rest, by rw [hrest, live_enter, List.append_assoc]; rfl, .cons ?_ hseeded, ?_⟩
    · exact ⟨rfl, rfl, ⟨d, d₁, hstmts, (grows_seedFrom scope buffers blocks _).apply h⟩, rfl, rfl⟩
    · rw [List.map_cons, hhandles]
      simp [enter, ofNew, List.range'_succ]

/-- **Seeding enters the blocks of the function, each once and in their order.** -/
theorem seed_ok {blocks : List Block} {d d' : Draft}
    (h : seed scope buffers blocks d = (.ok r, d')) :
    r.Sound ∧ List.Forall₂ (Seeded scope buffers d') blocks r.live ∧
      r.live.map WorkBlock.handle = List.range blocks.length := by
  obtain ⟨hr, new, hlive, hseeded, hhandles⟩ := seedFrom_ok sound_empty h
  obtain rfl : r.live = new := hlive
  exact ⟨hr, hseeded, hhandles.trans (List.range_eq_range' ..).symm⟩

/-! ### The invariant -/

/-- What every state of a reduction keeps. -/
structure Inv (r : Registry) : Prop where
  sound : r.Sound
  /-- Control enters different blocks by different labels. -/
  entries : (r.live.map WorkBlock.entry).Nodup
  named : ∀ b ∈ r.live, b.entry ≠ ""
  contained : ∀ b ∈ r.live, Stmt.allContained b.sequence = true

/-- Control enters a block of the function by its label. -/
theorem nodup_entries_of_seeded {blocks : List Block} (hr : r.Sound)
    (hseeded : List.Forall₂ (Seeded scope buffers D) blocks r.live) :
    (r.live.map WorkBlock.entry).Nodup := by
  have : r.live.map WorkBlock.entry = r.live.map WorkBlock.label :=
    List.map_congr_left fun w hw => by
      obtain ⟨b, -, h⟩ := mem_of_forall₂ hseeded.flip hw
      rw [h.entry, h.label]
  rw [this]
  exact hr.nodup_labels

/-- The labels of the blocks are different, or they would not have been entered. -/
theorem nodup_names_of_seeded {blocks : List Block} (hr : r.Sound)
    (hseeded : List.Forall₂ (Seeded scope buffers D) blocks r.live) :
    (blocks.map Block.name).Nodup := by
  have hlabels : r.live.map WorkBlock.label = blocks.map Block.name :=
    forall₂_map_eq (hseeded.imp fun _ _ h => h.label)
  exact hlabels ▸ hr.nodup_labels

theorem inv_of_seeded {blocks : List Block} (hr : r.Sound)
    (hseeded : List.Forall₂ (Seeded scope buffers D) blocks r.live)
    (hnames : ∀ b ∈ blocks, b.name ≠ "")
    (hbuffers : ∀ e ∈ buffers.entries, Stmt.allContained e.2 = true) : r.Inv := by
  have hof : ∀ w ∈ r.live, ∃ b ∈ blocks, Seeded scope buffers D b w :=
    fun w hw => mem_of_forall₂ hseeded.flip hw
  refine ⟨hr, nodup_entries_of_seeded hr hseeded, ?_, ?_⟩
  · intro w hw
    obtain ⟨b, hb, h⟩ := hof w hw
    rw [h.entry]
    exact hnames b hb
  · intro w hw
    obtain ⟨b, -, h⟩ := hof w hw
    have hphi : Stmt.allContained w.phiOut = true := by
      rw [h.phiOut]
      cases hget : buffers.get? b.name with
      | none => rfl
      | some ss =>
        obtain ⟨l₁, l₂, hes, -⟩ := List.lookup_eq_some_iff.1 hget
        exact hbuffers (b.name, ss) (by simp [hes])
    simp [WorkBlock.sequence, h.stmts.ensured (Lower.contained_instrs scope _), hphi]

/-- The members of a region are gone, and nothing else. -/
theorem Applied.mem_live {region : Region} {b w : WorkBlock}
    (h : Applied scope p r D ms region b r') (hr : r.Sound) :
    w ∈ r'.live ↔ (w ∈ r.live ∧ ∀ m ∈ ms, m.2 ≠ w) ∨ w = b := by
  rw [h.collapsed.live, List.mem_append, List.mem_filter, List.mem_singleton]
  refine or_congr_left (and_congr_right fun hw => ?_)
  simp only [Bool.not_eq_true', List.contains_eq_mem, decide_eq_false_iff_not, List.mem_map,
    not_exists, not_and]
  refine forall₂_congr fun m hm => not_congr ⟨hr.eq_of_handle (h.resolved.live m hm) hw, ?_⟩
  rintro rfl
  rfl

/-- Control enters the new block where it entered a member. -/
theorem Applied.entry_mem {region : Region} {b : WorkBlock}
    (h : Applied scope p r D ms region b r') (hnamed : ∀ w ∈ r.live, w.entry ≠ "") :
    ∃ m ∈ ms, b.entry = m.2.entry := by
  obtain ⟨m, hm, hentry⟩ := h.built.entry_mem
  refine ⟨m, hm, ?_⟩
  rw [hentry]
  exact h.collapsed.entry (hentry ▸ hnamed _ (h.resolved.live m hm))

theorem Applied.nodup_entries {region : Region} {b : WorkBlock}
    (h : Applied scope p r D ms region b r') (hnamed : ∀ w ∈ r.live, w.entry ≠ "")
    (hentries : (r.live.map WorkBlock.entry).Nodup) : (r'.live.map WorkBlock.entry).Nodup := by
  obtain ⟨m, hm, hb⟩ := h.entry_mem hnamed
  rw [h.collapsed.live, List.map_append, List.map_singleton]
  refine List.nodup_append.2 ⟨?_, List.nodup_singleton _, ?_⟩
  · exact hentries.sublist (List.filter_sublist.map _)
  · -- The entry is that of a member, and no other block had it.
    rintro x hx y hy rfl
    obtain ⟨w, hw, heq⟩ := List.mem_map.1 hx
    rw [List.mem_singleton.1 hy, hb] at heq
    obtain ⟨hw, hnot⟩ := List.mem_filter.1 hw
    have hwm := List.inj_on_of_nodup_map hentries hw (h.resolved.live m hm) heq
    simp only [hwm, Bool.not_eq_true', List.contains_eq_mem, decide_eq_false_iff_not,
      List.mem_map, not_exists, not_and] at hnot
    exact hnot m hm rfl

theorem Inv.apply {region : Region} {b : WorkBlock} (hr : r.Inv)
    (h : Applied scope p r D ms region b r') : r'.Inv := by
  obtain ⟨m, hm, hb⟩ := h.entry_mem hr.named
  have hseq : b.sequence = region.stmts := by
    rw [WorkBlock.sequence, h.collapsed.phiOut, h.collapsed.stmts, List.append_nil]
  refine ⟨h.collapsed.sound, h.nodup_entries hr.named hr.entries, ?_, ?_⟩
  · intro w hw
    rcases (h.mem_live hr.sound).1 hw with ⟨hw, -⟩ | rfl
    · exact hr.named w hw
    · exact hb ▸ hr.named _ (h.resolved.live m hm)
  · intro w hw
    rcases (h.mem_live hr.sound).1 hw with ⟨hw, -⟩ | rfl
    · exact hr.contained w hw
    · rw [hseq]
      exact h.built.contained fun m hm => hr.contained _ (h.resolved.live m hm)

/-! ### Reachable states -/

/-- The registries and drafts that seeding the blocks of a function and applying
primitives lead to. -/
inductive Reachable (scope : Scope) (blocks : List Block) : Registry → Draft → Prop
  | seed {d d₁ d₂ : Draft} {buffers : Table (List Stmt)} {r : Registry} :
      phiBuffers scope blocks d = (.ok buffers, d₁) →
      Registry.seed scope buffers blocks d₁ = (.ok r, d₂) → Reachable scope blocks r d₂
  | applied {d d' : Draft} {r r' : Registry} {p : Primitive} {b : WorkBlock} :
      Reachable scope blocks r d → r.apply scope p d = (.ok (b, r'), d') →
      Reachable scope blocks r' d'
  /-- A primitive that fails leaves the blocks as they are. -/
  | refused {d d' : Draft} {r : Registry} {p : Primitive} {f : Fault} :
      Reachable scope blocks r d → r.apply scope p d = (.error f, d') →
      Reachable scope blocks r d'

/-- Every state of a reduction keeps the invariant. -/
theorem Reachable.inv {blocks : List Block} (hnames : ∀ b ∈ blocks, b.name ≠ "") {d : Draft}
    (h : Reachable scope blocks r d) : r.Inv := by
  induction h with
  | seed hbuffers hseed =>
    obtain ⟨hr, hseeded, -⟩ := seed_ok hseed
    exact inv_of_seeded hr hseeded hnames (contained_phiBuffers scope blocks _ _ _ hbuffers)
  | applied _ happly ih =>
    obtain ⟨ms, region, happlied⟩ := apply_ok ih.sound happly
    exact ih.apply happlied
  | refused _ _ ih => exact ih

end Registry

end GoLift
