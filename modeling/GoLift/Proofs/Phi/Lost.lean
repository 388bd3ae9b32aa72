import GoLift.Proofs.IR.Uses
import GoLift.Proofs.Phi.Copies
import Mathlib.Data.List.Pairwise

/-!
# Copies for an edge that is not taken

The buffer of a block holds the copies for all blocks it goes to, and all of it runs,
whichever of them control goes to. A copy for another one is *lost* if what it
overwrites is still wanted: if its destination is read on a path from the block
control did go to, before it is assigned again (`Observed`).

Where uses are dominated by definitions, an edge that leads forward has no such
copy: **a lost copy is one for a block that dominates the block that makes it**
(`dominates_of_observed`). For edges that lead back there is nothing to prevent it. A loop
whose variable is used behind it, and not by way of a phi there, reads the next turn's
value; `LoopClosed` says that there is no such use, and that is what it takes
(`noLostCopies_iff`).
-/

set_option autoImplicit false

namespace GoLift

open GoLift.Flow (Reached Dominates)

/-! ### Definitions and uses -/

/-- The bindings that the copies of a block look at. These are what the phis of the
blocks it goes to take from it. -/
def Block.copyReads (blocks : List Block) (b : Block) : List String :=
  (b.copies blocks).flatMap (·.value.locals)

/-- The bindings that the copies of a block assign. -/
def Block.copyDests (blocks : List Block) (b : Block) : List String :=
  (b.copies blocks).map Copy.dest

/-- Every binding is made once, and every use of it is dominated by the block that
makes it. -/
structure Ssa (blocks : List Block) : Prop where
  distinct : (blocks.flatMap Block.dests).Nodup
  dominated : ∀ t ∈ blocks, ∀ u ∈ blocks, ∀ x ∈ t.dests,
    x ∈ u.reads ∨ x ∈ u.copyReads blocks ∨ x ∈ u.endReads → Dominates blocks t u

/-- The destination of a phi is read on a path that starts with the block, before it is
assigned again. The copies of a block look at all of their values before they assign any, and
its end comes after them. -/
inductive Observed (blocks : List Block) (x : String) : Block → Prop
  | reads {b : Block} : x ∈ b.reads → Observed blocks x b
  | copies {b : Block} : x ∈ b.copyReads blocks → Observed blocks x b
  | ends {b : Block} : x ∉ b.copyDests blocks → x ∈ b.endReads → Observed blocks x b
  | later {b s : Block} : x ∉ b.copyDests blocks → s ∈ blocks → s.name ∈ b.targets →
      Observed blocks x s → Observed blocks x b

/-- The binding is assigned by a copy that `p` makes for another block than `s`. -/
def Stray (blocks : List Block) (p s : Block) (x : String) : Prop :=
  x ∉ s.phis.map Phi.dest ∧ ∃ t ∈ blocks, t ≠ s ∧ ∃ c ∈ p.copiesTo t, c.dest = x

/-- No copy that a block makes for one block is observed from another that it goes
to. -/
def NoLostCopies (blocks : List Block) : Prop :=
  ∀ p ∈ blocks, Reached blocks p → ∀ s ∈ blocks, s.name ∈ p.targets →
    ∀ x, Stray blocks p s x → ¬ Observed blocks x s

/-- A phi of the block `t` is used on a path that starts with the block and does not come
to `t`. The ends of blocks that go to `t` do not count. -/
inductive Live (blocks : List Block) (t : Block) (x : String) : Block → Prop
  | reads {b : Block} : b ≠ t → x ∈ b.reads → Live blocks t x b
  | copies {b : Block} : b ≠ t → x ∈ b.copyReads blocks → Live blocks t x b
  | ends {b : Block} : b ≠ t → t.name ∉ b.targets → x ∈ b.endReads → Live blocks t x b
  | later {b s : Block} : b ≠ t → s ∈ blocks → s.name ∈ b.targets → Live blocks t x s →
      Live blocks t x b

/-- Where a block goes back to one that dominates it, or else to another, no phi of the
first is live at the second. -/
def LoopClosed (blocks : List Block) : Prop :=
  ∀ p ∈ blocks, Reached blocks p → ∀ t ∈ blocks, t.name ∈ p.targets → Dominates blocks t p →
    ∀ s ∈ blocks, s ≠ t → s.name ∈ p.targets → ∀ φ ∈ t.phis, ¬ Live blocks t φ.dest s

variable {blocks : List Block} {copies : Table (List Copy)} {b p s t u : Block} {φ : Phi}
  {x : String}

/-! ### What a buffer assigns -/

theorem Block.mem_dests_of_phi (h : φ ∈ b.phis) : φ.dest ∈ b.dests := by
  obtain ⟨i, hi, hφ⟩ := List.mem_filterMap.1 h
  refine List.mem_filterMap.2 ⟨i, hi, ?_⟩
  cases i <;> cases hφ
  rfl

/-- A binding is made by one block. -/
theorem Ssa.eq_of_mem_dests (hssa : Ssa blocks) (hs : s ∈ blocks) (ht : t ∈ blocks)
    (hxs : x ∈ s.dests) (hxt : x ∈ t.dests) : s = t := by
  have hpair := (List.nodup_flatMap.1 hssa.distinct).2
  by_contra hne
  have hsymm : Std.Symm (Function.onFun List.Disjoint Block.dests) := ⟨fun _ _ h x hx hy => h hy hx⟩
  exact hpair.forall hs ht hne hxs hxt

/-- A copy is made for a phi. -/
theorem Block.exists_phi_of_copiesTo {c : Copy} (h : c ∈ p.copiesTo s) :
    s.name ∈ p.targets ∧ ∃ φ ∈ s.phis, φ.dest = c.dest := by
  rw [copiesTo] at h
  split at h
  · next ht =>
    obtain ⟨φ, hφ, hc⟩ := List.mem_filterMap.1 h
    obtain ⟨v, -, rfl⟩ := Option.map_eq_some_iff.1 hc
    exact ⟨ht, φ, hφ, rfl⟩
  · cases h

/-- The copy for a phi of a block that is gone to. -/
theorem CopiesOf.exists_copy (hof : CopiesOf blocks copies) (hp : p ∈ blocks) (ht : t ∈ blocks)
    (htarget : t.name ∈ p.targets) (hφ : φ ∈ t.phis) :
    ∃ c ∈ p.copiesTo t, c.dest = φ.dest := by
  obtain ⟨v, hv⟩ := (hof.value t ht φ hφ p hp).2 htarget
  refine ⟨⟨φ.dest, φ.type, v⟩, ?_, rfl⟩
  rw [Block.copiesTo, if_pos htarget]
  exact List.mem_filterMap.2 ⟨φ, hφ, φ.copyFrom_eq hv⟩

/-- **A block assigns the phis of the blocks it goes to.** -/
theorem mem_copyDests_iff (hof : CopiesOf blocks copies) (hssa : Ssa blocks) (hb : b ∈ blocks)
    (ht : t ∈ blocks) (hφ : φ ∈ t.phis) :
    φ.dest ∈ b.copyDests blocks ↔ t.name ∈ b.targets := by
  constructor
  · intro h
    obtain ⟨c, hc, heq⟩ := List.mem_map.1 h
    obtain ⟨s, hs, hc⟩ := List.mem_flatMap.1 hc
    obtain ⟨htarget, ψ, hψ, hdest⟩ := Block.exists_phi_of_copiesTo hc
    have hsame : s = t := hssa.eq_of_mem_dests hs ht (Block.mem_dests_of_phi hψ)
      (by rw [hdest, heq]; exact Block.mem_dests_of_phi hφ)
    exact hsame ▸ htarget
  · intro h
    obtain ⟨c, hc, hdest⟩ := hof.exists_copy hb ht h hφ
    exact List.mem_map.2 ⟨c, List.mem_flatMap.2 ⟨t, ht, hc⟩, hdest⟩

/-! ### Forward edges lose nothing -/

/-- What is observed without its block being entered is used behind a path around
that block. -/
theorem Observed.exists_path (hof : CopiesOf blocks copies) (hssa : Ssa blocks) (ht : t ∈ blocks)
    (hφ : φ ∈ t.phis) (hs : s ∈ blocks) (hne : s ≠ t) (h : Observed blocks φ.dest s) :
    ∃ u ∈ blocks, ∃ bs, Flow.Path blocks s bs u ∧ t ∉ bs ∧
      (φ.dest ∈ u.reads ∨ φ.dest ∈ u.copyReads blocks ∨ φ.dest ∈ u.endReads) := by
  have hsingle : ∀ {b : Block}, b ≠ t → t ∉ [b] := fun hb => by simpa using Ne.symm hb
  induction h with
  | @reads b hx => exact ⟨b, hs, [b], .single, hsingle hne, .inl hx⟩
  | @copies b hx => exact ⟨b, hs, [b], .single, hsingle hne, .inr (.inl hx)⟩
  | @ends b _ hx => exact ⟨b, hs, [b], .single, hsingle hne, .inr (.inr hx)⟩
  | @later b s hassigned hs' htarget _ ih =>
    -- Control cannot come to `t` without its phis being assigned.
    have hne' : s ≠ t := by
      rintro rfl
      exact hassigned ((mem_copyDests_iff hof hssa hs ht hφ).2 htarget)
    obtain ⟨u, hu, bs, hpath, hbs, huse⟩ := ih hs' hne'
    refine ⟨u, hu, b :: bs, .cons hs' htarget hpath, ?_, huse⟩
    rw [List.mem_cons, not_or]
    exact ⟨Ne.symm hne, hbs⟩

/-- **A copy that is lost is one for a block that dominates the block that makes it.** -/
theorem dominates_of_observed (hof : CopiesOf blocks copies) (hssa : Ssa blocks)
    (ht : t ∈ blocks) (hφ : φ ∈ t.phis) (hs : s ∈ blocks) (hne : s ≠ t)
    (hedge : s.name ∈ p.targets) (h : Observed blocks φ.dest s) : Dominates blocks t p := by
  obtain ⟨u, hu, bs, hpath, hbs, huse⟩ := h.exists_path hof hssa ht hφ hs hne
  have hdom : Dominates blocks t u :=
    hssa.dominated t ht u hu _ (Block.mem_dests_of_phi hφ) huse
  exact (hdom.of_path hpath hbs).of_edge hs hedge hne.symm

/-! ### Back edges -/

/-- What is observed is live. -/
theorem Observed.live (hof : CopiesOf blocks copies) (hssa : Ssa blocks) (ht : t ∈ blocks)
    (hφ : φ ∈ t.phis) (hs : s ∈ blocks) (hne : s ≠ t) (h : Observed blocks φ.dest s) :
    Live blocks t φ.dest s := by
  induction h with
  | reads hx => exact .reads hne hx
  | copies hx => exact .copies hne hx
  | ends hassigned hx =>
    exact .ends hne (mt (mem_copyDests_iff hof hssa hs ht hφ).2 hassigned) hx
  | later hassigned hs' htarget _ ih =>
    refine .later hne hs' htarget (ih hs' ?_)
    rintro rfl
    exact hassigned ((mem_copyDests_iff hof hssa hs ht hφ).2 htarget)

theorem Live.ne (h : Live blocks t x b) : b ≠ t := by
  cases h <;> assumption

/-- What is live is observed, or else a block on the way loses its copy. -/
theorem Live.observed (hof : CopiesOf blocks copies) (hssa : Ssa blocks) (ht : t ∈ blocks)
    (hφ : φ ∈ t.phis) (hb : b ∈ blocks) (hreached : Reached blocks b)
    (h : Live blocks t φ.dest b) :
    Observed blocks φ.dest b ∨ ∃ p ∈ blocks, Reached blocks p ∧ t.name ∈ p.targets ∧
      ∃ s ∈ blocks, s ≠ t ∧ s.name ∈ p.targets ∧ Observed blocks φ.dest s := by
  induction h with
  | reads _ hx => exact .inl (.reads hx)
  | copies _ hx => exact .inl (.copies hx)
  | ends _ htarget hx => exact .inl (.ends (mt (mem_copyDests_iff hof hssa hb ht hφ).1 htarget) hx)
  | @later b s _ hs hbs hlive ih =>
    rcases ih hs (hreached.step hs hbs) with hobs | hlost
    · -- The last block on the way that goes to `t` is the one whose copy is observed.
      by_cases htarget : t.name ∈ b.targets
      · exact .inr ⟨b, hb, hreached, htarget, s, hs, hlive.ne, hbs, hobs⟩
      · exact .inl (.later (mt (mem_copyDests_iff hof hssa hb ht hφ).1 htarget) hs hbs hobs)
    · exact .inr hlost

/-- **No copy is lost exactly if no loop variable is used behind its loop but by way of
a phi.** -/
theorem noLostCopies_iff (hof : CopiesOf blocks copies) (hssa : Ssa blocks) :
    NoLostCopies blocks ↔ LoopClosed blocks := by
  constructor
  · intro h p hp hreached t ht htarget _ s hs hne hedge φ hφ hlive
    -- The phis of `s` are not those of `t`.
    have hother : ∀ {s : Block}, s ∈ blocks → s ≠ t → φ.dest ∉ s.phis.map Phi.dest := by
      intro s hs hne hmem
      obtain ⟨ψ, hψ, hdest⟩ := List.mem_map.1 hmem
      exact hne (hssa.eq_of_mem_dests hs ht (hdest ▸ Block.mem_dests_of_phi hψ)
        (Block.mem_dests_of_phi hφ))
    have hlost : ∀ {p s : Block}, p ∈ blocks → Reached blocks p → t.name ∈ p.targets →
        s ∈ blocks → s ≠ t → s.name ∈ p.targets → ¬ Observed blocks φ.dest s := by
      intro p s hp hreached htarget hs hne hedge
      obtain ⟨c, hc, hdest⟩ := hof.exists_copy hp ht htarget hφ
      exact h p hp hreached s hs hedge _ ⟨hother hs hne, t, ht, hne.symm, c, hc, hdest⟩
    rcases hlive.observed hof hssa ht hφ hs (hreached.step hs hedge) with
      hobs | ⟨p', hp', hreached', htarget', s', hs', hne', hedge', hobs⟩
    · exact hlost hp hreached htarget hs hne hedge hobs
    · exact hlost hp' hreached' htarget' hs' hne' hedge' hobs
  · rintro h p hp hreached s hs hedge x ⟨-, t, ht, hne, c, hc, rfl⟩ hobs
    obtain ⟨htarget, φ, hφ, hdest⟩ := Block.exists_phi_of_copiesTo hc
    rw [← hdest] at hobs
    have hdom := dominates_of_observed hof hssa ht hφ hs hne.symm hedge hobs
    exact h p hp hreached t ht htarget hdom s hs hne.symm hedge φ hφ
      (hobs.live hof hssa ht hφ hs hne.symm)

end GoLift
