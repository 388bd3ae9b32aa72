import GoLift.Proofs.Region.History
import Mathlib.Algebra.GroupWithZero.Nat

/-!
# How many blocks are left

An application takes the blocks that its primitive names and enters one
(`Registry.Accounted`). **All that a reduction comes to is counted from that**: a list of
primitives that can all be applied leaves one block exactly if it names as many members as
there are blocks to lose, each primitive giving one back.

What no primitive names stays: the live blocks that are left are the old ones, in their
order, with the new one behind them.
-/

set_option autoImplicit false

namespace GoLift

open DraftM

namespace Registry

variable {r r' : Registry} {p : Primitive} {ps : List Primitive} {ms : Members} {scope : Scope}
  {b w : WorkBlock} {d d' : Draft} {buffers : Table (List Go.Stmt)}

/-! ### One application -/

theorem Resolved.nodup_labels (h : Resolved r p ms) : p.labels.Nodup := by
  rw [← h.labels_eq, List.map_map]
  exact h.nodup

/-- Labels of live blocks are those of as many live blocks. -/
theorem Sound.length_filter (hr : r.Sound) {ls : List String} (hls : ls.Nodup)
    (hlive : ∀ l ∈ ls, l ∈ r.liveLabels) :
    (r.live.filter (fun w => ls.contains w.label)).length = ls.length := by
  -- Neither list repeats a label, and they have the same ones.
  have hperm : (r.liveLabels.filter ls.contains).Perm ls := by
    refine (List.perm_ext_iff_of_nodup (hr.nodup_labels.filter _) hls).2 fun l => ?_
    simp only [List.mem_filter, List.contains_iff_mem]
    exact ⟨And.right, fun hl => ⟨hlive l hl, hl⟩⟩
  rw [← hperm.length_eq, liveLabels, List.filter_map, List.length_map]
  rfl

/-- What an application does to the live blocks: it takes the members and puts one block last. -/
structure Accounted (p : Primitive) (r : Registry) (b : WorkBlock) (r' : Registry) : Prop where
  members : ∀ l ∈ p.labels, l ∈ r.liveLabels
  live : r'.live = r.live.filter (fun w => !p.labels.contains w.label) ++ [b]
  count : r'.live.length + p.members.length = r.live.length + 1
  some : 1 ≤ p.members.length

theorem accounted_of_apply (hr : r.Sound) (h : r.apply scope p d = (.ok (b, r'), d')) :
    Accounted p r b r' := by
  obtain ⟨ms, region, happlied⟩ := apply_ok hr h
  obtain ⟨_, heffect⟩ := effect_of_apply hr h
  have hmembers := labels_mem_of_apply hr h
  have hlive := heffect.replaced.live
  have hlength : p.members.length = p.labels.length := (List.length_map ..).symm
  refine ⟨hmembers, hlive, ?_, ?_⟩
  · -- The live blocks are those that stay and the members.
    have htaken := hr.length_filter happlied.resolved.nodup_labels hmembers
    have hall := List.length_eq_length_filter_add (l := r.live)
      (fun w => p.labels.contains w.label)
    rw [hlive, List.length_append, List.length_singleton]
    omega
  · -- Control enters the region by a member.
    obtain ⟨m, hm, -⟩ := happlied.built.entry_mem
    rw [← happlied.resolved.names, List.length_map]
    exact List.length_pos_of_mem hm

/-- There are not more blocks than before, and at least one. -/
theorem Accounted.length_le (h : Accounted p r b r') : r'.live.length ≤ r.live.length := by
  have hcount := h.count
  have hsome := h.some
  omega

theorem Accounted.live_ne_nil (h : Accounted p r b r') : r'.live ≠ [] := by
  rw [h.live]
  simp

/-- A block that is not named stays. -/
theorem Accounted.mem_live (h : Accounted p r b r') (hw : w ∈ r.live)
    (hlabel : w.label ∉ p.labels) : w ∈ r'.live := by
  rw [h.live]
  refine List.mem_append_left _ (List.mem_filter.2 ⟨hw, ?_⟩)
  simpa using hlabel

/-! ### Histories -/

/-- The number of live blocks never rises. -/
theorem length_live_attemptAll_le {s : Registry × Draft} (hs : s.1.Sound) (ps : List Primitive) :
    (attemptAll scope s ps).1.live.length ≤ s.1.live.length :=
  hs.induction (P := fun r => r.live.length ≤ s.1.live.length) (Nat.le_refl _)
    (fun hr hle h => Nat.le_trans (accounted_of_apply hr h).length_le hle) ps

/-- The number of live blocks never reaches zero. -/
theorem live_attemptAll_ne_nil {s : Registry × Draft} (hs : s.1.Sound) (hlive : s.1.live ≠ [])
    (ps : List Primitive) : (attemptAll scope s ps).1.live ≠ [] :=
  hs.induction (P := fun r => r.live ≠ []) hlive
    (fun hr _ h => (accounted_of_apply hr h).live_ne_nil) ps

/-- **A block that no primitive names is not touched.** -/
theorem mem_live_attemptAll {s : Registry × Draft} (hs : s.1.Sound) (hw : w ∈ s.1.live)
    (hnamed : ∀ p ∈ ps, w.label ∉ p.labels) : w ∈ (attemptAll scope s ps).1.live := by
  -- Not by `Sound.induction`, which does not tell which primitives were tried.
  induction ps generalizing s with
  | nil => exact hw
  | cons p ps ih =>
    obtain ⟨hp, hps⟩ := List.forall_mem_cons.1 hnamed
    have hsound : (attempt scope s p).1.Sound := sound_attemptAll hs [p]
    rcases attempt_cases scope s p with ⟨b, h⟩ | hsame
    · exact ih hsound ((accounted_of_apply hs h).mem_live hw hp) hps
    · exact ih hsound (hsame ▸ hw) hps

/-! ### Lists that can be applied -/

/-- Each primitive of a list can be applied where the ones before it lead. -/
def AllApply (scope : Scope) (s : Registry × Draft) (ps : List Primitive) : Prop :=
  ∀ before p after, ps = before ++ p :: after →
    ∃ b s', Applies scope (attemptAll scope s before) p b s'

theorem allApply_nil (s : Registry × Draft) : AllApply scope s [] := by
  intro before p after h
  simp at h

theorem allApply_cons {s : Registry × Draft} :
    AllApply scope s (p :: ps) ↔
      (∃ b s', Applies scope s p b s') ∧ AllApply scope (attempt scope s p) ps := by
  constructor
  · intro h
    refine ⟨h [] p ps rfl, fun before q after hps => ?_⟩
    exact h (p :: before) q after (congrArg (p :: ·) hps)
  · rintro ⟨hp, hps⟩ before q after h
    cases before with
    | nil =>
      cases h
      exact hp
    | cons _ before =>
      cases h
      exact hps before q after rfl

/-- **Applying a list is to try its primitives**, and comes to an end exactly if all of them can
be applied. -/
theorem applyAll_ok_iff :
    r.applyAll scope ps d = (.ok r', d') ↔
      AllApply scope (r, d) ps ∧ attemptAll scope (r, d) ps = (r', d') := by
  induction ps generalizing r d with
  | nil =>
    have hnil : r.applyAll scope [] d = (.ok r, d) := rfl
    rw [hnil]
    constructor
    · intro h
      cases h
      exact ⟨allApply_nil _, rfl⟩
    · rintro ⟨-, h⟩
      cases h
      rfl
  | cons p ps ih =>
    rw [allApply_cons, attemptAll_cons]
    constructor
    · intro h
      obtain ⟨⟨b, r₁⟩, d₁, hp, hps⟩ := bind_ok h
      have happ : Applies scope (r, d) p b (r₁, d₁) := hp
      rw [happ.attempt_eq]
      obtain ⟨hall, hlast⟩ := ih.1 hps
      exact ⟨⟨⟨b, _, happ⟩, hall⟩, hlast⟩
    · rintro ⟨⟨⟨b, ⟨r₁, d₁⟩, happ⟩, hps⟩, hlast⟩
      rw [happ.attempt_eq] at hps hlast
      exact (bind_of_ok happ).trans (ih.2 ⟨hps, hlast⟩)

/-- Every primitive of the list takes its members and gives one block back. -/
theorem AllApply.count {s : Registry × Draft} (hs : s.1.Sound) (h : AllApply scope s ps) :
    (attemptAll scope s ps).1.live.length + (ps.map (fun p => p.members.length)).sum =
      s.1.live.length + ps.length := by
  induction ps generalizing s with
  | nil => rfl
  | cons p ps ih =>
    obtain ⟨⟨b, s₁, hp⟩, hps⟩ := allApply_cons.1 h
    have hcount := (accounted_of_apply hs hp).count
    have hsound : (attempt scope s p).1.Sound := sound_attemptAll hs [p]
    have hrest := ih hsound hps
    rw [hp.attempt_eq] at hrest
    rw [attemptAll_cons, hp.attempt_eq, List.map_cons, List.sum_cons, List.length_cons]
    omega

/-! ### Reducing -/

theorem survivor_eq_ok : r.survivor = .ok b ↔ r.live = [b] := by
  unfold survivor
  split
  · next hlive => simp [hlive]
  · next hlive =>
    simp only [reduceCtorEq, false_iff]
    exact hlive b

theorem survivor_eq_error (h : r.live.length ≠ 1) :
    r.survivor = .error (Cause.incomplete r.liveLabels).fault := by
  unfold survivor
  split
  · next b hlive =>
    rw [hlive] at h
    exact absurd rfl h
  · rfl

/-- A reduction whose primitives can all be applied comes to what is left of it. -/
theorem reduce_of_allApply (h : AllApply scope (r, d) ps) :
    ∃ d', r.reduce scope ps d = ((attemptAll scope (r, d) ps).1.survivor, d') := by
  have hall : r.applyAll scope ps d =
      (.ok (attemptAll scope (r, d) ps).1, (attemptAll scope (r, d) ps).2) :=
    applyAll_ok_iff.2 ⟨h, rfl⟩
  rw [reduce, bind_of_ok hall, ofExcept_apply]
  exact ⟨_, rfl⟩

theorem allApply_of_reduce (h : r.reduce scope ps d = (.ok b, d')) :
    AllApply scope (r, d) ps ∧ (attemptAll scope (r, d) ps).1.live = [b] := by
  obtain ⟨r₁, d₁, happly, hlast⟩ := bind_ok h
  obtain ⟨hall, heq⟩ := applyAll_ok_iff.1 happly
  rw [heq]
  exact ⟨hall, survivor_eq_ok.1 (ofExcept_ok hlast).1⟩

/-- **A reduction ends in one block exactly if the members add up.** -/
theorem reduce_ok_iff (hr : r.Sound) (hlive : r.live ≠ []) :
    (∃ b d', r.reduce scope ps d = (.ok b, d')) ↔
      AllApply scope (r, d) ps ∧
        (ps.map (fun p => p.members.length)).sum = r.live.length - 1 + ps.length := by
  have hpos : 0 < r.live.length := List.length_pos_iff.2 hlive
  constructor
  · rintro ⟨b, d', h⟩
    obtain ⟨hall, hone⟩ := allApply_of_reduce h
    have hcount := hall.count (s := (r, d)) hr
    rw [hone, List.length_singleton] at hcount
    refine ⟨hall, ?_⟩
    simp only at hcount
    omega
  · rintro ⟨hall, hsum⟩
    have hcount := hall.count (s := (r, d)) hr
    simp only at hcount
    obtain ⟨b, hb⟩ := List.length_eq_one_iff.1
      (show (attemptAll scope (r, d) ps).1.live.length = 1 by omega)
    obtain ⟨d', hreduce⟩ := reduce_of_allApply hall
    rw [survivor_eq_ok.2 hb] at hreduce
    exact ⟨b, d', hreduce⟩

/-- If they do not add up, the fault counts the blocks that are left and lists their labels. -/
theorem reduce_incomplete (hr : r.Sound) (hlive : r.live ≠ []) (hall : AllApply scope (r, d) ps)
    (hsum : (ps.map (fun p => p.members.length)).sum ≠ r.live.length - 1 + ps.length) :
    ∃ d', r.reduce scope ps d =
      (.error (Cause.incomplete (attemptAll scope (r, d) ps).1.liveLabels).fault, d') := by
  have hpos : 0 < r.live.length := List.length_pos_iff.2 hlive
  have hcount := hall.count (s := (r, d)) hr
  simp only at hcount
  obtain ⟨d', hreduce⟩ := reduce_of_allApply hall
  rw [survivor_eq_error (by omega)] at hreduce
  exact ⟨d', hreduce⟩

/-- **The live blocks are accounted for** after every history, and a reduction comes to one block
exactly if its primitives can be applied and name the right number of members. -/
theorem reduction_accounted {blocks : List Block} {d₀ : Draft} (hblocks : blocks ≠ [])
    (hseed : seed scope buffers blocks d₀ = (.ok r, d)) (ps : List Primitive) :
    let s := attemptAll scope (r, d) ps
    let members := (ps.map (fun p => p.members.length)).sum
    let wanted := blocks.length - 1 + ps.length
    (∀ p b s', Applies scope s p b s' → Accounted p s.1 b s'.1) ∧
      (∀ qs, (attemptAll scope s qs).1.live.length ≤ s.1.live.length) ∧ s.1.live ≠ [] ∧
      (∀ w ∈ r.live, (∀ p ∈ ps, w.label ∉ p.labels) → w ∈ s.1.live) ∧
      ((∃ b d', r.reduce scope ps d = (.ok b, d')) ↔
        AllApply scope (r, d) ps ∧ members = wanted) ∧
      (AllApply scope (r, d) ps → members ≠ wanted →
        ∃ c site d', r.reduce scope ps d = (.error (.report c site), d') ∧
          (c.diagnostic site).reason = .incomplete ∧
          (c.diagnostic site).remaining = s.1.live.length ∧
          (c.diagnostic site).labels = s.1.liveLabels) := by
  intro s members wanted
  obtain ⟨hr, -, hhandles⟩ := seed_ok hseed
  have hlength : r.live.length = blocks.length := by
    have h := congrArg List.length hhandles
    rwa [List.length_map, List.length_range] at h
  have hlive : r.live ≠ [] := by
    intro hnil
    rw [hnil, List.length_nil] at hlength
    exact hblocks (List.length_eq_zero_iff.1 hlength.symm)
  have hs : s.1.Sound := sound_attemptAll (s := (r, d)) hr ps
  have hwanted : wanted = r.live.length - 1 + ps.length := by rw [hlength]
  refine ⟨fun p b s' h => accounted_of_apply hs h, length_live_attemptAll_le hs,
    live_attemptAll_ne_nil (s := (r, d)) hr hlive ps,
    fun w hw => mem_live_attemptAll (s := (r, d)) hr hw, ?_, fun hall hsum => ?_⟩
  · rw [hwanted]
    exact reduce_ok_iff hr hlive
  · rw [hwanted] at hsum
    obtain ⟨d', hreduce⟩ := reduce_incomplete hr hlive hall hsum
    refine ⟨_, _, d', hreduce, rfl, ?_, rfl⟩
    show s.1.liveLabels.length = s.1.live.length
    rw [liveLabels, List.length_map]

end Registry

namespace Reusing

/-- The row adds up; without it two blocks are left. -/
theorem row_accounted :
    ∃ r d, Registry.seed {} {} blocks {} = (.ok r, d) ∧ blocks ≠ [] ∧
      Registry.AllApply {} (r, d) [row] ∧ (∃ b d', r.reduce {} [row] d = (.ok b, d')) ∧
      ∃ c site d', r.reduce {} [] d = (.error (.report c site), d') ∧
        (c.diagnostic site).remaining = 2 := by
  obtain ⟨r, d, hseed, htwo, b, s', happly⟩ : ∃ r d, Registry.seed {} {} blocks {} = (.ok r, d) ∧
      r.live.length = 2 ∧ ∃ b s', Registry.Applies {} (r, d) row b s' :=
    ⟨_, _, rfl, rfl, _, (_, _), rfl⟩
  have hblocks : blocks ≠ [] := List.cons_ne_nil _ _
  have hall : Registry.AllApply {} (r, d) [row] :=
    Registry.allApply_cons.2 ⟨⟨b, s', happly⟩, Registry.allApply_nil _⟩
  obtain ⟨-, -, -, -, hone, -⟩ := Registry.reduction_accounted hblocks hseed [row]
  obtain ⟨-, -, -, -, -, hleft⟩ := Registry.reduction_accounted hblocks hseed []
  obtain ⟨c, site, d', hreduce, -, hremaining, -⟩ :=
    hleft (Registry.allApply_nil _) (by decide)
  exact ⟨r, d, hseed, hblocks, hall, hone.2 ⟨hall, rfl⟩, c, site, d', hreduce,
    hremaining.trans htwo⟩

end Reusing

end GoLift
