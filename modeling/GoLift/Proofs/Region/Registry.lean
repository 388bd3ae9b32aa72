import GoLift.Proofs.Go.Names
import GoLift.Region.Reduce

/-!
# The registry's parts agree

The arena, the active marks and the label map of a registry say the same in three
ways: the block at a place of the arena has that place as its handle, and a label
leads to a place exactly if the active block of that label is there
(`Registry.Sound`). Everything about lookups is read off `Registry.live`, the list
of active blocks, and each operation is described by what it does to that list:

* `live_retire`: the block goes;
* `live_enter`: the new block comes last;
* `live_collapse`: the members go, and the block made of them comes last.
-/

set_option autoImplicit false

namespace GoLift

namespace Registry

/-- The handles are places, and the label map finds exactly the active blocks. -/
structure Sound (r : Registry) : Prop where
  handle : ∀ {i : Nat} {b : WorkBlock}, r.arena[i]? = some b → b.handle = i
  byLabel : ∀ {l : String} {i : Nat}, r.byLabel.get? l = some i ↔
    ∃ b, r.arena[i]? = some b ∧ b.active = true ∧ b.label = l

theorem sound_empty : ({} : Registry).Sound where
  handle h := by cases h
  byLabel {l i} := by
    constructor
    · intro h
      cases h
    · rintro ⟨b, h, -⟩
      cases h

namespace Sound

variable {r : Registry} (hr : r.Sound)

include hr

theorem mem_live {b : WorkBlock} :
    b ∈ r.live ↔ r.arena[b.handle]? = some b ∧ b.active = true := by
  unfold live
  rw [List.mem_filter]
  refine and_congr_left fun _ => ⟨fun h => ?_, List.mem_of_getElem?⟩
  obtain ⟨i, hi⟩ := List.mem_iff_getElem?.1 h
  rwa [hr.handle hi]

/-- A lookup finds the active block of a label. -/
theorem lookup_eq_some {l : String} {b : WorkBlock} :
    r.lookup l = some b ↔ b ∈ r.live ∧ b.label = l := by
  unfold lookup
  rw [Option.bind_eq_some_iff, hr.mem_live]
  constructor
  · rintro ⟨i, hi, hb⟩
    obtain ⟨b', hb', hact, hl⟩ := hr.byLabel.1 hi
    obtain rfl : b = b' := Option.some.inj (hb.symm.trans hb')
    exact ⟨⟨by rw [hr.handle hb, hb], hact⟩, hl⟩
  · rintro ⟨⟨hb, hact⟩, hl⟩
    exact ⟨b.handle, hr.byLabel.2 ⟨b, hb, hact, hl⟩, hb⟩

theorem contains_iff {l : String} : r.contains l = true ↔ ∃ b ∈ r.live, b.label = l := by
  constructor
  · intro h
    obtain ⟨i, hi⟩ := Option.isSome_iff_exists.1 h
    obtain ⟨b, hb, hact, hl⟩ := hr.byLabel.1 hi
    exact ⟨b, hr.mem_live.2 ⟨by rw [hr.handle hb, hb], hact⟩, hl⟩
  · rintro ⟨b, hb, hl⟩
    obtain ⟨hb, hact⟩ := hr.mem_live.1 hb
    exact Option.isSome_iff_exists.2 ⟨b.handle, hr.byLabel.2 ⟨b, hb, hact, hl⟩⟩

theorem eq_of_label {b b' : WorkBlock} (hb : b ∈ r.live) (hb' : b' ∈ r.live)
    (h : b.label = b'.label) : b = b' := by
  have h₁ : r.lookup b.label = some b := hr.lookup_eq_some.2 ⟨hb, rfl⟩
  have h₂ : r.lookup b.label = some b' := hr.lookup_eq_some.2 ⟨hb', h.symm⟩
  exact Option.some.inj (h₁.symm.trans h₂)

theorem eq_of_handle {b b' : WorkBlock} (hb : b ∈ r.live) (hb' : b' ∈ r.live)
    (h : b.handle = b'.handle) : b = b' := by
  have h₁ := (hr.mem_live.1 hb).1
  have h₂ := (hr.mem_live.1 hb').1
  rw [← h] at h₂
  exact Option.some.inj (h₁.symm.trans h₂)

theorem handle_lt {b : WorkBlock} (hb : b ∈ r.live) : b.handle < r.arena.length :=
  (List.getElem?_eq_some_iff.1 (hr.mem_live.1 hb).1).1

end Sound

/-! ### Retiring a block -/

/-- Taking one block out of a list whose handles are places, from `k` on. -/
theorem filter_active_modify (c : String) :
    ∀ (bs : List WorkBlock) (k i : Nat), (∀ j b, bs[j]? = some b → b.handle = k + j) →
      (bs.modify i (fun b => { b with active := false, consumer := some c })).filter
          WorkBlock.active =
        (bs.filter WorkBlock.active).filter (fun b => b.handle != k + i)
  | [], _, i, _ => by simp
  | b :: bs, k, 0, h => by
      have hb : b.handle = k := by simpa using h 0 b rfl
      have hrest : ∀ b' ∈ bs.filter WorkBlock.active, (b'.handle != k) = true := by
        intro b' hb'
        obtain ⟨j, hj⟩ := List.mem_iff_getElem?.1 (List.mem_filter.1 hb').1
        have := h (j + 1) b' hj
        simp only [bne_iff_ne]
        omega
      rw [List.modify_zero_cons, List.filter_cons_of_neg (by simp), Nat.add_zero]
      by_cases hact : b.active = true
      · rw [List.filter_cons_of_pos hact, List.filter_cons_of_neg (by simp [hb]),
          List.filter_eq_self.2 hrest]
      · rw [List.filter_cons_of_neg hact, List.filter_eq_self.2 hrest]
  | b :: bs, k, i + 1, h => by
      have hb : b.handle = k := by simpa using h 0 b rfl
      have ih := filter_active_modify c bs (k + 1) i fun j b' hj => by
        rw [h (j + 1) b' hj]
        omega
      have hne : (b.handle != k + (i + 1)) = true := by
        simp only [bne_iff_ne]
        omega
      rw [List.modify_succ_cons, List.filter_cons, List.filter_cons, ih,
        show k + 1 + i = k + (i + 1) by omega]
      split
      · exact (List.filter_cons_of_pos
          (p := fun b' : WorkBlock => b'.handle != k + (i + 1)) hne).symm
      · rfl

variable {r : Registry}

theorem retire_eq {b : WorkBlock} (hr : r.Sound) (hb : b ∈ r.live) (c : String) :
    r.retire b.handle c =
      { r.mark b.handle c with
        byLabel := r.byLabel.erase b.label
        consumed := r.consumed.put b.label c } := by
  unfold retire
  rw [(hr.mem_live.1 hb).1]

/-- Retiring a block takes it out of the live ones, and nothing else. -/
theorem live_retire {b : WorkBlock} (hr : r.Sound) (hb : b ∈ r.live) (c : String) :
    (r.retire b.handle c).live = r.live.filter (fun b' => b'.handle != b.handle) := by
  rw [retire_eq hr hb]
  have h := filter_active_modify c r.arena 0 b.handle
    (fun j b' hj => by rw [hr.handle hj, Nat.zero_add])
  rw [Nat.zero_add] at h
  exact h

/-- Another block stays live. -/
theorem mem_live_retire {b w : WorkBlock} (hr : r.Sound) (hb : b ∈ r.live) (c : String)
    (hw : w ∈ r.live) (hne : w.handle ≠ b.handle) : w ∈ (r.retire b.handle c).live := by
  rw [live_retire hr hb, List.mem_filter]
  exact ⟨hw, by simpa using hne⟩

theorem Sound.retire {b : WorkBlock} (hr : r.Sound) (hb : b ∈ r.live) (c : String) :
    (r.retire b.handle c).Sound := by
  have hat := (hr.mem_live.1 hb).1
  rw [retire_eq hr hb]
  refine ⟨fun {i b'} h => ?_, fun {l i} => ?_⟩
  · simp only [mark, List.getElem?_modify, Option.map_eq_map, Option.map_eq_some_iff] at h
    obtain ⟨b₀, hb₀, rfl⟩ := h
    have hh := hr.handle hb₀
    split <;> exact hh
  · simp only [mark, Table.get?_erase]
    by_cases hl : l = b.label
    · -- The label is free now, and the only block that had it is marked.
      subst hl
      simp only [if_true, reduceCtorEq, false_iff]
      rintro ⟨b', hb', hact, hlab⟩
      simp only [List.getElem?_modify, Option.map_eq_map, Option.map_eq_some_iff] at hb'
      obtain ⟨b₀, hb₀, rfl⟩ := hb'
      by_cases hi : b.handle = i
      · simp [hi] at hact
      · simp only [hi, if_false] at hact hlab
        have hlive : b₀ ∈ r.live := hr.mem_live.2 ⟨by rw [hr.handle hb₀, hb₀], hact⟩
        have := hr.eq_of_label hlive hb hlab
        subst this
        exact hi (hr.handle hb₀)
    · rw [if_neg hl, hr.byLabel]
      constructor
      · rintro ⟨b', hb', hact, hlab⟩
        have hi : b.handle ≠ i := by
          rintro rfl
          rw [hat] at hb'
          exact hl (by rw [← hlab, Option.some.inj hb'])
        exact ⟨b', by rw [List.getElem?_modify_ne _ _ hi, hb'], hact, hlab⟩
      · rintro ⟨b', hb', hact, hlab⟩
        by_cases hi : b.handle = i
        · subst hi
          rw [List.getElem?_modify_eq, hat] at hb'
          cases hb'
          cases hact
        · rw [List.getElem?_modify_ne _ _ hi] at hb'
          exact ⟨b', hb', hact, hlab⟩

theorem arena_labels_retire (i : Nat) (c : String) :
    (r.retire i c).arena.map WorkBlock.label = r.arena.map WorkBlock.label := by
  unfold retire
  split
  · rfl
  · refine List.ext_getElem? fun j => ?_
    simp only [mark, List.getElem?_map, List.getElem?_modify, Option.map_eq_map, Option.map_map]
    congr 1
    funext b
    simp only [Function.comp_apply]
    split <;> rfl

/-! ### Retiring several blocks -/

/-- Retire blocks, one after the other. -/
def retireAll (c : String) (bs : List WorkBlock) (r : Registry) : Registry :=
  bs.foldl (fun r b => r.retire b.handle c) r

/-- To retire the members of a primitive is to retire their blocks. -/
theorem foldl_retire (c : String) (ms : Members) (r : Registry) :
    ms.foldl (fun r m => r.retire m.2.handle c) r = r.retireAll c (ms.map Prod.snd) := by
  rw [retireAll, List.foldl_map]

/-- What is left when blocks are retired. -/
structure Without (r r' : Registry) (bs : List WorkBlock) : Prop where
  sound : r'.Sound
  live : r'.live = r.live.filter (fun b => !(bs.map WorkBlock.handle).contains b.handle)
  labels : r'.arena.map WorkBlock.label = r.arena.map WorkBlock.label

theorem without_retireAll (c : String) {bs : List WorkBlock} (hr : r.Sound)
    (hbs : ∀ b ∈ bs, b ∈ r.live) (hnodup : (bs.map WorkBlock.handle).Nodup) :
    Without r (r.retireAll c bs) bs := by
  induction bs generalizing r with
  | nil => exact ⟨hr, by simp [retireAll], rfl⟩
  | cons b bs ih =>
    have hb : b ∈ r.live := hbs b List.mem_cons_self
    rw [List.map_cons, List.nodup_cons] at hnodup
    have hlive := live_retire hr hb c
    have hrest : ∀ b' ∈ bs, b' ∈ (r.retire b.handle c).live := by
      intro b' hb'
      refine mem_live_retire hr hb c (hbs b' (List.mem_cons_of_mem _ hb')) fun heq => ?_
      exact hnodup.1 (heq ▸ List.mem_map_of_mem hb')
    have h := ih (hr.retire hb c) hrest hnodup.2
    refine ⟨h.sound, ?_, h.labels.trans (arena_labels_retire _ _)⟩
    rw [show r.retireAll c (b :: bs) = (r.retire b.handle c).retireAll c bs from rfl, h.live,
      hlive, List.filter_filter]
    refine List.filter_congr fun b' _ => ?_
    by_cases hh : b'.handle = b.handle <;> simp [hh]

theorem index?_of_mem_live {b : WorkBlock} (hr : r.Sound) (hb : b ∈ r.live) :
    r.index? b.handle = some b.handle := by
  have hlt := hr.handle_lt hb
  have hneg : ¬ (b.handle : Int) < 0 := by omega
  have hin : (0 : Int) ≤ b.handle ∧ (b.handle : Int) < r.arena.length := by omega
  simp only [index?, if_neg hneg, if_pos hin, Int.toNat_natCast]

/-- **Different live blocks can all be taken.** -/
theorem consume_eq (c : String) {bs : List WorkBlock} (hr : r.Sound)
    (hbs : ∀ b ∈ bs, b ∈ r.live) (hnodup : (bs.map WorkBlock.handle).Nodup) :
    r.consume c (bs.map fun b => (b.handle : Int)) = (.ok (), r.retireAll c bs) := by
  induction bs generalizing r with
  | nil => rfl
  | cons b bs ih =>
    have hb : b ∈ r.live := hbs b List.mem_cons_self
    have hin : r.contains b.label = true := hr.contains_iff.2 ⟨b, hb, rfl⟩
    rw [List.map_cons, List.nodup_cons] at hnodup
    -- The blocks behind the first are still live without it.
    have hrest : ∀ w ∈ bs, w ∈ (r.retire b.handle c).live := by
      intro w hw
      refine mem_live_retire hr hb c (hbs w (List.mem_cons_of_mem _ hw)) fun heq => ?_
      exact hnodup.1 (heq ▸ List.mem_map_of_mem hw)
    rw [List.map_cons, consume, index?_of_mem_live hr hb]
    simp only [(hr.mem_live.1 hb).1, hin, if_true]
    exact ih (hr.retire hb c) hrest hnodup.2

/-! ### Entering a block -/

theorem insert_of_contains {b : NewBlock} (h : r.contains b.label = true) :
    r.insert b = .error (Cause.duplicateLabel b.label).fault :=
  if_pos h

theorem insert_of_not_contains {b : NewBlock} (h : r.contains b.label = false) :
    r.insert b = .ok (r.enter b) :=
  if_neg (by simp [h])

theorem live_enter (r : Registry) (b : NewBlock) :
    (r.enter b).2.live = r.live ++ [(r.enter b).1] := by
  simp [enter, live, ofNew]

theorem Sound.enter {b : NewBlock} (hr : r.Sound) (hl : r.contains b.label = false) :
    (r.enter b).2.Sound := by
  refine ⟨fun {i b'} h => ?_, fun {l i} => ?_⟩
  · simp only [Registry.enter] at h
    rcases Nat.lt_trichotomy i r.arena.length with hi | rfl | hi
    · rw [List.getElem?_append_left hi] at h
      exact hr.handle h
    · simp only [List.getElem?_concat_length, Option.some.injEq] at h
      rw [← h]
      rfl
    · rw [List.getElem?_eq_none (by simp; omega)] at h
      cases h
  · have hkeep : ∀ {b' : WorkBlock}, r.arena[i]? = some b' → i < r.arena.length :=
      fun h => (List.getElem?_eq_some_iff.1 h).1
    simp only [Registry.enter, Table.get?_put]
    split
    · next heq =>
      subst heq
      simp only [Option.some.injEq]
      constructor
      · rintro rfl
        exact ⟨_, List.getElem?_concat_length, rfl, rfl⟩
      · rintro ⟨b', hb', hact, hlab⟩
        rcases Nat.lt_or_ge i r.arena.length with hi | hi
        · rw [List.getElem?_append_left hi] at hb'
          have hin := hr.contains_iff.2
            ⟨b', hr.mem_live.2 ⟨by rw [hr.handle hb', hb'], hact⟩, hlab⟩
          rw [hl] at hin
          cases hin
        · have hlt := (List.getElem?_eq_some_iff.1 hb').1
          simp only [List.length_append, List.length_singleton] at hlt
          simp only [ofNew]
          omega
    · next hne =>
      rw [hr.byLabel]
      constructor
      · rintro ⟨b', hb', hact, hlab⟩
        exact ⟨b', by rw [List.getElem?_append_left (hkeep hb'), hb'], hact, hlab⟩
      · rintro ⟨b', hb', hact, hlab⟩
        rcases Nat.lt_or_ge i r.arena.length with hi | hi
        · rw [List.getElem?_append_left hi] at hb'
          exact ⟨b', hb', hact, hlab⟩
        · have hlt := (List.getElem?_eq_some_iff.1 hb').1
          simp only [List.length_append, List.length_singleton] at hlt
          obtain rfl : i = r.arena.length := by omega
          rw [List.getElem?_concat_length] at hb'
          exact absurd (by rw [← hlab, ← Option.some.inj hb']; rfl) hne

/-! ### Made-up labels -/

theorem candidate_injective (hint : String) : Function.Injective (candidate hint) := by
  intro m n h
  simp only [candidate, String.append_right_inj] at h
  exact toString_nat_injective h

/-- A made-up label is one that no block ever had. -/
theorem freshLabel_not_mem (r : Registry) (hint : String) :
    (r.freshLabel hint).1 ∉ r.arena.map WorkBlock.label := by
  have h := firstFree_not_mem (candidate_injective hint) (r.arena.map WorkBlock.label) r.counter
  exact h

/-- To make up a label changes the counter only. -/
theorem Sound.freshLabel (hr : r.Sound) (hint : String) : (r.freshLabel hint).2.Sound :=
  ⟨hr.handle, hr.byLabel⟩

/-- A made-up label is not in use. -/
theorem contains_freshLabel (hr : r.Sound) (hint : String) :
    (r.freshLabel hint).2.contains (r.freshLabel hint).1 = false := by
  rw [Bool.eq_false_iff]
  intro hin
  obtain ⟨b, hb, hlabel⟩ := (hr.freshLabel hint).contains_iff.1 hin
  exact freshLabel_not_mem r hint (List.mem_map.2 ⟨b, (List.mem_filter.1 hb).1, hlabel⟩)

end Registry

end GoLift
