import GoLift.Proofs.Region.Effect
import GoLift.Proofs.Region.Reachable
import Mathlib.Data.List.Induction

/-!
# Histories of a registry

A registry keeps one thing in several places: which blocks are live is in the marks of the
arena and in the label map, and who took a block is in the block and in the table of consumers.
Here primitives are tried one after the other, whatever they are and whether they succeed or
not (`Registry.attemptAll`), and all parts are shown to agree after every such history
(`Registry.Agreeing`).

**Seeding a block and applying a primitive are the same step** (`Registry.Replaced`), so
that one lemma carries the invariant through both. What needs more than one registry is said of
the histories themselves: entries of the arena stay (`Kept`), and what took a label is the
primitive of some earlier moment (`Consumes`).
-/

set_option autoImplicit false

namespace GoLift

open DraftM

namespace WorkBlock

/-- What never changes about an entry of the arena; of one that is not live, nothing does. -/
structure Kept (b b' : WorkBlock) : Prop where
  handle : b'.handle = b.handle
  label : b'.label = b.label
  entry : b'.entry = b.entry
  stmts : b'.stmts = b.stmts
  phiOut : b'.phiOut = b.phiOut
  terminator : b'.terminator = b.terminator
  synthesized : b'.synthesized = b.synthesized
  gone : b.active = false → b' = b

theorem Kept.refl (b : WorkBlock) : b.Kept b :=
  ⟨rfl, rfl, rfl, rfl, rfl, rfl, rfl, fun _ => rfl⟩

theorem Kept.trans {b b' b'' : WorkBlock} (h : b.Kept b') (h' : b'.Kept b'') : b.Kept b'' where
  handle := h'.handle.trans h.handle
  label := h'.label.trans h.label
  entry := h'.entry.trans h.entry
  stmts := h'.stmts.trans h.stmts
  phiOut := h'.phiOut.trans h.phiOut
  terminator := h'.terminator.trans h.terminator
  synthesized := h'.synthesized.trans h.synthesized
  gone hb := by
    obtain rfl := h.gone hb
    exact h'.gone hb

/-- To be taken changes only whether a block is live and what took it. -/
theorem kept_marked (c : String) (ls : List String) (b : WorkBlock) : b.Kept (b.marked c ls) := by
  refine ⟨?_, ?_, ?_, ?_, ?_, ?_, ?_, marked_of_inactive c ls⟩ <;>
  · unfold marked
    split <;> rfl

end WorkBlock

namespace Registry

variable {r r' : Registry} {p : Primitive} {scope : Scope} {c l : String}
  {ls names : List String} {b w : WorkBlock} {buffers : Table (List Go.Stmt)}

/-! ### Trying primitives -/

/-- Try a primitive. If it fails, the blocks stay as they are. -/
def attempt (scope : Scope) (s : Registry × Draft) (p : Primitive) : Registry × Draft :=
  match s.1.apply scope p s.2 with
  | (.ok (_, r), d) => (r, d)
  | (.error _, d) => (s.1, d)

/-- Try primitives one after the other. -/
def attemptAll (scope : Scope) (s : Registry × Draft) (ps : List Primitive) :
    Registry × Draft :=
  ps.foldl (attempt scope) s

/-- A primitive can be applied, with its new block and what it leaves behind. -/
def Applies (scope : Scope) (s : Registry × Draft) (p : Primitive) (b : WorkBlock)
    (s' : Registry × Draft) : Prop :=
  s.1.apply scope p s.2 = (.ok (b, s'.1), s'.2)

@[simp] theorem attemptAll_nil (s : Registry × Draft) : attemptAll scope s [] = s := rfl

@[simp] theorem attemptAll_cons (s : Registry × Draft) (p : Primitive) (ps : List Primitive) :
    attemptAll scope s (p :: ps) = attemptAll scope (attempt scope s p) ps := rfl

theorem attemptAll_append (s : Registry × Draft) (ps qs : List Primitive) :
    attemptAll scope s (ps ++ qs) = attemptAll scope (attemptAll scope s ps) qs :=
  List.foldl_append

theorem attemptAll_concat (s : Registry × Draft) (ps : List Primitive) (p : Primitive) :
    attemptAll scope s (ps ++ [p]) = attempt scope (attemptAll scope s ps) p :=
  attemptAll_append s ps [p]

theorem Applies.attempt_eq {s s' : Registry × Draft} (h : Applies scope s p b s') :
    attempt scope s p = s' := by
  unfold Applies at h
  simp only [attempt, h]

/-- A primitive is applied or leaves the registry as it is. -/
theorem attempt_cases (scope : Scope) (s : Registry × Draft) (p : Primitive) :
    (∃ b, Applies scope s p b (attempt scope s p)) ∨ (attempt scope s p).1 = s.1 := by
  rcases h : s.1.apply scope p s.2 with ⟨f | ⟨b, r'⟩, d'⟩
  · refine .inr ?_
    simp only [attempt, h]
  · have happ : Applies scope s p b (r', d') := h
    exact .inl ⟨b, happ.attempt_eq.symm ▸ happ⟩

/-- What holds at first and is preserved by every application, holds after any history. -/
theorem attemptAll_induction {P : Registry → Prop} {s : Registry × Draft} (h₀ : P s.1)
    (hstep : ∀ {s s' : Registry × Draft} {p : Primitive} {b : WorkBlock},
      P s.1 → Applies scope s p b s' → P s'.1)
    (ps : List Primitive) : P (attemptAll scope s ps).1 := by
  induction ps generalizing s with
  | nil => exact h₀
  | cons p ps ih =>
    refine ih ?_
    -- A primitive that fails leaves the same registry.
    rcases attempt_cases scope s p with ⟨b, h⟩ | h
    · exact hstep h₀ h
    · rwa [h]

theorem sound_of_applies {s s' : Registry × Draft} (hs : s.1.Sound) (h : Applies scope s p b s') :
    s'.1.Sound :=
  let ⟨_, heffect⟩ := effect_of_apply hs h
  heffect.replaced.sound

theorem sound_attemptAll {s : Registry × Draft} (hs : s.1.Sound) (ps : List Primitive) :
    (attemptAll scope s ps).1.Sound :=
  attemptAll_induction hs sound_of_applies ps

/-- The same, where a step may use that the registry is sound. -/
theorem Sound.induction {P : Registry → Prop} {s : Registry × Draft} (hs : s.1.Sound) (h₀ : P s.1)
    (hstep : ∀ {s s' : Registry × Draft} {p : Primitive} {b : WorkBlock},
      s.1.Sound → P s.1 → Applies scope s p b s' → P s'.1)
    (ps : List Primitive) : P (attemptAll scope s ps).1 := by
  refine (attemptAll_induction (P := fun r => r.Sound ∧ P r) ⟨hs, h₀⟩ ?_ ps).2
  rintro s s' p b ⟨hr, hP⟩ h
  exact ⟨sound_of_applies hr h, hstep hr hP h⟩

/-! ### The blocks that had a label -/

/-- The last block in the arena with a label. -/
def latest (r : Registry) (l : String) : Option WorkBlock :=
  r.arena.reverse.find? (·.label == l)

theorem latest_eq_none : r.latest l = none ↔ l ∉ r.arena.map WorkBlock.label := by
  simp [latest, List.find?_eq_none]

theorem label_of_latest (h : r.latest l = some w) : w.label = l := by
  simpa using List.find?_some h

theorem mem_of_latest (h : r.latest l = some w) : w ∈ r.arena :=
  List.mem_reverse.1 (List.mem_of_find?_eq_some h)

/-! ### The parts agree -/

/-- The parts of a registry say the same. -/
structure Agreeing (r : Registry) : Prop where
  sound : r.Sound
  /-- The label map is that of the live blocks, in their order. -/
  index : r.byLabel.entries = r.live.map (fun b => (b.label, b.handle))
  /-- When a block comes, the earlier ones of its label are gone. -/
  freed : r.arena.Pairwise (fun b b' => b.label = b'.label → b.active = false)
  /-- A block is live as long as nothing has taken it. -/
  untaken : ∀ b ∈ r.arena, b.active = true ↔ b.consumer = none
  /-- The table of consumers tells what took the last block of a label. -/
  consumed : ∀ l, r.consumedBy l = (r.latest l).bind WorkBlock.consumer

theorem agreeing_empty : ({} : Registry).Agreeing where
  sound := sound_empty
  index := rfl
  freed := .nil
  untaken := by simp
  consumed _ := rfl

/-- A live block is the last of its label. -/
theorem Agreeing.latest_of_live (hr : r.Agreeing) (hw : w ∈ r.live) :
    r.latest w.label = some w := by
  obtain ⟨hmem, hact⟩ := List.mem_filter.1 hw
  obtain ⟨before, after, harena⟩ := List.append_of_mem hmem
  have hafter : after.reverse.find? (·.label == w.label) = none := by
    rw [List.find?_eq_none]
    intro b hb hlabel
    have hpair := hr.freed
    rw [harena, List.pairwise_append] at hpair
    have hgone := (List.pairwise_cons.1 hpair.2.1).1 b (List.mem_reverse.1 hb)
      (eq_of_beq hlabel).symm
    rw [hact] at hgone
    cases hgone
  rw [latest, harena, List.reverse_append, List.reverse_cons, List.append_assoc,
    List.find?_append, hafter]
  simp

/-- What an application leaves of the blocks that had a label. -/
theorem Replaced.latest (h : Replaced c ls r b r') (l : String) :
    r'.latest l = if l = b.label then some b else (r.latest l).map (WorkBlock.marked c ls) := by
  have hlabel : ((fun w : WorkBlock => w.label == l) ∘ WorkBlock.marked c ls) =
      fun w => w.label == l := by
    funext w
    simp
  rw [Registry.latest, h.arena, List.reverse_append, List.reverse_singleton, List.singleton_append,
    List.find?_cons, ← List.map_reverse, List.find?_map, hlabel]
  by_cases hl : l = b.label
  · simp [hl]
  · rw [if_neg hl, beq_eq_false_iff_ne.2 (Ne.symm hl)]
    rfl

/-- No earlier entry with the label of the block that was entered is live after it. -/
theorem Replaced.freed (hr : r.Sound) (h : Replaced c ls r b r') (hw : w ∈ r.arena)
    (hlabel : w.label = b.label) : (w.marked c ls).active = false := by
  by_contra hact
  have hlive : w.marked c ls ∈ r'.live := by
    refine List.mem_filter.2 ⟨?_, by simpa using hact⟩
    rw [h.arena]
    exact List.mem_append_left _ (List.mem_map_of_mem hw)
  have hb : b ∈ r'.live := by
    rw [h.live]
    exact List.mem_append_right _ (List.mem_singleton_self b)
  have heq : w.marked c ls = b :=
    h.sound.eq_of_label hlive hb ((WorkBlock.label_marked c ls w).trans hlabel)
  -- But the handle of the new block is behind all others.
  have hhandle : w.handle = r.arena.length := by
    rw [← h.handle, ← heq, WorkBlock.handle_marked]
  obtain ⟨i, hi⟩ := List.mem_iff_getElem?.1 hw
  have hlt : i < r.arena.length := (List.getElem?_eq_some_iff.1 hi).1
  have hplace : w.handle = i := hr.handle hi
  omega

/-- **Blocks in place of others leave a registry whose parts agree.** -/
theorem Agreeing.replaced (hr : r.Agreeing) (hls : ∀ l ∈ ls, l ∈ r.liveLabels)
    (h : Replaced c ls r b r') : r'.Agreeing where
  sound := h.sound
  index := by
    rw [h.byLabel, hr.index, h.live, List.map_append, List.filter_map]
    rfl
  freed := by
    rw [h.arena, List.pairwise_append]
    refine ⟨?_, List.pairwise_singleton .., ?_⟩
    · refine List.pairwise_map.2 (hr.freed.imp fun {w w'} hgone hlabel => ?_)
      simp only [WorkBlock.label_marked] at hlabel
      simp [hgone hlabel]
    · intro w' hw' b' hb' hlabel
      obtain ⟨w, hw, rfl⟩ := List.mem_map.1 hw'
      obtain rfl := List.mem_singleton.1 hb'
      exact h.freed hr.sound hw ((WorkBlock.label_marked c ls w).symm.trans hlabel)
  untaken w' hw' := by
    rw [h.arena, List.mem_append, List.mem_singleton] at hw'
    rcases hw' with hw' | rfl
    · obtain ⟨w, hw, rfl⟩ := List.mem_map.1 hw'
      unfold WorkBlock.marked
      split
      · simp [WorkBlock.taken]
      · exact hr.untaken w hw
    · simp [h.active, h.consumer]
  consumed l := by
    rw [h.consumedBy l, h.latest l]
    by_cases hb : l = b.label
    · simp [hb, h.consumer]
    rw [if_neg hb, if_neg hb]
    by_cases hl : l ∈ ls
    · -- The last block of the label is the one that was live.
      obtain ⟨w, hw, rfl⟩ := List.mem_map.1 (hls l hl)
      have hact : w.active = true := (List.mem_filter.1 hw).2
      rw [if_pos hl, hr.latest_of_live hw, Option.map_some, WorkBlock.marked_of_mem c ls hact hl]
      rfl
    · rw [if_neg hl, hr.consumed l]
      cases hlast : r.latest l with
      | none => rfl
      | some w =>
        have hw : w.label ∉ ls := label_of_latest hlast ▸ hl
        rw [Option.map_some, WorkBlock.marked_of_not_mem c ls hw]

/-! ### Seeding -/

/-- What holds of the empty registry and is preserved when a block of the function is entered,
holds of what is seeded. -/
theorem seedFrom_induction {P : Registry → Prop} {blocks : List Block} {d d' : Draft}
    (hstep : ∀ {r : Registry} {new : NewBlock}, r.contains new.label = false → P r →
      P (r.enter new).2)
    (h₀ : P r) (h : seedFrom scope buffers r blocks d = (.ok r', d')) : P r' := by
  induction blocks generalizing r d with
  | nil =>
    cases h
    exact h₀
  | cons b blocks ih =>
    obtain ⟨hlabel, stmts, d₁, -, h⟩ := seedFrom_cons h
    exact ih (hstep hlabel h₀) h

/-- Entering a block is to enter it in place of none. -/
theorem Sound.replaced_nil (hr : r.Sound) {new : NewBlock} (hlabel : r.contains new.label = false) :
    Replaced c [] r (r.enter new).1 (r.enter new).2 :=
  replaced_enter hr (by simp) (takes_nil c r) hr hlabel

/-- **The parts of a seeded registry agree**, and no label was taken. -/
theorem agreeing_of_seed {blocks : List Block} {d d' : Draft}
    (h : seed scope buffers blocks d = (.ok r, d')) :
    r.Agreeing ∧ ∀ l, r.consumedBy l = none := by
  refine seedFrom_induction (P := fun r => r.Agreeing ∧ ∀ l, r.consumedBy l = none) ?_
    ⟨agreeing_empty, fun _ => rfl⟩ h
  rintro r new hlabel ⟨hr, hnone⟩
  have hnew : Replaced "" [] r (r.enter new).1 (r.enter new).2 := hr.sound.replaced_nil hlabel
  refine ⟨hr.replaced (by simp) hnew, fun l => ?_⟩
  rw [hnew.consumedBy l]
  simp [hnone l]

/-! ### Applying -/

/-- The labels that an applied primitive names are those of live blocks. -/
theorem labels_mem_of_apply {d d' : Draft} (hr : r.Sound)
    (h : r.apply scope p d = (.ok (b, r'), d')) : ∀ l ∈ p.labels, l ∈ r.liveLabels := by
  obtain ⟨ms, region, d₁, hacc, -, -⟩ := accepted_of_apply h
  have hres := resolve_ok hr hacc.found
  intro l hl
  rw [← hres.labels_eq] at hl
  obtain ⟨w, hw, rfl⟩ := List.mem_map.1 hl
  exact List.mem_map_of_mem (hres.mem_live w hw)

/-- **The parts agree after any history** from a registry in which they do. -/
theorem agreeing_attemptAll {s : Registry × Draft} (hs : s.1.Agreeing) (ps : List Primitive) :
    (attemptAll scope s ps).1.Agreeing := by
  refine attemptAll_induction hs ?_ ps
  intro s s' p b hr h
  obtain ⟨region, heffect⟩ := effect_of_apply hr.sound h
  exact hr.replaced (labels_mem_of_apply hr.sound h) heffect.replaced

/-- The live blocks are entered by different labels, all of them names. -/
structure Entered (names : List String) (r : Registry) : Prop where
  sound : r.Sound
  nodup : (r.live.map WorkBlock.entry).Nodup
  names : ∀ b ∈ r.live, b.entry ∈ names

theorem entered_of_seed {blocks : List Block} {d d' : Draft}
    (h : seed scope buffers blocks d = (.ok r, d')) :
    r.Entered (blocks.map Block.name) := by
  obtain ⟨hr, hseeded, -⟩ := seed_ok h
  refine ⟨hr, nodup_entries_of_seeded hr hseeded, fun w hw => ?_⟩
  obtain ⟨b, hb, hof⟩ := mem_of_forall₂ hseeded.flip hw
  rw [hof.entry]
  exact List.mem_map_of_mem hb

theorem entered_attemptAll {s : Registry × Draft} (hnames : "" ∉ names)
    (hs : s.1.Entered names) (ps : List Primitive) :
    (attemptAll scope s ps).1.Entered names := by
  refine attemptAll_induction hs ?_ ps
  intro s s' p b hr h
  have hnamed : ∀ w ∈ s.1.live, w.entry ≠ "" := fun w hw heq => hnames (heq ▸ hr.names w hw)
  obtain ⟨ms, region, happlied⟩ := apply_ok hr.sound h
  refine ⟨happlied.collapsed.sound, happlied.nodup_entries hnamed hr.nodup, fun w hw => ?_⟩
  rcases (happlied.mem_live hr.sound).1 hw with ⟨hw, -⟩ | rfl
  · exact hr.names w hw
  · obtain ⟨m, hm, hentry⟩ := happlied.entry_mem hnamed
    rw [hentry]
    exact hr.names _ (happlied.resolved.live m hm)

/-- **The blocks that are left are entered by labels of the function**, no two by the same. -/
theorem entered_attempts {blocks : List Block} {d d' : Draft} (hnames : ∀ b ∈ blocks, b.name ≠ "")
    (h : seed scope buffers blocks d = (.ok r, d')) (ps : List Primitive) :
    (attemptAll scope (r, d') ps).1.Entered (blocks.map Block.name) := by
  refine entered_attemptAll (s := (r, d')) (fun hempty => ?_) (entered_of_seed h) ps
  obtain ⟨b, hb, hname⟩ := List.mem_map.1 hempty
  exact hnames b hb hname

/-! ### What stays -/

/-- **Entries of the arena stay** where they are, through any history. -/
theorem kept_attemptAll {s : Registry × Draft} (hs : s.1.Sound) (ps : List Primitive) {i : Nat}
    {b : WorkBlock} (hb : s.1.arena[i]? = some b) :
    ∃ b', (attemptAll scope s ps).1.arena[i]? = some b' ∧ b.Kept b' := by
  refine hs.induction (P := fun r => ∃ b', r.arena[i]? = some b' ∧ b.Kept b')
    ⟨b, hb, .refl b⟩ ?_ ps
  rintro s s' p new hr ⟨b', hb', hkept⟩ h
  obtain ⟨region, heffect⟩ := effect_of_apply hr h
  have hlt : i < s.1.arena.length := (List.getElem?_eq_some_iff.1 hb').1
  refine ⟨b'.marked p.describe p.labels, ?_, hkept.trans (WorkBlock.kept_marked _ _ b')⟩
  rw [heffect.replaced.arena, List.getElem?_append_left (by simpa using hlt), List.getElem?_map,
    hb']
  rfl

/-! ### What took a label -/

/-- A primitive can be applied and takes a block. -/
def Consumes (scope : Scope) (s : Registry × Draft) (p : Primitive) (w : WorkBlock) : Prop :=
  w ∈ s.1.live ∧ w.label ∈ p.labels ∧ ∃ b s', Applies scope s p b s'

/-- **What the registry says took a label, did take the last block that had it**, at some moment
of the history. -/
theorem consumes_of_consumedBy {s : Registry × Draft} (hs : s.1.Agreeing)
    (hnone : ∀ l, s.1.consumedBy l = none) (ps : List Primitive)
    (h : (attemptAll scope s ps).1.consumedBy l = some c) :
    ∃ before p after w, ps = before ++ p :: after ∧
      Consumes scope (attemptAll scope s before) p w ∧ c = p.describe ∧
      (attemptAll scope s ps).1.latest l = some (w.taken p.describe) := by
  -- The last primitive took the label, or it was taken before and nothing has it since.
  induction ps using List.reverseRecOn with
  | nil =>
    rw [attemptAll_nil, hnone l] at h
    cases h
  | append_singleton ps p ih =>
    rw [attemptAll_concat] at h ⊢
    have hr : (attemptAll scope s ps).1.Agreeing := agreeing_attemptAll hs ps
    rcases attempt_cases scope (attemptAll scope s ps) p with ⟨b, happ⟩ | hsame
    · obtain ⟨region, heffect⟩ := effect_of_apply hr.sound happ
      have hnew := heffect.replaced
      rw [hnew.consumedBy l] at h
      have hb : l ≠ b.label := by
        rintro rfl
        simp at h
      rw [if_neg hb] at h
      rw [hnew.latest l, if_neg hb]
      by_cases hl : l ∈ p.labels
      · rw [if_pos hl] at h
        obtain ⟨w, hw, rfl⟩ := List.mem_map.1 (labels_mem_of_apply hr.sound happ l hl)
        have hact : w.active = true := (List.mem_filter.1 hw).2
        refine ⟨ps, p, [], w, rfl, ⟨hw, hl, b, _, happ⟩, (Option.some.inj h).symm, ?_⟩
        rw [hr.latest_of_live hw, Option.map_some, WorkBlock.marked_of_mem _ _ hact hl]
      · rw [if_neg hl] at h
        obtain ⟨before, q, after, w, rfl, hcons, hc, hlast⟩ := ih h
        refine ⟨before, q, after ++ [p], w, by simp, hcons, hc, ?_⟩
        rw [hlast, Option.map_some, WorkBlock.marked_of_inactive _ _ rfl]
    · rw [hsame] at h ⊢
      obtain ⟨before, q, after, w, rfl, hcons, hc, hlast⟩ := ih h
      exact ⟨before, q, after ++ [p], w, by simp, hcons, hc, hlast⟩

/-- Nothing is said to have taken a label that a live block has or none ever had. -/
theorem Agreeing.consumedBy_eq_none (hr : r.Agreeing) :
    r.consumedBy l = none ↔ l ∈ r.liveLabels ∨ l ∉ r.arena.map WorkBlock.label := by
  rw [hr.consumed l]
  constructor
  · intro h
    cases hlast : r.latest l with
    | none => exact .inr (latest_eq_none.1 hlast)
    | some w =>
      rw [hlast] at h
      have hw := mem_of_latest hlast
      refine .inl (List.mem_map.2 ⟨w, List.mem_filter.2 ⟨hw, ?_⟩, label_of_latest hlast⟩)
      exact (hr.untaken w hw).2 h
  · rintro (h | h)
    · obtain ⟨w, hw, rfl⟩ := List.mem_map.1 h
      obtain ⟨hmem, hact⟩ := List.mem_filter.1 hw
      rw [hr.latest_of_live hw]
      exact (hr.untaken w hmem).1 hact
    · rw [latest_eq_none.2 h]
      rfl

/-! ### The whole registry -/

/-- A registry whose label map, marks and handles are those of its live blocks. -/
structure Represents (names : List String) (r : Registry) : Prop where
  handle : ∀ (i : Nat) (b : WorkBlock), r.arena[i]? = some b → b.handle = i
  index : r.byLabel.entries = r.live.map (fun b => (b.label, b.handle))
  labels : r.liveLabels.Nodup
  lookup : ∀ l b, r.lookup l = some b ↔ b ∈ r.live ∧ b.label = l
  contains : ∀ l, r.contains l = true ↔ l ∈ r.liveLabels
  size : r.size = r.live.length
  ordered : r.live.Pairwise (fun b b' => b.handle < b'.handle)
  entries : (r.live.map WorkBlock.entry).Nodup
  original : ∀ b ∈ r.live, b.entry ∈ names

theorem Agreeing.represents (hr : r.Agreeing) (hentered : r.Entered names) :
    r.Represents names where
  handle _ _ h := hr.sound.handle h
  index := hr.index
  labels := hr.sound.nodup_labels
  lookup _ _ := hr.sound.lookup_eq_some
  contains _ := by rw [hr.sound.contains_iff, liveLabels, List.mem_map]
  size := by rw [size, Table.size, hr.index, List.length_map]
  ordered := hr.sound.sorted_live
  entries := hentered.nodup
  original := hentered.names

/-- **After every history the registry represents its live blocks**, knows what took every label
that is gone, and its arena will keep what it has. -/
theorem attempts_represented {blocks : List Block} {d d' : Draft}
    (hnames : ∀ b ∈ blocks, b.name ≠ "")
    (hseed : seed scope buffers blocks d = (.ok r, d')) (ps : List Primitive) :
    let s := attemptAll scope (r, d') ps
    s.1.Represents (blocks.map Block.name) ∧
      (∀ l, s.1.consumedBy l = none ↔
        l ∈ s.1.liveLabels ∨ l ∉ s.1.arena.map WorkBlock.label) ∧
      (∀ l c, s.1.consumedBy l = some c → ∃ before p after w, ps = before ++ p :: after ∧
        Consumes scope (attemptAll scope (r, d') before) p w ∧ c = p.describe ∧
        s.1.latest l = some (w.taken p.describe)) ∧
      ∀ (i : Nat) (b : WorkBlock), s.1.arena[i]? = some b → ∀ qs,
        ∃ b', (attemptAll scope s qs).1.arena[i]? = some b' ∧ b.Kept b' := by
  intro s
  obtain ⟨hr, hnone⟩ := agreeing_of_seed hseed
  have hs : s.1.Agreeing := agreeing_attemptAll (s := (r, d')) hr ps
  refine ⟨hs.represents (entered_attempts hnames hseed ps), fun l => hs.consumedBy_eq_none,
    fun l c h => ?_, fun i b hb qs => ?_⟩
  · exact consumes_of_consumedBy (s := (r, d')) hr hnone ps h
  · exact kept_attemptAll hs.sound qs hb

end Registry

namespace Reusing

/-- A block that goes to another, which returns. -/
def blocks : List Block :=
  [{ name := "first", terminator := some (.br "second") },
    { name := "second", terminator := some (.ret none) }]

/-- The primitive that puts the second behind the first and calls both like the first. -/
def row : Primitive :=
  { kind := .seq, sequence := ["first", "second"], node := some "first" }

/-- The label of the first is in use again, and trying twice fails. -/
theorem row_represented :
    ∃ r d, Registry.seed {} {} blocks {} = (.ok r, d) ∧
      let s := Registry.attemptAll {} (r, d) [row, row]
      s.1.liveLabels = ["first"] ∧ s.1.Represents ["first", "second"] ∧
        s.1.consumedBy "first" = none ∧
        ∃ w, s.1.latest "second" = some (WorkBlock.taken row.describe w) := by
  obtain ⟨r, d, hseed, hlive, hsecond⟩ : ∃ r d, Registry.seed {} {} blocks {} = (.ok r, d) ∧
      (Registry.attemptAll {} (r, d) [row, row]).1.liveLabels = ["first"] ∧
      (Registry.attemptAll {} (r, d) [row, row]).1.consumedBy "second" = some row.describe :=
    ⟨_, _, rfl, rfl, rfl⟩
  obtain ⟨hrep, hnone, htook, -⟩ :=
    Registry.attempts_represented (by decide) hseed [row, row]
  refine ⟨r, d, hseed, hlive, hrep, (hnone "first").2 (.inl ?_), ?_⟩
  · rw [hlive]
    exact List.mem_singleton_self "first"
  · obtain ⟨_, _, _, w, _, _, hc, hlast⟩ := htook "second" row.describe hsecond
    exact ⟨w, hc ▸ hlast⟩

end Reusing

end GoLift
