import GoLift.Proofs.Region.Apply

/-!
# The effect of an application on the whole registry

`Collapsed` describes what an application does to the live blocks. Here are the other parts of
the registry too, because histories and other orders of primitives depend on them: which
entries of the arena are marked, where labels lead, and what the registry answers when it is
asked who took a label.

**An application is determined by the primitive and the region** (`Effect`): the active blocks
under the labels that the primitive names are marked with its description, and one block comes
last. Seeding a block is the same with no label to be taken, so that `Replaced` describes both
and what histories keep is proved of it alone.

`Accepted` is the inversion of an application into the four questions that it asks
before it changes anything; the application succeeds exactly if all four are answered.
-/

set_option autoImplicit false

namespace GoLift

open DraftM

namespace WorkBlock

/-- A block after a consumer has taken it. -/
def taken (consumer : String) (b : WorkBlock) : WorkBlock :=
  { b with active := false, consumer := some consumer }

/-- A block after the active blocks of some labels were taken. -/
def marked (consumer : String) (labels : List String) (b : WorkBlock) : WorkBlock :=
  if b.active && labels.contains b.label then b.taken consumer else b

variable (c : String) (ls : List String)

@[simp] theorem label_marked (b : WorkBlock) : (b.marked c ls).label = b.label := by
  unfold marked
  split <;> rfl

@[simp] theorem handle_marked (b : WorkBlock) : (b.marked c ls).handle = b.handle := by
  unfold marked
  split <;> rfl

@[simp] theorem active_marked (b : WorkBlock) :
    (b.marked c ls).active = (b.active && !ls.contains b.label) := by
  unfold marked
  cases hb : b.active <;> cases hl : ls.contains b.label <;> simp [taken, hb]

theorem marked_of_inactive {b : WorkBlock} (h : b.active = false) : b.marked c ls = b := by
  simp [marked, h]

theorem marked_of_not_mem {b : WorkBlock} (h : b.label ∉ ls) : b.marked c ls = b := by
  simp [marked, h]

theorem marked_of_mem {b : WorkBlock} (h : b.active = true) (hl : b.label ∈ ls) :
    b.marked c ls = b.taken c := by
  simp [marked, h, hl]

end WorkBlock

/-- A key that is new is written last. -/
theorem Table.entries_put_of_not_mem {α : Type} {t : Table α} {k : String} (a : α)
    (h : k ∉ t.keys) : (t.put k a).entries = t.entries ++ [(k, a)] := by
  obtain ⟨es⟩ := t
  simp only [keys, put] at h ⊢
  induction es with
  | nil => rfl
  | cons e es ih =>
    rw [List.map_cons, List.mem_cons, not_or] at h
    rw [putIn, if_neg (by simpa using h.1), ih h.2, List.cons_append]

namespace Registry

variable {r r' : Registry} {p : Primitive} {ms : Members} {scope : Scope} {c : String}
  {ls : List String} {bs : List WorkBlock}

/-! ### Taking blocks -/

theorem arena_retire {b : WorkBlock} (hr : r.Sound) (hb : b ∈ r.live) (c : String) :
    (r.retire b.handle c).arena =
      r.arena.map (fun w => if w.handle = b.handle then w.taken c else w) := by
  rw [retire_eq hr hb]
  refine List.ext_getElem? fun i => ?_
  simp only [mark, List.getElem?_modify, List.getElem?_map, Option.map_eq_map]
  cases hi : r.arena[i]? with
  | none => rfl
  | some w =>
    obtain rfl : w.handle = i := hr.handle hi
    by_cases h : w.handle = b.handle
    · simp [h, WorkBlock.taken]
    · simp [h, Ne.symm h]

/-- Blocks were taken: they are marked, their labels lead nowhere and point to the
consumer. -/
structure Takes (c : String) (bs : List WorkBlock) (r r' : Registry) : Prop where
  arena : r'.arena =
    r.arena.map (fun w => if w.handle ∈ bs.map WorkBlock.handle then w.taken c else w)
  byLabel : r'.byLabel.entries =
    r.byLabel.entries.filter (fun e => !(bs.map WorkBlock.label).contains e.1)
  consumedBy : ∀ l, r'.consumedBy l =
    if l ∈ bs.map WorkBlock.label then some c else r.consumedBy l

theorem takes_nil (c : String) (r : Registry) : Takes c [] r r :=
  ⟨by simp, by simp, by simp⟩

theorem takes_retireAll (c : String) {bs : List WorkBlock} (hr : r.Sound)
    (hbs : ∀ b ∈ bs, b ∈ r.live) (hnodup : (bs.map WorkBlock.handle).Nodup) :
    Takes c bs r (r.retireAll c bs) := by
  induction bs generalizing r with
  | nil => exact takes_nil c r
  | cons b bs ih =>
    have hb : b ∈ r.live := hbs b List.mem_cons_self
    rw [List.map_cons, List.nodup_cons] at hnodup
    -- No handle comes twice, so the blocks behind the first are still live without it.
    have hrest : ∀ w ∈ bs, w ∈ (r.retire b.handle c).live := by
      intro w hw
      refine mem_live_retire hr hb c (hbs w (List.mem_cons_of_mem _ hw)) fun heq => ?_
      exact hnodup.1 (heq ▸ List.mem_map_of_mem hw)
    have h := ih (hr.retire hb c) hrest hnodup.2
    refine ⟨h.arena.trans ?_, h.byLabel.trans ?_, fun l => (h.consumedBy l).trans ?_⟩
    · rw [arena_retire hr hb, List.map_map]
      refine List.map_congr_left fun w _ => ?_
      by_cases hw : w.handle = b.handle <;> simp [hw, WorkBlock.taken]
    · rw [retire_eq hr hb, Table.erase, List.filter_filter]
      refine List.filter_congr fun e _ => ?_
      by_cases he : e.1 = b.label <;> simp [he]
    · rw [retire_eq hr hb, consumedBy, Table.get?_put]
      by_cases hl : l = b.label <;> simp [hl, consumedBy]

/-- An entry of the arena has the handle of a live block of a list exactly if it is active
under the label of one. -/
theorem Sound.mem_handles (hr : r.Sound) (hbs : ∀ b ∈ bs, b ∈ r.live) {w : WorkBlock}
    (hw : w ∈ r.arena) :
    w.handle ∈ bs.map WorkBlock.handle ↔
      w.active = true ∧ w.label ∈ bs.map WorkBlock.label := by
  obtain ⟨i, hi⟩ := List.mem_iff_getElem?.1 hw
  constructor
  · intro h
    obtain ⟨b, hb, heq⟩ := List.mem_map.1 h
    -- Both stand at the place of their handle.
    obtain ⟨hat, hact⟩ := hr.mem_live.1 (hbs b hb)
    have hplace : b.handle = i := heq.trans (hr.handle hi)
    obtain rfl : b = w := Option.some.inj ((hplace ▸ hat).symm.trans hi)
    exact ⟨hact, List.mem_map_of_mem hb⟩
  · rintro ⟨hact, hlabel⟩
    obtain ⟨b, hb, heq⟩ := List.mem_map.1 hlabel
    obtain rfl := hr.eq_of_label (hbs b hb) (List.mem_filter.2 ⟨hw, hact⟩) heq
    exact List.mem_map_of_mem hb

/-! ### Blocks in place of others -/

/-- A block was entered in place of the active blocks of some labels. -/
structure Replaced (c : String) (ls : List String) (r : Registry) (b : WorkBlock)
    (r' : Registry) : Prop where
  sound : r'.Sound
  handle : b.handle = r.arena.length
  active : b.active = true
  consumer : b.consumer = none
  arena : r'.arena = r.arena.map (WorkBlock.marked c ls) ++ [b]
  byLabel : r'.byLabel.entries =
    r.byLabel.entries.filter (fun e => !ls.contains e.1) ++ [(b.label, b.handle)]
  consumedBy : ∀ l, r'.consumedBy l =
    if l = b.label then none else if l ∈ ls then some c else r.consumedBy l

theorem replaced_enter (hr : r.Sound) (hbs : ∀ b ∈ bs, b ∈ r.live) {taken : Registry}
    (htaken : Takes c bs r taken) (hsound : taken.Sound) {new : NewBlock}
    (hlabel : taken.contains new.label = false) :
    Replaced c (bs.map WorkBlock.label) r (taken.enter new).1 (taken.enter new).2 where
  sound := hsound.enter hlabel
  handle := by
    have hlength : taken.arena.length = r.arena.length := by rw [htaken.arena, List.length_map]
    exact hlength
  active := rfl
  consumer := rfl
  arena := by
    simp only [enter, htaken.arena]
    congr 1
    refine List.map_congr_left fun w hw => ?_
    simp only [hr.mem_handles hbs hw, WorkBlock.marked, Bool.and_eq_true, List.contains_iff_mem]
  byLabel := by
    have hnew : new.label ∉ taken.byLabel.keys := by
      rw [← Table.contains_iff]
      exact Bool.eq_false_iff.1 hlabel
    simp only [enter, Table.entries_put_of_not_mem _ hnew, htaken.byLabel]
    rfl
  consumedBy l := by
    rw [← htaken.consumedBy l]
    exact Table.get?_erase ..

/-- The live blocks of other labels stay, and the new one comes last. -/
theorem Replaced.live {b : WorkBlock} (h : Replaced c ls r b r') :
    r'.live = r.live.filter (fun w => !ls.contains w.label) ++ [b] := by
  have hmarked : (r.arena.map (WorkBlock.marked c ls)).filter WorkBlock.active =
      r.live.filter (fun w => !ls.contains w.label) := by
    have hcomp : WorkBlock.active ∘ WorkBlock.marked c ls =
        fun w => !ls.contains w.label && w.active := by
      funext w
      simp [Bool.and_comm]
    rw [List.filter_map, hcomp, Registry.live, List.filter_filter]
    -- What is left was not marked.
    refine (List.map_congr_left fun w hw => ?_).trans (List.map_id _)
    have hnot := (List.mem_filter.1 hw).2
    simp only [Bool.and_eq_true, Bool.not_eq_true', List.contains_eq_mem,
      decide_eq_false_iff_not] at hnot
    exact WorkBlock.marked_of_not_mem c ls hnot.1
  rw [Registry.live, h.arena, List.filter_append, hmarked, List.filter_cons_of_pos h.active]
  rfl

/-! ### Applying -/

theorem Resolved.labels_eq (h : Resolved r p ms) :
    (ms.map Prod.snd).map WorkBlock.label = p.labels := by
  rw [Primitive.labels, ← h.names, List.map_map, List.map_map]
  rfl

/-- What an application makes of a registry. -/
structure Effect (p : Primitive) (region : Region) (r : Registry) (b : WorkBlock)
    (r' : Registry) : Prop where
  replaced : Replaced p.describe p.labels r b r'
  block : b = ofNew r.arena.length
    { label := b.label, entry := some region.entry, stmts := region.stmts,
      terminator := region.terminator, synthesized := true }
  node : ∀ l, p.node = some l → b.label = l

theorem effect_enter (hr : r.Sound) (hres : Resolved r p ms) (region : Region) {taken : Registry}
    (htaken : Takes p.describe (ms.map Prod.snd) r taken) (hsound : taken.Sound) {label : String}
    (hlabel : taken.contains label = false) (hnode : ∀ l, p.node = some l → label = l) :
    let entered := taken.enter
      { label, entry := some region.entry, stmts := region.stmts,
        terminator := region.terminator, synthesized := true }
    Effect p region r entered.1 entered.2 where
  replaced := by
    rw [← hres.labels_eq]
    exact replaced_enter hr hres.mem_live htaken hsound hlabel
  block := by
    have hlength : taken.arena.length = r.arena.length := by rw [htaken.arena, List.length_map]
    simp only [enter, hlength]
    rfl
  node := hnode

theorem effect_collapse (hr : r.Sound) (hres : Resolved r p ms)
    (hcheck : r.checkNode p ms = .ok ()) (region : Region) :
    Effect p region r (r.collapse p ms region).1 (r.collapse p ms region).2 := by
  have htaken := takes_retireAll p.describe hr hres.mem_live (hres.nodup_blocks hr)
  have hms := hres.without hr p.describe
  simp only [collapse, foldl_retire]
  cases hnode : p.node with
  | some label =>
    refine effect_enter hr hres region htaken hms.sound
      (contains_of_checkNode hr hres hms hnode hcheck) fun l hl => ?_
    exact Option.some.inj (hnode.symm.trans hl)
  | none =>
    -- A made-up label is new in the whole arena, and drawing it changes only the counter.
    let taken := r.retireAll p.describe (ms.map Prod.snd)
    let drawn := (taken.freshLabel p.kind.tag).2
    have htaken : Takes p.describe (ms.map Prod.snd) r drawn :=
      ⟨htaken.arena, htaken.byLabel, htaken.consumedBy⟩
    exact effect_enter hr hres region htaken (hms.sound.freshLabel _)
      (contains_freshLabel hms.sound _) fun l hl => by simp [hnode] at hl

/-- What an application asks before it changes anything: the roles, the members, the label of
the new block and the region. -/
structure Accepted (scope : Scope) (p : Primitive) (r : Registry) (d : Draft) (ms : Members)
    (region : Region) (d' : Draft) : Prop where
  roles : checkRoles p = .ok ()
  found : r.resolve p = .ok ms
  node : r.checkNode p ms = .ok ()
  built : Region.build scope p ms d = (.ok region, d')

/-- An accepted primitive is applied, which the draft tells of. -/
theorem Accepted.apply {d d' : Draft} {region : Region} (h : Accepted scope p r d ms region d') :
    ∃ trace, r.apply scope p d = (.ok (r.collapse p ms region), { d' with trace }) := by
  have hroles : ofExcept (checkRoles p) d = (.ok (), d) := by rw [ofExcept_apply, h.roles]
  have hfound : ofExcept (r.resolve p) d = (.ok ms, d) := by rw [ofExcept_apply, h.found]
  have hnode : ofExcept (r.checkNode p ms) d = (.ok (), d) := by rw [ofExcept_apply, h.node]
  unfold Registry.apply
  rw [bind_of_ok hroles, bind_of_ok hfound, bind_of_ok hnode, bind_of_ok h.built]
  exact ⟨_, rfl⟩

/-- A primitive that was applied was accepted. -/
theorem accepted_of_apply {d d' : Draft} {b : WorkBlock}
    (h : r.apply scope p d = (.ok (b, r'), d')) :
    ∃ ms region d₁, Accepted scope p r d ms region d₁ ∧ r.collapse p ms region = (b, r') ∧
      d'.names = d₁.names := by
  obtain ⟨_, d₁, hroles, h₁⟩ := bind_ok h
  obtain ⟨ms, d₂, hms, h₂⟩ := bind_ok h₁
  obtain ⟨_, d₃, hcheck, h₃⟩ := bind_ok h₂
  obtain ⟨region, d₄, hbuild, h₄⟩ := bind_ok h₃
  obtain ⟨hroles', rfl⟩ := ofExcept_ok hroles
  obtain ⟨hms', rfl⟩ := ofExcept_ok hms
  obtain ⟨hcheck', rfl⟩ := ofExcept_ok hcheck
  cases h₄
  exact ⟨ms, region, d₄, ⟨hroles', hms', hcheck', hbuild⟩, rfl, rfl⟩

theorem Accepted.effect {d d' : Draft} {region : Region} (hr : r.Sound)
    (h : Accepted scope p r d ms region d') :
    Effect p region r (r.collapse p ms region).1 (r.collapse p ms region).2 :=
  effect_collapse hr (resolve_ok hr h.found) h.node region

/-- An accepted primitive is applied, to the effect that it has. -/
theorem Accepted.applied {d d' : Draft} {region : Region} (hr : r.Sound)
    (h : Accepted scope p r d ms region d') :
    ∃ b r' d'', r.apply scope p d = (.ok (b, r'), d'') ∧ d''.names = d'.names ∧
      Effect p region r b r' :=
  let ⟨_, happly⟩ := h.apply
  ⟨_, _, _, happly, rfl, h.effect hr⟩

/-- **An application changes nothing but what the primitive names.** -/
theorem effect_of_apply {d d' : Draft} {b : WorkBlock} (hr : r.Sound)
    (h : r.apply scope p d = (.ok (b, r'), d')) : ∃ region, Effect p region r b r' := by
  obtain ⟨ms, region, d₁, hacc, hcollapse, -⟩ := accepted_of_apply h
  have heffect := hacc.effect hr
  rw [hcollapse] at heffect
  exact ⟨region, heffect⟩

end Registry

end GoLift
