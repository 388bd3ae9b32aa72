import GoLift.Proofs.Region.Effect
import GoLift.Proofs.Region.Reachable

/-!
# Independent primitives

Two primitives that name different blocks, and whose own labels are not among the other's
members, can be applied in either order (`Registry.apply_comm`).

**What an application asks of a registry are the lookups of the labels that the primitive
names**, and the other primitive leaves those alone (`Replaced.lookup`). So a primitive that is
accepted in one registry is accepted in another one, as long as these lookups agree and all
identifiers are there already (`Accepted.transport`). What the two orders leave is then read off
`Replaced`, twice for each of them.

The identifiers have to be there: a primitive that is the first to mention a binding names it,
and the order in which bindings are named decides how.
-/

set_option autoImplicit false

namespace GoLift

open DraftM

namespace Registry

variable {r r' r₁ r₂ : Registry} {p q : Primitive} {ms : Members} {scope : Scope} {c l : String}
  {ls : List String} {b bp bq : WorkBlock} {d d' d₁ d₂ : Draft} {region : Region}

/-! ### Lookups -/

theorem Sound.contains_eq (hr : r.Sound) (l : String) : r.contains l = (r.lookup l).isSome := by
  rw [Bool.eq_iff_iff, hr.contains_iff, Option.isSome_iff_exists]
  simp only [hr.lookup_eq_some]

/-- Other labels lead where they led. -/
theorem Replaced.lookup (hr : r.Sound) (h : Replaced c ls r b r') (hl : l ∉ ls)
    (hb : l ≠ b.label) : r'.lookup l = r.lookup l := by
  refine Option.ext fun w => ?_
  rw [h.sound.lookup_eq_some, hr.lookup_eq_some, h.live, List.mem_append, List.mem_filter,
    List.mem_singleton]
  constructor
  · rintro ⟨⟨hw, -⟩ | rfl, rfl⟩
    · exact ⟨hw, rfl⟩
    · exact absurd rfl hb
  · rintro ⟨hw, rfl⟩
    exact ⟨.inl ⟨hw, by simpa using hl⟩, rfl⟩

theorem resolveFrom_congr {desc : String} {roles : List (String × String)} {seen : List String}
    (heq : ∀ e ∈ roles, r'.lookup e.2 = r.lookup e.2)
    (h : r.resolveFrom desc seen roles = .ok ms) : r'.resolveFrom desc seen roles = .ok ms := by
  -- The labels seen are the same in both, so that only the lookups can differ.
  induction roles generalizing seen ms with
  | nil => exact h
  | cons e roles ih =>
    obtain ⟨role, label⟩ := e
    obtain ⟨hlabel, hroles⟩ := List.forall_mem_cons.1 heq
    rw [resolveFrom] at h ⊢
    split at h
    · cases h
    · next hseen =>
      rw [if_neg hseen, hlabel]
      split at h
      · cases h
      · next w hw =>
        rcases hrest : r.resolveFrom desc (label :: seen) roles with f | rest
        · rw [hrest] at h
          cases h
        · rw [hrest] at h
          simp only [hw, ih hroles hrest]
          exact h

/-- The same members are found where the labels of a primitive lead to the same blocks. -/
theorem resolve_congr (heq : ∀ l ∈ p.labels, r'.lookup l = r.lookup l)
    (h : r.resolve p = .ok ms) : r'.resolve p = .ok ms :=
  resolveFrom_congr (fun _ he => heq _ (List.mem_map_of_mem he)) h

theorem checkNode_congr (heq : ∀ l, p.node = some l → r'.contains l = r.contains l)
    (h : r.checkNode p ms = .ok ()) : r'.checkNode p ms = .ok () := by
  unfold checkNode at h ⊢
  cases hnode : p.node with
  | none => rfl
  | some l => simpa only [hnode, heq l hnode] using h

/-! ### Identifiers -/

/-- The bindings that the ends of the live blocks mention have their identifiers. -/
def Mapped (r : Registry) (t : NameTable) : Prop :=
  ∀ b ∈ r.live, ∀ name ∈ Terminator.reads b.terminator, ∃ x, t.local? name = some x

/-- Then no application makes one. -/
theorem Accepted.names_eq (hr : r.Sound) (hmapped : r.Mapped d.names)
    (hfound : r.resolve p = .ok ms) (hbuilt : Region.build scope p ms d = (.ok region, d')) :
    d'.names = d.names := by
  have hres := resolve_ok hr hfound
  have hkeeps : Keeps d.names (Region.build scope p ms) :=
    Region.closed_build (closed_keeps d.names) scope p fun m hm name hname =>
      keeps_localVar (hmapped m.2 (hres.live m hm) name hname)
  exact hkeeps.apply hbuilt rfl

/-! ### Another registry -/

/-- A primitive is accepted where its labels lead to the same blocks. -/
theorem Accepted.transport (hr : r.Sound) (hr' : r'.Sound)
    (h : Accepted scope p r d₁ ms region d₂) (hd : d₂ ≤ d)
    (hlabels : ∀ l ∈ p.labels, r'.lookup l = r.lookup l)
    (hnode : ∀ l, p.node = some l → r'.lookup l = r.lookup l) :
    ∃ d', Accepted scope p r' d ms region d' := by
  -- The members are the same blocks; only the draft they are built in is a later one.
  have hbuilt : (Region.build scope p ms d).1 = .ok region :=
    (Region.steady_build scope p ms).again h.built hd
  refine ⟨(Region.build scope p ms d).2, h.roles, resolve_congr hlabels h.found, ?_,
    Prod.ext hbuilt rfl⟩
  refine checkNode_congr (fun l hl => ?_) h.node
  rw [hr'.contains_eq, hr.contains_eq, hnode l hl]

/-- The block of a region is the same at another place of the arena. -/
theorem Effect.eq_of_node {s s' : Registry} {b' : WorkBlock} (h : Effect p region r b r')
    (h' : Effect p region s b' s') (hnode : p.node = some l) :
    b' = { b with handle := s.arena.length } := by
  have hlabel : b'.label = b.label := (h'.node l hnode).trans (h.node l hnode).symm
  rw [h'.block, h.block, hlabel]
  rfl

/-! ### Both orders -/

/-- What two applications leave of the live blocks, if the second takes none of the first's
block. -/
theorem Replaced.live_twice {c' : String} {ls' : List String} (h : Replaced c ls r bp r₁)
    (h' : Replaced c' ls' r₁ bq r₂) (hb : bp.label ∉ ls') :
    r₂.live =
      r.live.filter (fun w => !ls.contains w.label && !ls'.contains w.label) ++ [bp, bq] := by
  have hkeep : [bp].filter (fun w => !ls'.contains w.label) = [bp] :=
    List.filter_eq_self.2 (by simpa using hb)
  rw [h'.live, h.live, List.filter_append, hkeep, List.filter_filter, List.append_assoc]
  simp only [Bool.and_comm, List.singleton_append]

/-- Primitives that give their blocks different labels, name no block in common, and do not name
each other's. -/
structure Independent (p q : Primitive) (x y : String) : Prop where
  left : p.node = some x
  right : q.node = some y
  ne : x ≠ y
  disjoint : ∀ l ∈ p.labels, l ∉ q.labels
  left_not_mem : x ∉ q.labels
  right_not_mem : y ∉ p.labels

namespace Independent

variable {x y : String}

theorem symm (h : Independent p q x y) : Independent q p y x where
  left := h.right
  right := h.left
  ne := h.ne.symm
  disjoint l hq hp := h.disjoint l hp hq
  left_not_mem := h.right_not_mem
  right_not_mem := h.left_not_mem

/-- Applying one of them leaves alone what the other asks for. -/
theorem lookup (h : Independent p q x y) (hr : r.Sound) (heffect : Effect p region r b r') :
    (∀ l ∈ q.labels, r'.lookup l = r.lookup l) ∧
      ∀ l, q.node = some l → r'.lookup l = r.lookup l := by
  have hb : b.label = x := heffect.node x h.left
  refine ⟨fun l hl => ?_, fun l hl => ?_⟩
  · refine heffect.replaced.lookup hr (fun hp => h.disjoint l hp hl) ?_
    rintro rfl
    exact h.left_not_mem (hb ▸ hl)
  · obtain rfl : y = l := Option.some.inj (h.right.symm.trans hl)
    exact heffect.replaced.lookup hr h.right_not_mem (hb ▸ h.ne.symm)

/-- The second of them would have been accepted first. -/
theorem accepted_first (h : Independent p q x y) (hr : r.Sound) (hmapped : r.Mapped d.names)
    (heffect : Effect p region r b r₁) (hd₁ : d₁.names = d.names) {region' : Region}
    (hq : Accepted scope q r₁ d₁ ms region' d₂) :
    ∃ d', Accepted scope q r d ms region' d' := by
  obtain ⟨hlabels, hnode⟩ := h.lookup hr heffect
  have hlabels' : ∀ l ∈ q.labels, r.lookup l = r₁.lookup l := fun l hl => (hlabels l hl).symm
  have hfound : r.resolve q = .ok ms := resolve_congr hlabels' hq.found
  have hd₂ : d₂.names = d₁.names := Accepted.names_eq hr (hd₁ ▸ hmapped) hfound hq.built
  have hle : d₂ ≤ d := by
    show d₂.names.Le d.names
    rw [hd₂, hd₁]
    exact NameTable.Le.refl _
  exact hq.transport heffect.replaced.sound hr hle hlabels' fun l hl => (hnode l hl).symm

/-- The first of them is accepted behind the second. -/
theorem accepted_second (h : Independent p q x y) (hr : r.Sound) (hmapped : r.Mapped d.names)
    (heffect : Effect q region r b r₁) (hd₁ : d₁.names = d.names) {region' : Region}
    (hp : Accepted scope p r d ms region' d₂) :
    ∃ d', Accepted scope p r₁ d₁ ms region' d' := by
  obtain ⟨hlabels, hnode⟩ := h.symm.lookup hr heffect
  have hd₂ : d₂.names = d.names := Accepted.names_eq hr hmapped hp.found hp.built
  have hle : d₂ ≤ d₁ := by
    show d₂.names.Le d₁.names
    rw [hd₂, hd₁]
    exact NameTable.Le.refl _
  exact hp.transport hr heffect.replaced.sound hle hlabels hnode

/-- What took a label does not depend on the order. -/
theorem consumedBy_eq (h : Independent p q x y) {r₁' r₂' : Registry} {bp' bq' : WorkBlock}
    {region' : Region} (hp : Effect p region r bp r₁) (hq : Effect q region' r₁ bq r₂)
    (hq' : Effect q region' r bq' r₁') (hp' : Effect p region r₁' bp' r₂') (l : String) :
    r₂'.consumedBy l = r₂.consumedBy l := by
  rw [hp'.replaced.consumedBy, hq'.replaced.consumedBy, hq.replaced.consumedBy,
    hp.replaced.consumedBy, hp.node x h.left, hq.node y h.right, hp'.node x h.left,
    hq'.node y h.right]
  -- Each label is at most one of the four: a node, or a member, of the one or the other.
  by_cases hlp : l ∈ p.labels
  · have hlq : l ∉ q.labels := h.disjoint l hlp
    have hly : l ≠ y := fun heq => h.right_not_mem (heq ▸ hlp)
    simp [hlp, hlq, hly]
  · by_cases hlx : l = x
    · subst hlx
      simp [h.ne, h.left_not_mem]
    · simp [hlp, hlx]

end Independent

/-- **Independent primitives can be applied in either order.** If a primitive and then another
one can be applied, so can the other one and then the first: they make the same blocks with
their handles exchanged, behind the same others, and what took a label is the same. -/
theorem apply_comm {x y : String} (hr : r.Sound) (hmapped : r.Mapped d.names)
    (hpq : Independent p q x y)
    (hp : r.apply scope p d = (.ok (bp, r₁), d₁))
    (hq : r₁.apply scope q d₁ = (.ok (bq, r₂), d₂)) :
    ∃ r₁' d₁' r₂' d₂' others,
      r.apply scope q d = (.ok ({ bq with handle := bp.handle }, r₁'), d₁') ∧
      r₁'.apply scope p d₁' = (.ok ({ bp with handle := bq.handle }, r₂'), d₂') ∧
      r₂.live = others ++ [bp, bq] ∧
      r₂'.live = others ++ [{ bq with handle := bp.handle }, { bp with handle := bq.handle }] ∧
      ∀ l, r₂'.consumedBy l = r₂.consumedBy l := by
  -- The order that is given.
  obtain ⟨msp, regionp, dp, haccp, hcolp, hdp⟩ := accepted_of_apply hp
  obtain ⟨msq, regionq, dq, haccq, hcolq, -⟩ := accepted_of_apply hq
  have heffp : Effect p regionp r bp r₁ := by simpa only [hcolp] using haccp.effect hr
  have heffq : Effect q regionq r₁ bq r₂ := by
    simpa only [hcolq] using haccq.effect heffp.replaced.sound
  have hd₁ : d₁.names = d.names :=
    hdp.trans (Accepted.names_eq hr hmapped haccp.found haccp.built)
  -- The other order.
  obtain ⟨dq', haccq'⟩ := hpq.accepted_first hr hmapped heffp hd₁ haccq
  obtain ⟨bq', r₁', d₁', happq', hdq', heffq'⟩ := haccq'.applied hr
  have hd₁' : d₁'.names = d.names :=
    hdq'.trans (Accepted.names_eq hr hmapped haccq'.found haccq'.built)
  obtain ⟨dp', haccp'⟩ := hpq.accepted_second hr hmapped heffq' hd₁' haccp
  obtain ⟨bp', r₂', d₂', happp', -, heffp'⟩ := haccp'.applied heffq'.replaced.sound
  -- Each block is the same as in the first order, at the place of the other.
  have hlength : r₁.arena.length = r₁'.arena.length := by
    simp [heffp.replaced.arena, heffq'.replaced.arena]
  obtain rfl : bq' = { bq with handle := bp.handle } := by
    rw [heffp.replaced.handle]
    exact heffq.eq_of_node heffq' hpq.right
  obtain rfl : bp' = { bp with handle := bq.handle } := by
    rw [heffq.replaced.handle, hlength]
    exact heffp.eq_of_node heffp' hpq.left
  have hlive := heffp.replaced.live_twice heffq.replaced
    (heffp.node x hpq.left ▸ hpq.left_not_mem)
  have hlive' := heffq'.replaced.live_twice heffp'.replaced
    (heffq'.node y hpq.right ▸ hpq.right_not_mem)
  refine ⟨r₁', d₁', r₂', d₂', _, happq', happp', hlive, ?_,
    hpq.consumedBy_eq heffp heffq heffq' heffp'⟩
  rw [hlive']
  simp only [Bool.and_comm]

end Registry

namespace TwoRows

/-- A block of the function, entered by its label. -/
def block (handle : Nat) (label : String) (terminator : Terminator) : WorkBlock :=
  { handle, label, entry := label, terminator := some terminator }

/-- Two blocks of which the first returns a parameter, and two that follow each other. -/
def registry : Registry :=
  { arena :=
      [block 0 "first" (.ret (some (.localRef "x" (.int 32)))), block 1 "second" (.ret none),
        block 2 "third" (.br "fourth"), block 3 "fourth" (.ret none)]
    byLabel := ⟨[("first", 0), ("second", 1), ("third", 2), ("fourth", 3)]⟩ }

/-- The parameter has its identifier. -/
def draft : Draft := { names := { locals := ⟨[("x", "x")]⟩, used := ["x"] } }

/-- The primitive that makes a row of the first two. -/
def upper : Primitive :=
  { kind := .seq, sequence := ["first", "second"], node := some "upper" }

/-- The primitive that makes a row of the last two and gives it the label of one. -/
def lower : Primitive :=
  { kind := .seq, sequence := ["third", "fourth"], node := some "fourth" }

theorem sound_registry : registry.Sound := by
  have hseed : Registry.seed {} {}
      [{ name := "first", terminator := some (.ret (some (.localRef "x" (.int 32)))) },
        { name := "second", terminator := some (.ret none) },
        { name := "third", terminator := some (.br "fourth") },
        { name := "fourth", terminator := some (.ret none) }] draft = (.ok registry, draft) := rfl
  exact (Registry.seed_ok hseed).1

theorem independent : Registry.Independent upper lower "upper" "fourth" := by
  refine ⟨rfl, rfl, by decide, ?_, ?_, ?_⟩ <;> decide

theorem mapped : registry.Mapped draft.names := by
  have hreads : ∀ b ∈ registry.live, ∀ name ∈ Terminator.reads b.terminator, name = "x" := by
    decide
  intro b hb name hname
  obtain rfl := hreads b hb name hname
  exact ⟨"x", rfl⟩

/-- Either row can be made first. -/
theorem rows_comm :
    ∃ bp r₁ d₁ bq r₂ d₂ r₁' d₁' r₂' d₂' others,
      registry.Sound ∧ registry.Mapped draft.names ∧
      Registry.Independent upper lower "upper" "fourth" ∧
      registry.apply {} upper draft = (.ok (bp, r₁), d₁) ∧
      r₁.apply {} lower d₁ = (.ok (bq, r₂), d₂) ∧
      registry.apply {} lower draft = (.ok ({ bq with handle := 4 }, r₁'), d₁') ∧
      r₁'.apply {} upper d₁' = (.ok ({ bp with handle := 5 }, r₂'), d₂') ∧
      r₂.live = others ++ [bp, bq] ∧
      r₂'.live = others ++ [{ bq with handle := 4 }, { bp with handle := 5 }] ∧
      ∀ l, r₂'.consumedBy l = r₂.consumedBy l := by
  obtain ⟨bp, r₁, d₁, bq, r₂, d₂, hp, hq, hbp, hbq⟩ : ∃ bp r₁ d₁ bq r₂ d₂,
      registry.apply {} upper draft = (.ok (bp, r₁), d₁) ∧
      r₁.apply {} lower d₁ = (.ok (bq, r₂), d₂) ∧ bp.handle = 4 ∧ bq.handle = 5 :=
    ⟨_, _, _, _, _, _, rfl, rfl, rfl, rfl⟩
  obtain ⟨r₁', d₁', r₂', d₂', others, h⟩ :=
    Registry.apply_comm sound_registry mapped independent hp hq
  rw [hbp, hbq] at h
  exact ⟨bp, r₁, d₁, bq, r₂, d₂, r₁', d₁', r₂', d₂', others, sound_registry, mapped,
    independent, hp, hq, h⟩

end TwoRows

end GoLift
