import GoLift.Proofs.Region.Built
import GoLift.Proofs.Region.Registry

/-!
# What applying a primitive does to the registry

`Registry.Applied` is the inversion of a successful application: the members that
were found, the region that was built of them, and the registry in which they are
gone and the new block comes last.
-/

set_option autoImplicit false

namespace GoLift

open Go (Expr Stmt)
open DraftM

namespace Registry

variable {r r' : Registry} {p : Primitive} {ms : Members} {scope : Scope}

/-! ### The members -/

/-- The blocks that a primitive names: live, different, and in the order of visit. -/
structure Resolved (r : Registry) (p : Primitive) (ms : Members) : Prop where
  names : ms.map (fun m => (m.1, m.2.label)) = p.members
  live : ∀ m ∈ ms, m.2 ∈ r.live
  nodup : (ms.map (·.2.label)).Nodup

theorem resolveFrom_ok (hr : r.Sound) {desc : String} {roles : List (String × String)}
    {seen : List String} (h : r.resolveFrom desc seen roles = .ok ms) :
    ms.map (fun m => (m.1, m.2.label)) = roles ∧
      (∀ m ∈ ms, m.2 ∈ r.live ∧ m.2.label ∉ seen) ∧ (ms.map (·.2.label)).Nodup := by
  induction roles generalizing seen ms with
  | nil =>
    cases h
    simp
  | cons e roles ih =>
    obtain ⟨role, label⟩ := e
    rw [resolveFrom] at h
    split at h
    · cases h
    · next hseen =>
      split at h
      · cases h
      · next b hb =>
        obtain ⟨hlive, rfl⟩ := (hr.lookup_eq_some).1 hb
        rcases hrest : r.resolveFrom desc (b.label :: seen) roles with f | rest
        · rw [hrest] at h
          cases h
        · rw [hrest] at h
          cases h
          obtain ⟨hnames, hmem, hnodup⟩ := ih hrest
          refine ⟨by rw [List.map_cons, hnames], ?_, ?_⟩
          · rw [List.forall_mem_cons]
            exact ⟨⟨hlive, by simpa using hseen⟩, fun m hm =>
              ⟨(hmem m hm).1, fun hs => (hmem m hm).2 (List.mem_cons_of_mem _ hs)⟩⟩
          · rw [List.map_cons, List.nodup_cons]
            refine ⟨fun hin => ?_, hnodup⟩
            obtain ⟨m, hm, heq⟩ := List.mem_map.1 hin
            exact (hmem m hm).2 (heq ▸ List.mem_cons_self)

theorem resolve_ok (hr : r.Sound) (h : r.resolve p = .ok ms) : Resolved r p ms :=
  let ⟨names, hmem, nodup⟩ := resolveFrom_ok hr h
  { names, live := fun m hm => (hmem m hm).1, nodup }

/-- Members have different handles. -/
theorem Resolved.nodup_handles (h : Resolved r p ms) (hr : r.Sound) :
    (ms.map (·.2.handle)).Nodup := by
  have hpair := List.pairwise_map.1 h.nodup
  refine List.pairwise_map.2 (List.Pairwise.imp_of_mem (fun {m m'} hm hm' hne heq => ?_) hpair)
  exact hne (by rw [hr.eq_of_handle (h.live m hm) (h.live m' hm') heq])

theorem Resolved.mem_live (h : Resolved r p ms) : ∀ b ∈ ms.map Prod.snd, b ∈ r.live :=
  List.forall_mem_map.2 h.live

theorem Resolved.nodup_blocks (h : Resolved r p ms) (hr : r.Sound) :
    ((ms.map Prod.snd).map WorkBlock.handle).Nodup := by
  rw [List.map_map]
  exact h.nodup_handles hr

/-- The members of a primitive can all be retired. -/
theorem Resolved.without (h : Resolved r p ms) (hr : r.Sound) (c : String) :
    Without r (r.retireAll c (ms.map Prod.snd)) (ms.map Prod.snd) :=
  without_retireAll c hr h.mem_live (h.nodup_blocks hr)

/-! ### The new block -/

/-- The registry after the members of a region were taken and its block entered. -/
structure Collapsed (r : Registry) (ms : Members) (region : Region) (b : WorkBlock)
    (r' : Registry) : Prop where
  sound : r'.Sound
  live : r'.live = r.live.filter (fun b' => !(ms.map (·.2.handle)).contains b'.handle) ++ [b]
  handle : b.handle = r.arena.length
  stmts : b.stmts = region.stmts
  phiOut : b.phiOut = []
  terminator : b.terminator = region.terminator
  entry : region.entry ≠ "" → b.entry = region.entry

theorem collapsed_enter {taken : Registry} (hms : Without r taken (ms.map Prod.snd))
    (region : Region) {label : String} (hlabel : taken.contains label = false) :
    let entered := taken.enter
      { label, entry := some region.entry, stmts := region.stmts,
        terminator := region.terminator, synthesized := true }
    Collapsed r ms region entered.1 entered.2 where
  sound := hms.sound.enter hlabel
  live := by rw [live_enter, hms.live, List.map_map]; rfl
  handle := by
    have hlen := congrArg List.length hms.labels
    rwa [List.length_map, List.length_map] at hlen
  stmts := rfl
  phiOut := rfl
  terminator := rfl
  entry hne := by
    have hsome : informative (some region.entry) = some region.entry := by
      simp [informative, Option.filter_some, hne]
    simp [enter, ofNew, hsome]

/-- Once the members are taken, no label of a live block is the new one's. -/
theorem contains_of_checkNode (hr : r.Sound) (hres : Resolved r p ms)
    {taken : Registry} (hms : Without r taken (ms.map Prod.snd)) {label : String}
    (hnode : p.node = some label) (hcheck : r.checkNode p ms = .ok ()) :
    taken.contains label = false := by
  rw [Bool.eq_false_iff]
  intro hin
  obtain ⟨b, hb, rfl⟩ := hms.sound.contains_iff.1 hin
  rw [hms.live, List.mem_filter] at hb
  obtain ⟨hb, hnot⟩ := hb
  simp only [checkNode, hnode] at hcheck
  split at hcheck
  · cases hcheck
  · next htaken =>
    have hin : r.contains b.label = true := hr.contains_iff.2 ⟨b, hb, rfl⟩
    simp only [hin, Bool.true_and, Bool.not_eq_true', Bool.not_eq_false,
      List.contains_iff_mem, List.mem_map] at htaken
    obtain ⟨m, hm, heq⟩ := htaken
    have := hr.eq_of_label (hres.live m hm) hb heq
    subst this
    simp only [List.map_map, Bool.not_eq_true', List.contains_eq_mem, decide_eq_false_iff_not,
      List.mem_map, not_exists, not_and] at hnot
    exact hnot m hm rfl

theorem collapsed (hr : r.Sound) (hres : Resolved r p ms) (hcheck : r.checkNode p ms = .ok ())
    (region : Region) :
    Collapsed r ms region (r.collapse p ms region).1 (r.collapse p ms region).2 := by
  have hms := hres.without hr p.describe
  simp only [collapse, foldl_retire]
  cases hnode : p.node with
  | some label => exact collapsed_enter hms region (contains_of_checkNode hr hres hms hnode hcheck)
  | none =>
    -- A made-up label is new in the whole arena.
    let taken := r.retireAll p.describe (ms.map Prod.snd)
    have hms' : Without r (taken.freshLabel p.kind.tag).2 (ms.map Prod.snd) :=
      ⟨hms.sound.freshLabel _, hms.live, hms.labels⟩
    exact collapsed_enter hms' region (contains_freshLabel hms.sound _)

/-! ### Applying -/

/-- What a successful application did. -/
structure Applied (scope : Scope) (p : Primitive) (r : Registry) (D : Draft) (ms : Members)
    (region : Region) (b : WorkBlock) (r' : Registry) : Prop where
  found : r.resolve p = .ok ms
  resolved : Resolved r p ms
  built : Region.Built scope D p.kind ms region
  collapsed : Collapsed r ms region b r'

theorem Applied.mono {D D' : Draft} {region : Region} {b : WorkBlock}
    (h : Applied scope p r D ms region b r') (hD : D ≤ D') :
    Applied scope p r D' ms region b r' :=
  { h with built := h.built.mono hD }

/-- **A primitive that can be applied was applied whole.** -/
theorem apply_ok {d d' : Draft} {b : WorkBlock} (hr : r.Sound)
    (h : r.apply scope p d = (.ok (b, r'), d')) :
    ∃ ms region, Applied scope p r d' ms region b r' := by
  obtain ⟨_, d₁, hroles, h₁⟩ := bind_ok h
  obtain ⟨ms, d₂, hms, h₂⟩ := bind_ok h₁
  obtain ⟨_, d₃, hcheck, h₃⟩ := bind_ok h₂
  obtain ⟨region, d₄, hbuild, h₄⟩ := bind_ok h₃
  have hres := resolve_ok hr (ofExcept_ok hms).1
  have hcol := collapsed hr hres (ofExcept_ok hcheck).1 region
  cases h₄
  refine ⟨ms, region, (ofExcept_ok hms).1, hres, Region.built_of_gives ⟨_, _, hbuild, ?_⟩, hcol⟩
  exact NameTable.Le.refl _

theorem grows_apply (scope : Scope) (p : Primitive) (r : Registry) : Grows (r.apply scope p) :=
  (grows_ofExcept _).bind fun _ => (grows_ofExcept _).bind fun _ => (grows_ofExcept _).bind fun _ =>
    (Region.steady_build scope p _).grows.bind fun _ => (grows_tell _).bind fun _ => .pure _

end Registry

end GoLift
