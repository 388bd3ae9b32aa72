import GoLift.Proofs.Region.Faithful
import GoLift.Proofs.Region.Reachable

/-!
# Reduction keeps the meaning of the graph

A primitive whose members have the shape of its kind replaces them by a block that
does what they did (`Made.faithful`). What is left to see is that nobody misses them:
**no run of the smaller graph ever asks for a block that is gone.** Branches of
blocks outside of the region go to its entry if they go to a member at all, and the
new block's terminator comes from a member whose branches inside the region are all
part of the statement (`Made.origin`).

Each direction is a simulation. A run of the old graph passes at least as many blocks
as the new one, so its length is what the induction is on; the other direction goes by
the length of the run of the new graph.
-/

set_option autoImplicit false

namespace GoLift

open Go (Expr Stmt Host State Fate Via)

variable {H : Host} {scope : Scope} {D : Draft} {ms : Members} {kind : Kind} {first : WorkBlock}
  {links : WorkBlock → WorkBlock → Prop} {region : Region}

/-! ### Links -/

/-- Members in different roles are different blocks. -/
theorem ne_of_roles (hms : (ms.map (·.2.label)).Nodup) {role role' : String} {b b' : WorkBlock}
    (hb : ms.lookup role = some b) (hb' : ms.lookup role' = some b') (hne : role ≠ role') :
    b ≠ b' := by
  rintro rfl
  have heq := List.inj_on_of_nodup_map hms (Region.mem_of_lookup hb) (Region.mem_of_lookup hb') rfl
  exact hne (congrArg Prod.fst heq)

theorem mem_dropLast_of_mem_zip {α : Type} {x y a : α} {l : List α}
    (h : (x, y) ∈ (a :: l).zip l) : x ∈ (a :: l).dropLast := by
  induction l generalizing a with
  | nil => simp at h
  | cons a' l ih =>
    rw [List.zip_cons_cons, List.mem_cons] at h
    rw [List.dropLast_cons_cons, List.mem_cons]
    rcases h with h | h
    · cases h
      exact .inl rfl
    · exact .inr (ih h)

/-- Only members have links. -/
theorem Shape.link_mem (hs : Shape H kind ms first links) {w w' : WorkBlock}
    (h : links w w') : ∃ m ∈ ms, m.2 = w := by
  have hrole : ∀ {role : String} {b : WorkBlock}, ms.lookup role = some b → ∃ m ∈ ms, m.2 = b :=
    fun hb => ⟨_, Region.mem_of_lookup hb, rfl⟩
  cases hs with
  | seq hfirst _ =>
    have hw := List.dropLast_subset _ (mem_dropLast_of_mem_zip h)
    rw [← hfirst] at hw
    exact List.mem_map.1 hw
  | ifThen _ hcond hbody _ _ _ =>
    rcases h with ⟨rfl, -⟩ | ⟨rfl | rfl, -⟩
    · exact hrole hcond
    · exact hrole hcond
    · exact hrole hbody
  | ifElse hcond hfirst hsecond _ _ _ _ =>
    rcases h with ⟨rfl, -⟩ | ⟨rfl | rfl, -⟩
    · exact hrole hcond
    · exact hrole hfirst
    · exact hrole hsecond
  | preLoop hcond hbody _ _ _ =>
    rcases h with ⟨rfl, -⟩ | ⟨rfl, -⟩ | ⟨rfl, -⟩
    · exact hrole hcond
    · exact hrole hbody
    · exact hrole hcond
  | postLoop hcond hbody _ _ _ =>
    rcases h with ⟨rfl, -⟩ | ⟨rfl, -⟩ | ⟨rfl, -⟩
    · exact hrole hbody
    · exact hrole hcond
    · exact hrole hcond
  | selfLoop hcond _ _ _ =>
    rcases h with ⟨rfl, -⟩ | ⟨rfl, -⟩ <;> exact hrole hcond
  | compound _ => exact h.elim

/-- The labels that control may go to from a block. -/
def WorkBlock.targets (b : WorkBlock) : List String :=
  (b.terminator.map Terminator.targets).getD []

/-- A member whose branches to a label are none that the statement stands for. -/
def Origin (ms : Members) (links : WorkBlock → WorkBlock → Prop) (l : String) : Prop :=
  ∃ m ∈ ms, l ∈ m.2.targets ∧ ∀ w', links m.2 w' → w'.entry ≠ l

/-- The labels that control may go to from a region. -/
def Region.targets (region : Region) : List String :=
  (region.terminator.map Terminator.targets).getD []

/-- The origin of a branch out of a region with an exit member or a join. -/
theorem origin_close {ss : List Stmt} {join : Option String} {entry l : String}
    (hl : l ∈ (Region.close ss (ms.lookup "exit") join entry).targets)
    (hexit : ∀ x, ms.lookup "exit" = some x → ∀ w', ¬ links x w')
    (hjoin : ms.lookup "exit" = none → ∀ j, join = some j → Origin ms links j) :
    Origin ms links l := by
  cases hx : ms.lookup "exit" with
  | some x =>
    rw [hx] at hl
    exact ⟨_, Region.mem_of_lookup hx, hl, fun w' h => (hexit x hx w' h).elim⟩
  | none =>
    rw [hx] at hl
    cases join with
    | none => simp [Region.close, Region.targets] at hl
    | some j =>
      simp only [Region.close, Region.targets, Option.map_some, Option.getD_some,
        Terminator.targets, List.mem_singleton] at hl
      exact hl ▸ hjoin hx j rfl

theorem Forks.mem_targets {cond target : WorkBlock} {join : String} (h : Forks cond target join) :
    join ∈ cond.targets := by
  obtain ⟨-, c, hc | hc⟩ := h <;> simp [WorkBlock.targets, hc, Terminator.targets]

/-- A region that is left where its condition does not go to the target: that branch is
none that the statement stands for. -/
theorem origin_of_forks {cond target : WorkBlock} {ss : List Stmt} {join entry l : String}
    (hl : l ∈ (Region.close ss (ms.lookup "exit") (some join) entry).targets)
    (hcond : ms.lookup "cond" = some cond) (hforks : Forks cond target join)
    (hexit : ∀ x, ms.lookup "exit" = some x → ∀ w', ¬ links x w')
    (hlinks : ∀ w', links cond w' → w' = target ∨ ms.lookup "exit" = some w') :
    Origin ms links l := by
  refine origin_close hl hexit ?_
  rintro hx j ⟨⟩
  refine ⟨_, Region.mem_of_lookup hcond, hforks.mem_targets, fun w' hw => ?_⟩
  rcases hlinks w' hw with rfl | hw
  · exact hforks.1
  · rw [hx] at hw
    cases hw

/-- The branch of an arm is none that the statement stands for, if there is no exit. -/
theorem origin_of_arm {role : String} {cond left right b : WorkBlock} {c : Value} {t f j : String}
    (hbr : cond.terminator = some (.condBr c t f)) (hb : ms.lookup role = some b)
    (hx : ms.lookup "exit" = none) (hj : Region.branchTarget? b = some j) :
    Origin ms (fun w w' => w = cond ∧ (w' = left ∨ w' = right) ∨
      (w = left ∨ w = right) ∧ ms.lookup "exit" = some w') j := by
  have ht : b.terminator = some (.br j) := by
    unfold Region.branchTarget? at hj
    split at hj
    · next ht => rw [ht, Option.some.inj hj]
    · cases hj
  refine ⟨_, Region.mem_of_lookup hb, by simp [WorkBlock.targets, ht, Terminator.targets], ?_⟩
  rintro w' (⟨hb, -⟩ | ⟨-, hw⟩)
  · -- The condition does not end as an arm does.
    rw [show b = cond from hb] at ht
    cases ht.symm.trans hbr
  · rw [hx] at hw
    cases hw

/-- **Every branch out of a region comes from a member**, and is not one of the
branches that the statement stands for. -/
theorem Made.origin (h : Made H scope D ms first links region)
    (hms : (ms.map (·.2.label)).Nodup) {l : String} (hl : l ∈ region.targets) :
    Origin ms links l := by
  cases h with
  | @seq _ last rest init _ hfirst hinit _ _ =>
    have hmem : last ∈ ms.map Prod.snd := by rw [hfirst, hinit]; simp
    obtain ⟨m, hm, rfl⟩ := List.mem_map.1 hmem
    refine ⟨m, hm, hl, fun w' hw => ?_⟩
    -- The last member has no successor in the row.
    have hnodup : (init ++ [m.2]).Nodup := by
      rw [← hinit, ← hfirst]
      exact List.Nodup.of_map WorkBlock.label (by rwa [List.map_map])
    have hdrop := mem_dropLast_of_mem_zip hw
    rw [hinit, List.dropLast_concat] at hdrop
    exact absurd rfl ((List.nodup_append.1 hnodup).2.2 _ hdrop _ (List.mem_singleton_self _))
  | ifThen hcond hbody hforks _ _ _ _ =>
    refine origin_of_forks hl hcond hforks ?_ ?_
    · rintro x hx w' (⟨rfl, -⟩ | ⟨rfl | rfl, -⟩)
      · exact ne_of_roles hms hx hcond (by decide) rfl
      · exact ne_of_roles hms hx hcond (by decide) rfl
      · exact ne_of_roles hms hx hbody (by decide) rfl
    · rintro w' (⟨-, hw⟩ | ⟨-, hw⟩)
      · exact .inl hw
      · exact .inr hw
  | ifElse hcond hfirst hsecond harms hbr _ _ _ _ _ _ =>
    refine origin_close hl ?_ ?_
    · rintro x hx w' (⟨rfl, -⟩ | ⟨rfl | rfl, -⟩)
      · exact ne_of_roles hms hx hcond (by decide) rfl
      · exact ne_of_roles hms hx hfirst (by decide) rfl
      · exact ne_of_roles hms hx hsecond (by decide) rfl
    · intro hx j hj
      -- The join is where one of the arms branches to.
      rcases Option.or_eq_some_iff.1 hj with hy | ⟨-, hn⟩
      · rcases harms with ⟨rfl, -⟩ | ⟨rfl, -⟩
        · exact origin_of_arm hbr hfirst hx hy
        · exact origin_of_arm hbr hsecond hx hy
      · rcases harms with ⟨-, rfl⟩ | ⟨-, rfl⟩
        · exact origin_of_arm hbr hsecond hx hn
        · exact origin_of_arm hbr hfirst hx hn
  | preLoop hcond hbody hforks _ _ _ _ =>
    refine origin_of_forks hl hcond hforks ?_ ?_
    · rintro x hx w' (⟨rfl, -⟩ | ⟨rfl, -⟩ | ⟨rfl, -⟩)
      · exact ne_of_roles hms hx hcond (by decide) rfl
      · exact ne_of_roles hms hx hbody (by decide) rfl
      · exact ne_of_roles hms hx hcond (by decide) rfl
    · rintro w' (⟨-, hw⟩ | ⟨heq, -⟩ | ⟨-, hw⟩)
      · exact .inl hw
      · exact absurd heq (ne_of_roles hms hcond hbody (by decide))
      · exact .inr hw
  | postLoop hcond hbody hforks _ _ _ _ =>
    refine origin_of_forks hl hcond hforks ?_ ?_
    · rintro x hx w' (⟨rfl, -⟩ | ⟨rfl, -⟩ | ⟨rfl, -⟩)
      · exact ne_of_roles hms hx hbody (by decide) rfl
      · exact ne_of_roles hms hx hcond (by decide) rfl
      · exact ne_of_roles hms hx hcond (by decide) rfl
    · rintro w' (⟨heq, -⟩ | ⟨-, hw⟩ | ⟨-, hw⟩)
      · exact absurd heq (ne_of_roles hms hcond hbody (by decide))
      · exact .inl hw
      · exact .inr hw
  | selfLoop hcond hforks _ _ =>
    refine origin_of_forks hl hcond hforks ?_ ?_
    · rintro x hx w' (⟨rfl, -⟩ | ⟨rfl, -⟩) <;> exact ne_of_roles hms hx hcond (by decide) rfl
    · rintro w' (⟨-, hw⟩ | ⟨-, hw⟩)
      · exact .inl hw
      · exact .inr hw
  | compound hbody =>
    exact ⟨_, Region.mem_of_lookup hbody, hl, fun _ h => h.elim⟩

/-! ### The simulation -/

/-- A terminator leads on if the labels it names do. -/
theorem After.mono_of_mem {E E' : String → Fate H} {t : Option Terminator} {σ : State H}
    {o : Go.Outcome H} (ha : After scope D E t σ o)
    (h : ∀ l ∈ (t.map Terminator.targets).getD [], ∀ σ, E l σ o → E' l σ o) :
    After scope D E' t σ o := by
  obtain ⟨n, hn, hends⟩ := ha
  refine ⟨n, hn, ?_⟩
  cases n with
  | goto l σ₁ => exact h l hn.mem_targets σ₁ hends
  | out o' => exact hends

namespace Registry

variable {r r' : Registry} {p : Primitive} {b : WorkBlock}

/-- The branches to members of a region: to where it is entered, or as links of its
shape. -/
def OnlyLinks (r : Registry) (ms : Members) (first : WorkBlock)
    (links : WorkBlock → WorkBlock → Prop) : Prop :=
  ∀ w ∈ r.live, ∀ m ∈ ms, m.2.entry ∈ w.targets → m.2 = first ∨ links w m.2

/-- The primitive has the shape of its kind. -/
def Shaped (H : Host) (r : Registry) (p : Primitive) : Prop :=
  ∃ ms first links, r.resolve p = .ok ms ∧ Shape H p.kind ms first links ∧
    r.OnlyLinks ms first links

section

variable (hr : r.Inv) (happlied : Applied scope p r D ms region b r')
  (hs : Shape H p.kind ms first links)

include hr happlied hs

theorem entry_new : b.entry = first.entry := by
  obtain ⟨m, hm, hentry⟩ := happlied.built.entry_mem
  rw [happlied.collapsed.entry (hentry ▸ hr.named _ (happlied.resolved.live m hm)),
    (hs.made happlied.built).entry_eq]

omit hr hs in
theorem enter_new {E : String → Fate H} {σ : State H} {o : Go.Outcome H} :
    Enter scope D E b σ o ↔ Via region.stmts (After scope D E region.terminator) σ o := by
  rw [Enter, WorkBlock.sequence, happlied.collapsed.phiOut, List.append_nil,
    happlied.collapsed.stmts, happlied.collapsed.terminator]

theorem faithful_region : Faithful H scope D r.live region :=
  (hs.made happlied.built).faithful hr.entries happlied.resolved.live hr.contained

variable (hlinks : r.OnlyLinks ms first links)

include hlinks

/-- A label that leads somewhere and is not linked leads to a block that is still
there. -/
theorem entry_mem_of_within {w : WorkBlock} (hw : w ∈ r.live) {l : String} (hl : l ∈ w.targets)
    (hnot : ∀ w', links w w' → w'.entry ≠ l) {n : Nat} {σ : State H} {o : Go.Outcome H}
    (h : Within scope D r.live n l σ o) : ∃ w' ∈ r'.live, w'.entry = l := by
  obtain ⟨w', hw', rfl⟩ : ∃ w' ∈ r.live, w'.entry = l := by
    cases n with
    | zero => cases h
    | succ n =>
      obtain ⟨w', hw', hl, -⟩ := h
      exact ⟨w', hw', hl⟩
  by_cases hm : ∃ m ∈ ms, m.2 = w'
  · obtain ⟨m, hm, rfl⟩ := hm
    rcases hlinks w hw m hm hl with heq | hlink
    · exact ⟨b, (happlied.mem_live hr.sound).2 (.inr rfl), by rw [entry_new hr happlied hs, heq]⟩
    · exact absurd rfl (hnot _ hlink)
  · exact ⟨w', (happlied.mem_live hr.sound).2 (.inl ⟨hw', fun m hm' heq => hm ⟨m, hm', heq⟩⟩), rfl⟩

/-- Runs of the old graph are runs of the new one. -/
theorem ends_of_within {n : Nat} {l : String} {σ : State H} {o : Go.Outcome H}
    (hl : ∃ w ∈ r'.live, w.entry = l) (h : Within scope D r.live n l σ o) :
    Ends scope D r'.live l σ o := by
  have hentries := (hr.apply happlied).entries
  induction n using Nat.strongRecOn generalizing l σ o with
  | ind n ih =>
    obtain ⟨w, hw, rfl⟩ := hl
    cases n with
    | zero => cases h
    | succ n =>
      refine (ends_entry hentries hw).2 ?_
      rcases (happlied.mem_live hr.sound).1 hw with ⟨hold, hmember⟩ | rfl
      · -- A block outside of the region does what it did.
        refine Via.mono (fun _ _ ha => ?_) ((within_entry hr.entries hold).1 h)
        refine ha.mono_of_mem fun l hl σ₁ hl' => ih n (Nat.lt_succ_self n) ?_ hl'
        refine entry_mem_of_within hr happlied hs hlinks hold hl (fun w' hlink => ?_) hl'
        obtain ⟨m, hm, heq⟩ := hs.link_mem hlink
        exact absurd heq (hmember m hm)
      · -- The new block does what the members did.
        rw [entry_new hr happlied hs, ← (hs.made happlied.built).entry_eq] at h
        refine (enter_new happlied).2 ?_
        refine ((faithful_region hr happlied hs).back h).mono fun _ _ ha => ?_
        refine ha.mono_of_mem fun l hl σ₁ hl' => ih n (Nat.lt_succ_self n) ?_ hl'
        obtain ⟨m, hm, hml, hnot⟩ := (hs.made happlied.built).origin happlied.resolved.nodup hl
        exact entry_mem_of_within hr happlied hs hlinks (happlied.resolved.live m hm) hml hnot hl'

omit hlinks in
/-- Runs of the new graph are runs of the old one. -/
theorem ends_of_within_new {n : Nat} {l : String} {σ : State H} {o : Go.Outcome H}
    (h : Within scope D r'.live n l σ o) : Ends scope D r.live l σ o := by
  have hentries := (hr.apply happlied).entries
  induction n generalizing l σ o with
  | zero => cases h
  | succ n ih =>
    obtain ⟨w, hw, rfl, h⟩ := h
    replace h := h.mono fun _ _ _ => ih
    rcases (happlied.mem_live hr.sound).1 hw with ⟨hold, -⟩ | rfl
    · exact (ends_entry hr.entries hold).2 h
    · rw [entry_new hr happlied hs, ← (hs.made happlied.built).entry_eq]
      exact (faithful_region hr happlied hs).fwd ((enter_new happlied).1 h)

end

/-- **Reduction keeps the meaning of the graph.** In every state of a reduction, a
primitive that has the shape of its kind and is applied changes no outcome: from
wherever control can enter the graph afterwards, and in whatever state, the same
outcomes are reached as before. -/
theorem apply_ends_iff {blocks : List Block} {d d' : Draft}
    (hnames : ∀ block ∈ blocks, block.name ≠ "") (hr : Reachable scope blocks r d)
    (happly : r.apply scope p d = (.ok (b, r'), d')) (hshaped : Shaped H r p) (hD : d' ≤ D)
    {w : WorkBlock} (hw : w ∈ r'.live) (σ : State H) (o : Go.Outcome H) :
    Ends scope D r.live w.entry σ o ↔ Ends scope D r'.live w.entry σ o := by
  have hinv := hr.inv hnames
  obtain ⟨ms, region, happlied⟩ := apply_ok hinv.sound happly
  obtain ⟨ms', first, links, hfound, hs, hlinks⟩ := hshaped
  cases happlied.found.symm.trans hfound
  have happlied := happlied.mono hD
  constructor
  · rintro ⟨n, h⟩
    exact ends_of_within hinv happlied hs hlinks ⟨w, hw, rfl⟩ h
  · rintro ⟨n, h⟩
    exact ends_of_within_new hinv happlied hs h

end Registry

/-! ### A loop that spins -/

namespace Spinning

/-- A loop with an empty body, and a block after it. -/
def blocks : List Block :=
  [{ name := "head", terminator := some (.condBr (.localRef "go" (.int 1)) "body" "done") },
    { name := "body", terminator := some (.br "head") },
    { name := "done", terminator := some (.ret none) }]

def head : WorkBlock :=
  { handle := 0, label := "head", entry := "head",
    terminator := some (.condBr (.localRef "go" (.int 1)) "body" "done") }

def body : WorkBlock :=
  { handle := 1, label := "body", entry := "body", terminator := some (.br "head") }

def done : WorkBlock :=
  { handle := 2, label := "done", entry := "done", terminator := some (.ret none) }

/-- The registry of the blocks. -/
def registry : Registry :=
  { arena := [head, body, done], byLabel := ⟨[("head", 0), ("body", 1), ("done", 2)]⟩ }

/-- The primitive that makes a loop of the first two. -/
def loop : Primitive :=
  { kind := .preLoop, roles := ⟨[("cond", "head"), ("body", "body")]⟩ }

theorem resolve_loop : registry.resolve loop = .ok [("cond", head), ("body", body)] := by
  have hmembers : loop.members = [("cond", "head"), ("body", "body")] := by
    change _ ++ List.mergeSort [] _ = _
    rw [List.mergeSort_nil]
    rfl
  rw [Registry.resolve, hmembers]
  rfl

theorem shaped_loop : Registry.Shaped Go.booleans registry loop := by
  have hshape : Shape Go.booleans .preLoop [("cond", head), ("body", body)] head _ :=
    .preLoop rfl rfl ⟨by decide, _, .inl rfl⟩ (.br rfl) fun x hx => by cases hx
  refine ⟨_, _, _, resolve_loop, hshape, fun w hw m hm hl => ?_⟩
  have hw : w = head ∨ w = body ∨ w = done := by
    simpa [Registry.live, registry, head, body, done] using hw
  have hm : m = ("cond", head) ∨ m = ("body", body) := by simpa using hm
  rcases hm with rfl | rfl
  · exact .inl rfl
  · rcases hw with rfl | rfl | rfl
    · exact .inr (.inl ⟨rfl, rfl⟩)
    · exact absurd hl (by decide)
    · exact absurd hl (by decide)

/-- Making the loop changes no outcome of the graph. -/
theorem loop_ends_iff :
    ∃ b r' d', Registry.Reachable {} blocks registry {} ∧
      registry.apply {} loop {} = (.ok (b, r'), d') ∧
      Registry.Shaped Go.booleans registry loop ∧
      ∀ w ∈ r'.live, ∀ (σ : State Go.booleans) (o : Go.Outcome Go.booleans),
        Ends {} d' registry.live w.entry σ o ↔ Ends {} d' r'.live w.entry σ o := by
  have hr : Registry.Reachable {} blocks registry {} := .seed (d := {}) rfl rfl
  obtain ⟨b, r', d', happly⟩ : ∃ b r' d', registry.apply {} loop {} = (.ok (b, r'), d') := by
    rw [Registry.apply, resolve_loop]
    exact ⟨_, _, _, rfl⟩
  exact ⟨b, r', d', hr, happly, shaped_loop, fun w hw σ o =>
    Registry.apply_ends_iff (by decide) hr happly shaped_loop (le_refl d') hw σ o⟩

end Spinning

end GoLift
