import GoLift.Proofs.Region.History

/-!
# Applying a primitive in place

`Registry.apply` gives a new registry or none. Here the same steps are taken on a registry that
is changed as they go, so that **whatever a step has done before another fails stays done**
(`InPlace`): blocks are taken one by one, a label is drawn, and the new block is entered if
its label is not in use.

A primitive is first *prepared*. This asks for everything that can fail, and changes nothing.
Then it is *committed*, which changes the registry and, once the preparation has succeeded, never
fails (`Registry.commit_eq`): members are live and different, and what is checked
before they are taken makes the label free when they are gone. So both ways to apply a primitive
are one (`Registry.applyInPlace_eq`).
-/

set_option autoImplicit false

namespace GoLift

open DraftM

/-- Work that changes a registry and a draft in place. Where it fails, what it has done stays
done. -/
abbrev InPlace (α : Type) := ExceptT Fault (StateM (Registry × Draft)) α

namespace InPlace

variable {α β : Type}

/-- Ask the registry. -/
def ask (f : Registry → Except Fault α) : InPlace α :=
  ExceptT.mk fun s => (f s.1, s)

/-- Work on the draft. -/
def draw (x : DraftM α) : InPlace α :=
  ExceptT.mk fun s => ((x s.2).1, s.1, (x s.2).2)

/-- Change the registry, as far as it goes. -/
def change (f : Registry → Except Fault α × Registry) : InPlace α :=
  ExceptT.mk fun s => ((f s.1).1, (f s.1).2, s.2)

/-- Leaves the registry as it is, whether it fails or not. -/
def Keeps (x : InPlace α) : Prop :=
  ∀ s, (x s).2.1 = s.1

theorem keeps_ask (f : Registry → Except Fault α) : Keeps (ask f) := fun _ => rfl

theorem keeps_draw (x : DraftM α) : Keeps (draw x) := fun _ => rfl

theorem Keeps.pure (a : α) : Keeps (Pure.pure a) := fun _ => rfl

theorem Keeps.bind {x : InPlace α} {f : α → InPlace β} (hx : Keeps x) (hf : ∀ a, Keeps (f a)) :
    Keeps (x >>= f) := by
  intro s
  have hs := hx s
  rcases h : x s with ⟨e | a, s'⟩ <;> rw [h] at hs
  · rw [bind_of_error h]
    exact hs
  · rw [bind_of_ok h]
    exact (hf a s').trans hs

end InPlace

namespace Registry

open InPlace

variable {r : Registry} {s s' : Registry × Draft} {p : Primitive} {ms : Members} {scope : Scope}
  {region : Region} {buffers : Table (List Go.Stmt)}

/-! ### The parts of an application -/

/-- What an application asks of a registry before it changes it. -/
def examine (scope : Scope) (p : Primitive) (r : Registry) : DraftM (Members × Region) := do
  DraftM.ofExcept (checkRoles p)
  let members ← DraftM.ofExcept (r.resolve p)
  DraftM.ofExcept (r.checkNode p members)
  let region ← Region.build scope p members
  return (members, region)

theorem apply_eq (scope : Scope) (p : Primitive) (r : Registry) :
    r.apply scope p = r.examine scope p >>= fun m => do
      let (b, r) := r.collapse p m.1 m.2
      DraftM.tell (.reduced p.describe b.label)
      return (b, r) := by
  simp only [apply, examine, bind_assoc, pure_bind]

theorem accepted_of_examine {d d' : Draft} (h : r.examine scope p d = (.ok (ms, region), d')) :
    Accepted scope p r d ms region d' := by
  obtain ⟨_, d₁, hroles, h⟩ := bind_ok h
  obtain ⟨ms', d₂, hfound, h⟩ := bind_ok h
  obtain ⟨_, d₃, hnode, h⟩ := bind_ok h
  obtain ⟨region', d₄, hbuilt, h⟩ := bind_ok h
  cases h
  obtain ⟨hroles', rfl⟩ := ofExcept_ok hroles
  obtain ⟨hfound', rfl⟩ := ofExcept_ok hfound
  obtain ⟨hnode', rfl⟩ := ofExcept_ok hnode
  exact ⟨hroles', hfound', hnode', hbuilt⟩

/-! ### The steps in place -/

/-- Ask for everything that can fail: the roles, the members, the label of the new block, and the
region that the members make. -/
def prepare (scope : Scope) (p : Primitive) : InPlace (Members × Region) := do
  ask fun _ => checkRoles p
  let members ← ask fun r => r.resolve p
  ask fun r => r.checkNode p members
  let region ← draw (Region.build scope p members)
  return (members, region)

/-- Take blocks, one after the other. -/
def takeAll (consumer : String) (bs : List WorkBlock) : InPlace Unit :=
  change fun r =>
    let (done, r) := r.consume consumer (bs.map fun b => (b.handle : Int))
    (done.mapError Fault.abort, r)

/-- The label of the new block. If none is given, one is made up. -/
def drawLabel (p : Primitive) : InPlace String :=
  match p.node with
  | some label => return label
  | none => change fun r => let (label, r) := r.freshLabel p.kind.tag; (.ok label, r)

/-- Enter a block, if its label is free. -/
def put (b : NewBlock) : InPlace WorkBlock :=
  change fun r =>
    match r.insert b with
    | .ok (block, r) => (.ok block, r)
    | .error f => (.error f, r)

/-- Take the members, and enter the block that is made of them. -/
def commit (p : Primitive) (members : Members) (region : Region) : InPlace WorkBlock := do
  takeAll p.describe (members.map Prod.snd)
  let label ← drawLabel p
  let block ← put
    { label
      entry := some region.entry
      stmts := region.stmts
      terminator := region.terminator
      synthesized := true }
  draw (DraftM.tell (.reduced p.describe block.label))
  return block

/-- Apply a primitive in place. -/
def applyInPlace (scope : Scope) (p : Primitive) : InPlace WorkBlock := do
  let (members, region) ← prepare scope p
  commit p members region

/-- Try primitives in place, one after the other. -/
def tryInPlace (scope : Scope) (s : Registry × Draft) (ps : List Primitive) : Registry × Draft :=
  ps.foldl (fun s p => (applyInPlace scope p s).2) s

/-! ### Preparing changes nothing -/

/-- **A preparation leaves the registry as it is.** -/
theorem keeps_prepare (scope : Scope) (p : Primitive) : Keeps (prepare scope p) :=
  (keeps_ask _).bind fun _ => (keeps_ask _).bind fun _ => (keeps_ask _).bind fun _ =>
    (keeps_draw _).bind fun _ => .pure _

/-- A preparation is the part of an application that can fail. -/
theorem prepare_eq (scope : Scope) (p : Primitive) (s : Registry × Draft) :
    prepare scope p s = draw (s.1.examine scope p) s := by
  simp only [prepare, examine, bind_apply, ask, draw, ExceptT.mk, ofExcept_apply]
  rcases checkRoles p with f | u
  · rfl
  dsimp only
  rcases s.1.resolve p with f | ms
  · rfl
  dsimp only
  rcases s.1.checkNode p ms with f | u
  · rfl
  dsimp only
  rcases Region.build scope p ms s.2 with ⟨f | region, d⟩ <;> rfl

/-! ### Committing does not fail -/

theorem takeAll_eq (hr : s.1.Sound) (hres : Resolved s.1 p ms) (c : String) :
    takeAll c (ms.map Prod.snd) s = (.ok (), s.1.retireAll c (ms.map Prod.snd), s.2) := by
  simp only [takeAll, change, ExceptT.mk, consume_eq c hr hres.mem_live (hres.nodup_blocks hr)]
  rfl

theorem drawLabel_of_some {label : String} (h : p.node = some label) :
    drawLabel p s = (.ok label, s) := by
  simp only [drawLabel, h]
  rfl

theorem drawLabel_of_none (h : p.node = none) :
    drawLabel p s = (.ok (s.1.freshLabel p.kind.tag).1, (s.1.freshLabel p.kind.tag).2, s.2) := by
  simp only [drawLabel, h]
  rfl

theorem put_eq {b : NewBlock} (h : s.1.contains b.label = false) :
    put b s = (.ok (s.1.enter b).1, (s.1.enter b).2, s.2) := by
  simp only [put, change, ExceptT.mk, insert_of_not_contains h]

/-- **To commit what was prepared never fails**, and is to collapse the members. -/
theorem commit_eq (hr : s.1.Sound) (hres : Resolved s.1 p ms)
    (hcheck : s.1.checkNode p ms = .ok ()) (region : Region) :
    commit p ms region s =
      let (b, r) := s.1.collapse p ms region
      (.ok b, r, (DraftM.tell (.reduced p.describe b.label) s.2).2) := by
  have hms := hres.without hr p.describe
  simp only [commit, collapse, foldl_retire]
  rw [bind_of_ok (takeAll_eq hr hres p.describe)]
  cases hnode : p.node with
  | some label =>
    have hlabel := contains_of_checkNode hr hres hms hnode hcheck
    rw [bind_of_ok (drawLabel_of_some hnode), bind_of_ok (put_eq hlabel)]
    rfl
  | none =>
    have hlabel := contains_freshLabel hms.sound p.kind.tag
    rw [bind_of_ok (drawLabel_of_none hnode), bind_of_ok (put_eq hlabel)]
    rfl

/-! ### Both ways are one -/

/-- A preparation that fails is an application that fails. -/
theorem fails_of_examine {f : Fault} {d : Draft} (h : s.1.examine scope p s.2 = (.error f, d)) :
    prepare scope p s = (.error f, s.1, d) ∧ s.1.apply scope p s.2 = (.error f, d) := by
  constructor
  · rw [prepare_eq, draw, ExceptT.mk, h]
  · rw [apply_eq, bind_of_error h]

/-- A preparation that succeeds is committed, as the application that it is. -/
theorem commits_of_examine {d : Draft} (hr : s.1.Sound)
    (h : s.1.examine scope p s.2 = (.ok (ms, region), d)) :
    prepare scope p s = (.ok (ms, region), s.1, d) ∧
      ∃ b r d', commit p ms region (s.1, d) = (.ok b, r, d') ∧
        s.1.apply scope p s.2 = (.ok (b, r), d') := by
  have hacc := accepted_of_examine h
  have hres := resolve_ok hr hacc.found
  refine ⟨?_, _, _, _, commit_eq (s := (s.1, d)) hr hres hacc.node region, ?_⟩
  · rw [prepare_eq, draw, ExceptT.mk, h]
  · rw [apply_eq, bind_of_ok h]
    rfl

/-- **Applying in place is applying.** Where an application fails, the registry is the one from
before. -/
theorem applyInPlace_eq (hr : s.1.Sound) (scope : Scope) (p : Primitive) :
    applyInPlace scope p s =
      match s.1.apply scope p s.2 with
      | (.ok (b, r), d) => (.ok b, r, d)
      | (.error f, d) => (.error f, s.1, d) := by
  rcases h : s.1.examine scope p s.2 with ⟨f | ⟨ms, region⟩, d⟩
  · obtain ⟨hprepare, happly⟩ := fails_of_examine h
    rw [happly]
    exact bind_of_error hprepare
  · obtain ⟨hprepare, b, r, d', hcommit, happly⟩ := commits_of_examine hr h
    rw [happly, applyInPlace, bind_of_ok hprepare]
    exact hcommit

/-- A history in place is a history. -/
theorem tryInPlace_eq (hs : s.1.Sound) (scope : Scope) (ps : List Primitive) :
    tryInPlace scope s ps = attemptAll scope s ps := by
  have hone : ∀ {s : Registry × Draft} (p : Primitive), s.1.Sound →
      (applyInPlace scope p s).2 = attempt scope s p := by
    intro s p hs
    rw [applyInPlace_eq hs, attempt]
    rcases s.1.apply scope p s.2 with ⟨f | ⟨b, r⟩, d⟩ <;> rfl
  induction ps generalizing s with
  | nil => rfl
  | cons p ps ih =>
    have hnext : (attempt scope s p).1.Sound := sound_attemptAll hs [p]
    rw [attemptAll_cons, ← ih hnext, tryInPlace, List.foldl_cons, hone p hs]
    rfl

/-- **A primitive that fails changes nothing**, after any history: the registry is in all of its
parts as it was before. What fails, fails while it is prepared; once the members begin to be
taken, the application goes through, with the result that `Registry.apply` has. -/
theorem failure_changes_nothing {blocks : List Block} {d d' : Draft}
    (hseed : seed scope buffers blocks d = (.ok r, d')) (ps : List Primitive) (p : Primitive) :
    let s := tryInPlace scope (r, d') ps
    s = attemptAll scope (r, d') ps ∧
      (∀ f s', applyInPlace scope p s = (.error f, s') →
        s'.1 = s.1 ∧ prepare scope p s = (.error f, s') ∧
          s.1.apply scope p s.2 = (.error f, s'.2)) ∧
      ∀ ms region s', prepare scope p s = (.ok (ms, region), s') →
        s'.1 = s.1 ∧ ∃ b s'', commit p ms region s' = (.ok b, s'') ∧
          s.1.apply scope p s.2 = (.ok (b, s''.1), s''.2) := by
  intro s
  have hr : r.Sound := (seed_ok hseed).1
  have hhistory : s = attemptAll scope (r, d') ps := tryInPlace_eq hr scope ps
  have hs : s.1.Sound := hhistory ▸ sound_attemptAll (s := (r, d')) hr ps
  have hkeeps : ∀ {x s'}, prepare scope p s = (x, s') → s'.1 = s.1 := by
    intro x s' h
    have hprepare := keeps_prepare scope p s
    rwa [h] at hprepare
  refine ⟨hhistory, ?_, ?_⟩
  · intro f s' h
    rcases hexamine : s.1.examine scope p s.2 with ⟨f' | ⟨ms, region⟩, d⟩
    · obtain ⟨hprepare, happly⟩ := fails_of_examine hexamine
      rw [applyInPlace, bind_of_error hprepare] at h
      cases h
      exact ⟨hkeeps hprepare, hprepare, happly⟩
    · obtain ⟨-, b, r', d', -, happly⟩ := commits_of_examine hs hexamine
      rw [applyInPlace_eq hs, happly] at h
      cases h
  · intro ms region s' h
    rcases hexamine : s.1.examine scope p s.2 with ⟨f | ⟨ms', region'⟩, d⟩
    · rw [(fails_of_examine hexamine).1] at h
      cases h
    · obtain ⟨hprepare, b, r', d', hcommit, happly⟩ := commits_of_examine hs hexamine
      rw [hprepare] at h
      cases h
      exact ⟨hkeeps hprepare, b, _, hcommit, happly⟩

end Registry

namespace Reusing

/-- What is left after the row, on its own. -/
def rest : Primitive :=
  { kind := .seq, sequence := ["first"] }

/-- A second row fails and changes nothing, because the block that it names is gone. What is left
can still be taken, under a label that is made up. -/
theorem second_row_fails :
    ∃ r d, Registry.seed {} {} blocks {} = (.ok r, d) ∧
      let s := Registry.tryInPlace {} (r, d) [row]
      (∃ f s', Registry.applyInPlace {} row s = (.error f, s') ∧ s'.1 = s.1) ∧
        ∃ ms region s', Registry.prepare {} rest s = (.ok (ms, region), s') ∧ s'.1 = s.1 ∧
          ∃ b s'', Registry.commit rest ms region s' = (.ok b, s'') ∧ b.label = "seq_0" := by
  obtain ⟨r, d, hseed, ⟨f, s', hfails⟩, ms, region, t, hprepare, b, t', hcommit, hlabel⟩ :
      ∃ r d, Registry.seed {} {} blocks {} = (.ok r, d) ∧
        (∃ f s', Registry.applyInPlace {} row (Registry.tryInPlace {} (r, d) [row]) =
          (.error f, s')) ∧
        ∃ ms region t,
          Registry.prepare {} rest (Registry.tryInPlace {} (r, d) [row]) =
            (.ok (ms, region), t) ∧
          ∃ b t', Registry.commit rest ms region t = (.ok b, t') ∧ b.label = "seq_0" := by
    refine ⟨_, _, rfl, ⟨_, _, rfl⟩, _, _, _, rfl, ?_⟩
    exact ⟨_, _, rfl, rfl⟩
  obtain ⟨-, hkeeps, -⟩ := Registry.failure_changes_nothing hseed [row] row
  obtain ⟨-, -, hcommits⟩ := Registry.failure_changes_nothing hseed [row] rest
  exact ⟨r, d, hseed, ⟨f, s', hfails, (hkeeps f s' hfails).1⟩, ms, region, t, hprepare,
    (hcommits ms region t hprepare).1, b, t', hcommit, hlabel⟩

end Reusing

end GoLift
