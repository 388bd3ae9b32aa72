import GoLift.Decompile
import GoLift.Proofs.Assembly
import GoLift.Proofs.Region.Vetted

/-!
# What a decompiled function went through

A function with blocks is decompiled exactly if each of its phases comes to a result
(`Function.decompile_ok_iff`). What the phases came to is a `Reduction`: the registry that was
seeded, the primitives of the feed, and the block that they left.

**Being decompiled says little about the primitives**: each was applied to members that were
vetted (`Function.decompile_vetted`), and no transfer of control beside those of the condition
was compared with the graph. `OnePrimitive` has functions that are decompiled although a primitive
drops a branch of its members.
-/

set_option autoImplicit false

namespace GoLift

open DraftM

/-! ### Phases -/

theorem DraftM.inPhase_ok {α : Type} {function phase : String} {x : DraftM α} {d d' : Draft}
    {a : α} : inPhase function phase x d = (.ok a, d') ↔ x d = (.ok a, d') := by
  unfold inPhase
  rcases x d with ⟨f | b, d₁⟩
  · constructor <;>
    · intro h
      cases h
  · rfl

/-- What the phases of a function come to. -/
structure Reduction where
  setup : Setup
  /-- The registry of the blocks, and the draft after seeding it. -/
  registry : Registry
  draft : Draft
  prims : List Primitive
  /-- The block that is left. -/
  block : WorkBlock

namespace Reduction

/-- The registry and the draft after some of the primitives. -/
def state (run : Reduction) (before : List Primitive) : Registry × Draft :=
  Registry.attemptAll run.setup.scope (run.registry, run.draft) before

/-- A primitive made a block of some members, after the ones before it. -/
def Takes (run : Reduction) (before : List Primitive) (p : Primitive) (ms : Members)
    (b : WorkBlock) : Prop :=
  (run.state before).1.resolve p = .ok ms ∧
    ∃ s', Registry.Applies run.setup.scope (run.state before) p b s'

end Reduction

/-- The phases of a function come to a result. -/
structure Function.Decompiles (f : Function) (globals : List String) (feeds : FeedSource)
    (run : Reduction) : Prop where
  setup : f.setup globals = .ok run.setup
  seeded : ∃ buffers d, phiBuffers run.setup.scope f.body run.setup.draft = (.ok buffers, d) ∧
    Registry.seed run.setup.scope buffers f.body d = (.ok run.registry, run.draft)
  fed : feeds f.name = .ok run.prims
  finished : ∃ d decl d',
    run.registry.reduce run.setup.scope run.prims run.draft = (.ok run.block, d) ∧
      f.assemble run.setup.scope run.setup.params run.block d = (.ok decl, d')

variable {f : Function} {globals : List String} {feeds : FeedSource} {run : Reduction}

/-- What the phases hand to each other. -/
theorem Function.decompileM_phases {setup : Setup} {decl : Go.FuncDecl} {d D : Draft}
    (h : f.decompileM setup feeds d = (.ok decl, D)) :
    ∃ buffers d₁ r d₂ prims b d₃ d₄, phiBuffers setup.scope f.body d = (.ok buffers, d₁) ∧
      Registry.seed setup.scope buffers f.body d₁ = (.ok r, d₂) ∧ feeds f.name = .ok prims ∧
      r.reduce setup.scope prims d₂ = (.ok b, d₃) ∧
      f.assemble setup.scope setup.params b d₃ = (.ok decl, d₄) ∧
      D = { d₄ with trace := D.trace } := by
  obtain ⟨buffers, d₁, hphi, h⟩ := bind_ok h
  obtain ⟨r, d₂, hseed, h⟩ := bind_ok h
  obtain ⟨prims, d₃, hfeed, h⟩ := bind_ok h
  obtain ⟨b, d₄, hreduce, h⟩ := bind_ok h
  obtain ⟨decl', d₅, hassemble, h⟩ := bind_ok h
  cases h
  obtain ⟨hfed, rfl⟩ := ofExcept_ok (inPhase_ok.1 hfeed)
  exact ⟨buffers, d₁, r, d₃, prims, b, d₄, d₅, inPhase_ok.1 hphi, inPhase_ok.1 hseed, hfed,
    inPhase_ok.1 hreduce, inPhase_ok.1 hassemble, rfl⟩

theorem Function.decompileM_ok {setup : Setup} {decl : Go.FuncDecl} {d : Draft}
    (hsetup : f.setup globals = .ok setup)
    (h : f.decompileM setup feeds setup.draft = (.ok decl, d)) :
    ∃ run, f.Decompiles globals feeds run := by
  obtain ⟨buffers, d₁, r, d₂, prims, b, d₃, d₄, hphi, hseed, hfed, hreduce, hassemble, -⟩ :=
    decompileM_phases h
  exact ⟨{ setup, registry := r, draft := d₂, prims, block := b }, hsetup,
    ⟨buffers, d₁, hphi, hseed⟩, hfed, d₃, decl, d₄, hreduce, hassemble⟩

theorem Function.Decompiles.decompileM (h : f.Decompiles globals feeds run) :
    ∃ decl d, f.decompileM run.setup feeds run.setup.draft = (.ok decl, d) := by
  obtain ⟨buffers, d₁, hphi, hseed⟩ := h.seeded
  obtain ⟨d₂, decl, d₃, hreduce, hassemble⟩ := h.finished
  have hfeed : ofExcept (feeds f.name) run.draft = (.ok run.prims, run.draft) := by
    rw [ofExcept_apply, h.fed]
  unfold Function.decompileM
  simp only [bind_of_ok (inPhase_ok.2 hphi), bind_of_ok (inPhase_ok.2 hseed),
    bind_of_ok (inPhase_ok.2 hfeed), bind_of_ok (inPhase_ok.2 hreduce),
    bind_of_ok (inPhase_ok.2 hassemble)]
  exact ⟨_, _, rfl⟩

/-- **A function with blocks is decompiled exactly if all its phases come to a result.** -/
theorem Function.decompile_ok_iff {blocks : List Block} (hblocks : f.blocks = some blocks) :
    (∃ result events, f.decompile globals feeds = (.ok result, events)) ↔
      ∃ run, f.Decompiles globals feeds run := by
  constructor
  · rintro ⟨result, events, h⟩
    simp only [Function.decompile, hblocks] at h
    split at h
    · cases h
    · next setup hsetup =>
      split at h
      · next decl d hdecl => exact decompileM_ok hsetup hdecl
      · cases h
  · rintro ⟨run, h⟩
    obtain ⟨decl, d, hdecl⟩ := h.decompileM
    simp only [Function.decompile, hblocks, h.setup, hdecl]
    exact ⟨_, _, rfl⟩

/-! ### What was checked -/

/-- A block whose end is a statement leaves the function, or control never falls out of it. -/
theorem ensures_endStmts (scope : Scope) (b : WorkBlock) :
    Ensures (endStmts scope b) (fun _ => b.terminator = none ∨ Region.leaves b = true) := by
  unfold endStmts
  split
  · next hnone => exact .pure (.inl hnone)
  · next t ht =>
    cases t with
    | ret _ | unreachable => exact fun _ _ _ _ => .inr (by rw [Region.leaves, ht]; rfl)
    | br _ | condBr _ _ _ | switch _ _ _ | unknown _ => exact .refuse _ _

namespace Function.Decompiles

theorem block_ends (h : f.Decompiles globals feeds run) :
    run.block.terminator = none ∨ Region.leaves run.block = true := by
  obtain ⟨d, decl, d', -, hassemble⟩ := h.finished
  obtain ⟨vars, ending, d₁, -, hend, -, -⟩ := assemble_ok hassemble
  exact hend.ensured (ensures_endStmts _ _)

/-- Every primitive was applied, and one block is left. -/
theorem allApply (h : f.Decompiles globals feeds run) :
    Registry.AllApply run.setup.scope (run.registry, run.draft) run.prims ∧
      (run.state run.prims).1.live = [run.block] := by
  obtain ⟨d, decl, d', hreduce, -⟩ := h.finished
  exact Registry.allApply_of_reduce hreduce

/-- Control enters the block that is left where it enters a block of the function. -/
theorem block_entry (h : f.Decompiles globals feeds run) (hnames : ∀ b ∈ f.body, b.name ≠ "") :
    run.block.entry ∈ f.body.map Block.name := by
  obtain ⟨buffers, d, -, hseed⟩ := h.seeded
  refine (Registry.entered_attempts hnames hseed run.prims).names run.block ?_
  show run.block ∈ (run.state run.prims).1.live
  rw [h.allApply.2]
  exact List.mem_singleton_self run.block

/-- Each primitive took members that were vetted, and its block ends as they say. -/
theorem vetted (h : f.Decompiles globals feeds run) {before after : List Primitive}
    {p : Primitive} (hp : run.prims = before ++ p :: after) :
    ∃ ms b, run.Takes before p ms b ∧ Region.Vetted p.kind ms b.terminator := by
  obtain ⟨buffers, d, -, hseed⟩ := h.seeded
  have hr : (run.state before).1.Sound :=
    Registry.sound_attemptAll (s := (run.registry, run.draft)) (Registry.seed_ok hseed).1 before
  obtain ⟨b, s', happ⟩ := h.allApply.1 before p after hp
  obtain ⟨ms, region, happlied⟩ := Registry.apply_ok hr happ
  refine ⟨ms, b, ⟨happlied.found, s', happ⟩, ?_⟩
  rw [happlied.collapsed.terminator]
  exact happlied.built.vetted

end Function.Decompiles

/-- **Each primitive of a function that is decompiled was applied to members that were vetted**,
and the block that is left does not go to another one. A function without blocks needs no
primitives. -/
theorem Function.decompile_vetted {result : FunctionResult} {events : List Event}
    (h : f.decompile globals feeds = (.ok result, events)) :
    f.blocks = none ∨ ∃ run, f.Decompiles globals feeds run ∧
      (∀ before p after, run.prims = before ++ p :: after →
        ∃ ms b, run.Takes before p ms b ∧ Region.Vetted p.kind ms b.terminator) ∧
      (run.block.terminator = none ∨ Region.leaves run.block = true) ∧
      ((∀ b ∈ f.body, b.name ≠ "") → run.block.entry ∈ f.body.map Block.name) := by
  cases hblocks : f.blocks with
  | none => exact .inl rfl
  | some blocks =>
    obtain ⟨run, hrun⟩ := (Function.decompile_ok_iff hblocks).1 ⟨result, events, h⟩
    exact .inr ⟨run, hrun, fun before p after hp => hrun.vetted hp, hrun.block_ends,
      hrun.block_entry⟩

/-! ### Functions of one primitive -/

namespace OnePrimitive

/-- A function of blocks without instructions, and one primitive with the places of its
members. -/
structure Case where
  ends : List (String × Terminator)
  kind : Kind
  roles : List (String × Nat)

namespace Case

/-- The function, which returns nothing. -/
def function (c : Case) : Function :=
  { name := "f", ret := .void,
    blocks := some (c.ends.map fun e => { name := e.1, terminator := some e.2 }) }

/-- The working blocks, each entered by its label. -/
def arena (c : Case) : List WorkBlock :=
  c.ends.mapIdx fun i e => { handle := i, label := e.1, entry := e.1, terminator := some e.2 }

/-- The registry of the blocks. -/
def registry (c : Case) : Registry :=
  { arena := c.arena, byLabel := ⟨c.ends.mapIdx fun i e => (e.1, i)⟩ }

/-- The members in their roles. -/
def members (c : Case) : Members :=
  c.roles.filterMap fun e => c.arena[e.2]?.map (e.1, ·)

/-- The primitive; a sequence lists its members. -/
def prim (c : Case) : Primitive :=
  let named := c.members.map fun m => (m.1, m.2.label)
  if c.kind = .seq then { kind := .seq, sequence := named.map Prod.snd }
  else { kind := c.kind, roles := ⟨named⟩ }

/-- The feed of the one primitive. -/
def feed (c : Case) : FeedSource := fun _ => .ok [c.prim]

/-- The function is decompiled, its primitive takes the members, and control enters the block
that is left by a label. -/
def Accepts (c : Case) (entry : String) : Prop :=
  ∃ result events run b, c.function.decompile [] c.feed = (.ok result, events) ∧
    c.function.Decompiles [] c.feed run ∧ run.Takes [] c.prim c.members b ∧
    run.block.entry = entry

variable {c : Case}

theorem signature_eq : c.function.signature [] = pure {} := by
  simp [Function.signature, goSignature, goTypes, goResults, namelessFields, function]

theorem assembles {b : WorkBlock} {d : Draft} (hd : d.declared = [])
    (hb : b.terminator = some (.ret none)) :
    ∃ decl d', c.function.assemble {} [] b d = (.ok decl, d') := by
  have hget : (get : DraftM Draft) d = (.ok d, d) := rfl
  have hvars : varStmts d.declared d = (.ok [], d) := by
    rw [hd]
    rfl
  have hend : endStmts {} b d = (.ok [.ret []], d) := by
    unfold endStmts
    rw [hb]
    rfl
  simp only [Function.assemble, signature_eq, bind_of_ok hget, bind_of_ok hvars, bind_of_ok hend]
  exact ⟨_, _, rfl⟩

/-- The members of a primitive that fills only the roles of its kind are found. -/
theorem found (hlisted : c.prim.isListed = false)
    (hextra : c.prim.roles.entries.filter
      (fun e => !(c.prim.kind.roles?.getD []).contains e.1) = [])
    (h : c.registry.resolveFrom c.prim.describe []
      ((c.prim.kind.roles?.getD []).filterMap
        (fun role => (c.prim.roles.get? role).map (role, ·))) = .ok c.members) :
    c.registry.resolve c.prim = .ok c.members := by
  have hmembers : c.prim.members = (c.prim.kind.roles?.getD []).filterMap
      (fun role => (c.prim.roles.get? role).map (role, ·)) := by
    simp only [Primitive.members, hlisted, Bool.false_eq_true, if_false, hextra,
      List.mergeSort_nil, List.append_nil]
  rw [Registry.resolve, hmembers, h]

/-- A primitive that leaves one block, from which control leaves the function, is all that is
needed. -/
theorem accepts {buffers : Table (List Go.Stmt)} {region : Region} {entry : String}
    (hsetup : c.function.setup [] = .ok { scope := {}, draft := {}, params := [] })
    (hphi : phiBuffers {} c.function.body {} = (.ok buffers, {}))
    (hseed : Registry.seed {} buffers c.function.body {} = (.ok c.registry, {}))
    (hacc : Registry.Accepted {} c.prim c.registry {} c.members region {})
    (hlive : (c.registry.collapse c.prim c.members region).2.live =
      [(c.registry.collapse c.prim c.members region).1])
    (hend : (c.registry.collapse c.prim c.members region).1.terminator = some (.ret none))
    (hentry : (c.registry.collapse c.prim c.members region).1.entry = entry) :
    c.Accepts entry := by
  obtain ⟨trace, happly⟩ := hacc.apply
  have hreduce : c.registry.reduce {} [c.prim] {} =
      (.ok (c.registry.collapse c.prim c.members region).1, { trace }) := by
    have hall : c.registry.applyAll {} [c.prim] {} =
        (.ok (c.registry.collapse c.prim c.members region).2, { trace }) :=
      (bind_of_ok happly).trans rfl
    rw [Registry.reduce, bind_of_ok hall, ofExcept_apply, Registry.survivor_eq_ok.2 hlive]
  obtain ⟨decl, d', hassemble⟩ := assembles (c := c) (d := { trace }) rfl
    hend
  have hrun : c.function.Decompiles [] c.feed
      { setup := { scope := {}, draft := {}, params := [] }, registry := c.registry, draft := {},
        prims := [c.prim], block := (c.registry.collapse c.prim c.members region).1 } :=
    ⟨hsetup, ⟨buffers, {}, hphi, hseed⟩, rfl, _, decl, d', hreduce, hassemble⟩
  obtain ⟨result, events, hdecompile⟩ := (Function.decompile_ok_iff rfl).2 ⟨_, hrun⟩
  exact ⟨result, events, _, _, hdecompile, hrun, ⟨hacc.found, (_, _), happly⟩, hentry⟩

end Case

/-- A condition that always holds. -/
def go : Value := .const (.int 1) (.int 1)

/-- A condition with a body, and the block after both. -/
def guarded : Case where
  ends := [("entry", .condBr go "body" "done"), ("body", .br "done"), ("done", .ret none)]
  kind := .ifThen
  roles := [("cond", 0), ("body", 1), ("exit", 2)]

/-- Its members are vetted. -/
theorem guarded_vetted :
    ∃ result events, guarded.function.decompile [] guarded.feed = (.ok result, events) ∧
      ∃ run, guarded.function.Decompiles [] guarded.feed run ∧
        (∀ before p after, run.prims = before ++ p :: after →
          ∃ ms b, run.Takes before p ms b ∧ Region.Vetted p.kind ms b.terminator) ∧
        run.block.entry ∈ guarded.function.body.map Block.name := by
  have haccepts : guarded.Accepts "entry" :=
    Case.accepts rfl rfl rfl ⟨rfl, Case.found rfl rfl rfl, rfl, rfl⟩ rfl rfl rfl
  obtain ⟨result, events, -, -, h, -⟩ := haccepts
  obtain ⟨run, hrun, hvetted, -, hentry⟩ :=
    (Function.decompile_vetted h).resolve_left (Option.some_ne_none _)
  exact ⟨result, events, h, run, hrun, hvetted, hentry (by decide)⟩

/-! ### Branches that are dropped -/

/-- A row whose first block goes past the second. -/
def passing : Case where
  ends := [("entry", .br "b"), ("a", .ret none), ("b", .ret none)]
  kind := .seq
  roles := [("member", 0), ("member", 1), ("member", 2)]

/-- A row whose first block may go to several places. -/
def forking : Case where
  ends := [("entry", .switch go "done" []), ("done", .ret none)]
  kind := .seq
  roles := [("member", 0), ("member", 1)]

/-- A condition whose body stays where it is. -/
def staying : Case where
  ends := [("entry", .condBr go "body" "done"), ("body", .br "body"), ("done", .ret none)]
  kind := .ifThen
  roles := [("cond", 0), ("body", 1), ("exit", 2)]

/-- A condition whose two arms part. -/
def parting : Case where
  ends :=
    [("entry", .condBr go "a" "b"), ("a", .br "done"), ("b", .br "b"), ("done", .ret none)]
  kind := .ifElse
  roles := [("cond", 0), ("body_true", 1), ("body_false", 2), ("exit", 3)]

/-- A loop whose body does not go back to the condition. -/
def once : Case where
  ends := [("entry", .condBr go "body" "done"), ("body", .br "done"), ("done", .ret none)]
  kind := .preLoop
  roles := [("cond", 0), ("body", 1), ("exit", 2)]

/-- A loop whose body does not go on to the condition. -/
def untested : Case where
  ends := [("entry", .br "done"), ("latch", .condBr go "entry" "done"), ("done", .ret none)]
  kind := .postLoop
  roles := [("cond", 1), ("body", 0), ("exit", 2)]

/-- A condition whose exit member is not where control joins. -/
def detached : Case where
  ends := [("entry", .condBr go "body" "entry"), ("body", .br "entry"), ("done", .ret none)]
  kind := .ifThen
  roles := [("cond", 0), ("body", 1), ("exit", 2)]

/-- A row that is not entered by the first block of the function. -/
def skipping : Case where
  ends := [("done", .ret none), ("entry", .br "done")]
  kind := .seq
  roles := [("member", 1), ("member", 0)]

theorem not_realised_passing : ¬ Region.Realised .seq passing.members := by
  intro h
  have hgo := h.seq rfl [] _ _ _ rfl
  exact absurd (hgo.eq rfl) (by decide)

theorem not_realised_forking : ¬ Region.Realised .seq forking.members := by
  intro h
  have hlast : forking.members.getLast? = forking.members.head? :=
    h.forks _ List.mem_cons_self rfl
  have hlabels := congrArg (Option.map fun m => m.2.label) hlast
  exact absurd hlabels (by decide)

theorem not_realised_staying : ¬ Region.Realised .ifThen staying.members := by
  intro h
  have hgo := h.ifThen (.inl rfl) _ "done" rfl (.conditional (.inl rfl) rfl rfl (.towards rfl))
  exact absurd (hgo.eq rfl) (by decide)

theorem not_realised_parting : ¬ Region.Realised .ifElse parting.members := by
  intro h
  obtain ⟨join, hfirst, hsecond⟩ := h.ifElse rfl _ _ rfl rfl
  exact absurd ((hfirst.eq rfl).trans (hsecond.eq rfl).symm) (by decide)

theorem not_realised_once : ¬ Region.Realised .preLoop once.members := by
  intro h
  have hgo := h.preLoop rfl _ _ rfl rfl
  exact absurd (hgo.eq rfl) (by decide)

theorem not_realised_untested : ¬ Region.Realised .postLoop untested.members := by
  intro h
  have hgo : Region.GoesOn _ _ := .inl (h.postLoop rfl _ _ rfl rfl)
  exact absurd (hgo.eq rfl) (by decide)

theorem not_realised_detached : ¬ Region.Realised .ifThen detached.members := by
  intro h
  have hexit := h.exit _ "entry" rfl (.conditional (.inl rfl) rfl rfl (.towards rfl))
  exact absurd hexit (by decide)

/-- **None of the transfers between other members is compared with the graph**: each of these
functions is decompiled, though the primitive drops a branch, or the block that is left is not
entered where the function is. -/
theorem strays_accepted :
    (passing.Accepts "entry" ∧ ¬ Region.Realised passing.kind passing.members) ∧
    (forking.Accepts "entry" ∧ ¬ Region.Realised forking.kind forking.members) ∧
    (staying.Accepts "entry" ∧ ¬ Region.Realised staying.kind staying.members) ∧
    (parting.Accepts "entry" ∧ ¬ Region.Realised parting.kind parting.members) ∧
    (once.Accepts "entry" ∧ ¬ Region.Realised once.kind once.members) ∧
    (untested.Accepts "entry" ∧ ¬ Region.Realised untested.kind untested.members) ∧
    (detached.Accepts "entry" ∧ ¬ Region.Realised detached.kind detached.members) ∧
    skipping.Accepts "entry" ∧ skipping.function.body.head?.map Block.name ≠ some "entry" := by
  refine ⟨⟨?_, not_realised_passing⟩, ⟨?_, not_realised_forking⟩, ⟨?_, not_realised_staying⟩,
    ⟨?_, not_realised_parting⟩, ⟨?_, not_realised_once⟩, ⟨?_, not_realised_untested⟩,
    ⟨?_, not_realised_detached⟩, ?_, by decide⟩
  -- Listed members are found as they are; roles are looked up first.
  · exact Case.accepts rfl rfl rfl ⟨rfl, rfl, rfl, rfl⟩ rfl rfl rfl
  · exact Case.accepts rfl rfl rfl ⟨rfl, rfl, rfl, rfl⟩ rfl rfl rfl
  · exact Case.accepts rfl rfl rfl ⟨rfl, Case.found rfl rfl rfl, rfl, rfl⟩ rfl rfl rfl
  · exact Case.accepts rfl rfl rfl ⟨rfl, Case.found rfl rfl rfl, rfl, rfl⟩ rfl rfl rfl
  · exact Case.accepts rfl rfl rfl ⟨rfl, Case.found rfl rfl rfl, rfl, rfl⟩ rfl rfl rfl
  · exact Case.accepts rfl rfl rfl ⟨rfl, Case.found rfl rfl rfl, rfl, rfl⟩ rfl rfl rfl
  · exact Case.accepts rfl rfl rfl ⟨rfl, Case.found rfl rfl rfl, rfl, rfl⟩ rfl rfl rfl
  · exact Case.accepts rfl rfl rfl ⟨rfl, rfl, rfl, rfl⟩ rfl rfl rfl

end OnePrimitive

end GoLift
