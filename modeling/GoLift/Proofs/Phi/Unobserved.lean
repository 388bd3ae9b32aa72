import GoLift.Proofs.Phi.Elimination
import GoLift.Proofs.Phi.Lost

/-!
# What is not observed makes no difference

`Observed` speaks of the bindings that blocks mention. Here it is shown to be about
runs: **working blocks that are entered in two states walk alike, if the states differ
only in variables of phis that are not observed** (`workStep_simulates_differ`). So
where no copy is lost, it does not matter for a walk what a block has assigned for an
edge that is not taken.

The variables of phis have to stand for nothing but the phis (`Mentioned`); an identifier
of something else could otherwise read one.
-/

set_option autoImplicit false

namespace GoLift

open GoLift.Flow (Reached)
open Go (Expr Stmt Host Env Action State Runs Acts)
open DraftM

/-- The variable of a phi stands only where the phi is mentioned. -/
structure Mentioned (scope : Scope) (blocks : List Block) (D : Draft) : Prop where
  code : ∀ b ∈ blocks, ∀ ss, (Lower.instrs scope b.instrs D).1 = .ok ss →
    ∀ x ∈ Stmt.allIdents ss, ∀ s ∈ blocks, ∀ φ ∈ s.phis, D.names.local? φ.dest = some x →
      φ.dest ∈ b.reads
  ends : ∀ b ∈ blocks, ∀ v ∈ b.endOperands, ∀ e, (v.lower scope D).1 = .ok e →
    ∀ x ∈ e.idents, ∀ s ∈ blocks, ∀ φ ∈ s.phis, D.names.local? φ.dest = some x →
      φ.dest ∈ v.locals
  incoming : ∀ b ∈ blocks, ∀ φ ∈ b.phis, ∀ i ∈ φ.incoming, i.2.Clear scope D

/-- The states differ at most in the variables of some bindings. -/
structure Differ {H : Host} (t : NameTable) (X : String → Prop) (σ τ : State H) : Prop where
  world : σ.world = τ.world
  dom : ∀ x, (σ.vars x).isSome = true ↔ x ∈ t.used
  dom' : ∀ x, (τ.vars x).isSome = true ↔ x ∈ t.used
  vars : ∀ x, σ.vars x = τ.vars x ∨ ∃ raw, t.local? raw = some x ∧ X raw

/-- The binding of a phi that is not observed from a label. -/
def Unseen (blocks : List Block) (l x : String) : Prop :=
  (∃ s ∈ blocks, ∃ φ ∈ s.phis, φ.dest = x) ∧ ∀ b ∈ blocks, b.name = l → ¬ Observed blocks x b

variable {H : Host} {scope : Scope} {blocks : List Block} {D : Draft} {b p s : Block}
  {w : WorkBlock} {σ τ : State H}

/-! ### The copies of a block -/

theorem phiDests_sublist (is : List Instr) :
    ((is.filterMap Instr.phi?).map Phi.dest).Sublist (is.filterMap Instr.dest?) := by
  induction is with
  | nil => exact .slnil
  | cons i is ih =>
    have hskip : ((is.filterMap Instr.phi?).map Phi.dest).Sublist
        ((i :: is).filterMap Instr.dest?) := by
      rw [List.filterMap_cons]
      split
      · exact ih
      · exact ih.cons _
    cases i with
    | phi dest type incoming => exact ih.cons_cons _
    | _ => exact hskip

/-- The copies of a block have different destinations. -/
theorem nodup_copyDests (hssa : Ssa blocks) (b : Block) : (b.copyDests blocks).Nodup := by
  have hall : blocks.flatMap Block.dests =
      (blocks.flatMap Block.instrs).filterMap Instr.dest? := by
    rw [List.filterMap_flatMap]
    rfl
  have hdistinct := hssa.distinct
  rw [hall] at hdistinct
  have hsub := b.dests_copies blocks
  rw [phis_eq_filterMap] at hsub
  exact hdistinct.sublist (hsub.trans (phiDests_sublist _))

/-- The values of copies are clear if those of phis are. -/
theorem Mentioned.clear (hm : Mentioned scope blocks D) {c : Copy} (hc : c ∈ b.copies blocks) :
    c.value.Clear scope D := by
  obtain ⟨s, hs, hc⟩ := List.mem_flatMap.1 hc
  rw [Block.copiesTo] at hc
  split at hc
  · obtain ⟨φ, hφ, hc⟩ := List.mem_filterMap.1 hc
    obtain ⟨v, hv, rfl⟩ := Option.map_eq_some_iff.1 hc
    obtain ⟨l₁, l₂, heq, -⟩ := List.lookup_eq_some_iff.1 hv
    exact hm.incoming s hs φ hφ (b.name, v) (by rw [heq]; simp)
  · cases hc

/-! ### One block -/

/-- What the instructions of a block look at, is seen. -/
theorem Differ.code (h : Differ D.names (Unseen blocks b.name) σ τ) (hb : b ∈ blocks)
    (hm : Mentioned scope blocks D) {ss : List Stmt}
    (hss : (Lower.instrs scope b.instrs D).1 = .ok ss) :
    ∀ x ∈ Stmt.allIdents ss, σ.vars x = τ.vars x := by
  intro x hx
  refine (h.vars x).resolve_right ?_
  rintro ⟨raw, hraw, ⟨s, hs, φ, hφ, rfl⟩, hunseen⟩
  exact hunseen b hb rfl (.reads (hm.code b hb ss hss x hx s hs φ hφ hraw))

/-- What the copies of a block look at, is seen. -/
theorem Differ.copies (h : Differ D.names (Unseen blocks b.name) σ τ) (hD : D.names.Sound)
    (hb : b ∈ blocks) (hm : Mentioned scope blocks D) {as : List (String × Expr)}
    (has : List.Forall₂ (Copy.Lowers scope D) (b.copies blocks) as) :
    ∀ x ∈ Expr.identsOf (as.map Prod.snd), σ.vars x = τ.vars x := by
  intro x hx
  obtain ⟨e, he, hx⟩ := Go.mem_identsOf.1 hx
  obtain ⟨a, ha, rfl⟩ := List.mem_map.1 he
  obtain ⟨c, hc, hlowers⟩ := mem_of_forall₂ has.flip ha
  refine (h.vars x).resolve_right ?_
  rintro ⟨raw, hraw, -, hunseen⟩
  rcases (hm.clear hc).idents hlowers.value with ⟨name, type, y, hvalue, hy, heq⟩ | hout
  · rw [heq, Expr.idents, List.mem_singleton] at hx
    obtain rfl : raw = name := hD.injective hraw (hx ▸ hy)
    have hread : raw ∈ b.copyReads blocks :=
      List.mem_flatMap.2 ⟨c, hc, by rw [hvalue, Value.locals]; exact List.mem_cons_self⟩
    exact hunseen b hb rfl (.copies hread)
  · exact hout x hx (hD.mem_used hraw)

theorem dom_setAll {ρ : Env H} (hdom : ∀ x, (ρ x).isSome = true ↔ x ∈ D.names.used)
    {xs : List String} (hxs : ∀ x ∈ xs, x ∈ D.names.used) (vs : List H.Value) (x : String) :
    (ρ.setAll xs vs x).isSome = true ↔ x ∈ D.names.used := by
  rw [← hdom x, (Env.setAll_moves (fun y hy => (hdom y).2 (hxs y hy)) vs).isSome x]

/-- After both states are given the values of the copies, they differ at most in what is
not assigned. -/
theorem Differ.assigned {X : String → Prop} (h : Differ D.names X σ τ) (hD : D.names.Sound)
    {copies : List Copy} {as : List (String × Expr)}
    (has : List.Forall₂ (Copy.Lowers scope D) copies as) {ts : List String}
    (hts : ∀ t ∈ ts, t ∈ D.names.used) {vs : List H.Value}
    (hlen : (as.map Prod.fst).length = vs.length) (world : H.World) :
    Differ D.names (fun x => X x ∧ x ∉ copies.map Copy.dest)
      ⟨(σ.vars.setAll ts vs).setAll (as.map Prod.fst) vs, world⟩
      ⟨(τ.vars.setAll ts vs).setAll (as.map Prod.fst) vs, world⟩ := by
  have hdests : ∀ x ∈ as.map Prod.fst, x ∈ D.names.used := by
    intro x hx
    obtain ⟨a, ha, rfl⟩ := List.mem_map.1 hx
    obtain ⟨c, -, hc⟩ := mem_of_forall₂ has.flip ha
    exact hD.mem_used hc.dest
  refine ⟨rfl, dom_setAll (dom_setAll h.dom hts vs) hdests vs,
    dom_setAll (dom_setAll h.dom' hts vs) hdests vs, fun x => ?_⟩
  by_cases hx : x ∈ as.map Prod.fst
  · exact .inl (Env.agreeOn_setAll hlen _ _ x hx)
  · rcases h.vars x with heq | ⟨raw, hraw, hX⟩
    · have hagree : Env.AgreeOn (· = x) σ.vars τ.vars := by
        rintro y rfl
        exact heq
      exact .inl ((hagree.setAll ts vs).setAll (as.map Prod.fst) vs x rfl)
    · refine .inr ⟨raw, hraw, hX, fun hmem => hx ?_⟩
      -- A copy to the binding would assign the variable.
      obtain ⟨c, hc, rfl⟩ := List.mem_map.1 hmem
      obtain ⟨a, ha, hlowers⟩ := mem_of_forall₂ has hc
      rw [hlowers.dest] at hraw
      exact List.mem_map.2 ⟨a, ha, Option.some.inj hraw⟩

/-- **A buffer leaves a difference only in what it does not assign.** -/
theorem Differ.buffer (h : Differ D.names (Unseen blocks b.name) σ τ) (hD : D.names.Sound)
    (hssa : Ssa blocks) (hb : b ∈ blocks) (hm : Mentioned scope blocks D)
    (hw : Emitted scope blocks D b w) {φ : Go.Flow H} (hrun : Runs (.stmts w.phiOut) σ φ) :
    (∃ o, φ = .done o ∧ Runs (.stmts w.phiOut) τ (.done o)) ∨
      ∃ σ₁ τ₁, φ = .next σ₁ ∧ Runs (.stmts w.phiOut) τ (.next τ₁) ∧
        Differ D.names (fun x => Unseen blocks b.name x ∧ x ∉ b.copyDests blocks) σ₁ τ₁ := by
  obtain ⟨as, has⟩ := hw.buffered
  obtain ⟨ts, hts, hacts⟩ := has.acts (H := H) hD (nodup_copyDests hssa b) fun c hc => hm.clear hc
  have hσ := hacts σ fun x hx => (h.dom x).2 hx
  have hτ := hacts τ fun x hx => (h.dom' x).2 hx
  -- Both evaluate the same values.
  have heval : Expr.evalAll H σ.vars (as.map Prod.snd) = Expr.evalAll H τ.vars (as.map Prod.snd) :=
    Go.evalAll_congr _ (h.copies hD hb hm has.lowers)
  rw [← heval] at hτ
  cases (hσ φ).1 hrun with
  | @next _ world hx =>
    obtain ⟨vs, hvs, rfl⟩ := Go.Action.map_eq_ok.1 hx
    have hvs' := hvs
    rw [h.world] at hvs'
    refine .inr ⟨_, ⟨(τ.vars.setAll ts vs).setAll (as.map Prod.fst) vs, world⟩, rfl, ?_, ?_⟩
    · exact (hτ _).2 (.next (Go.Action.map_eq_ok.2 ⟨vs, hvs', rfl⟩))
    · have hlen : (as.map Prod.fst).length = vs.length := by
        rw [← Go.evalAll_length hvs, List.length_map, List.length_map]
      exact h.assigned hD has.lowers (fun t ht => (hts t ht).used) hlen world
  | panic hx =>
    have hvs := Go.Action.map_eq_error.1 hx
    rw [h.world] at hvs
    exact .inl ⟨_, rfl, (hτ _).2 (.panic (Go.Action.map_eq_error.2 hvs))⟩

/-- What the end of a block looks at, is seen or has been assigned. -/
theorem Differ.ends (h : Differ D.names (fun x => Unseen blocks b.name x ∧
      x ∉ b.copyDests blocks) σ τ) (hb : b ∈ blocks) (hm : Mentioned scope blocks D) :
    ∀ v ∈ b.endOperands, ∀ e, (v.lower scope D).1 = .ok e → ∀ x ∈ e.idents,
      σ.vars x = τ.vars x := by
  intro v hv e he x hx
  refine (h.vars x).resolve_right ?_
  rintro ⟨raw, hraw, ⟨⟨s, hs, φ, hφ, rfl⟩, hunseen⟩, hassigned⟩
  have hread : φ.dest ∈ b.endReads :=
    List.mem_flatMap.2 ⟨v, hv, hm.ends b hb v hv e he x hx s hs φ hφ hraw⟩
  exact hunseen b hb rfl (.ends hassigned hread)

/-- A difference that a block does not assign is not seen where it goes. -/
theorem Differ.goto {l : String} (h : Differ D.names (fun x => Unseen blocks b.name x ∧
      x ∉ b.copyDests blocks) σ τ) (hb : b ∈ blocks) (hl : l ∈ b.targets) :
    Differ D.names (Unseen blocks l) σ τ := by
  refine ⟨h.world, h.dom, h.dom', fun x => (h.vars x).imp id ?_⟩
  rintro ⟨raw, hraw, ⟨hphi, hunseen⟩, hassigned⟩
  refine ⟨raw, hraw, hphi, ?_⟩
  rintro s hs rfl hobs
  exact hunseen b hb rfl (.later hassigned hs hl hobs)

/-- The copies and the end of a block leave no difference that its successors see. -/
theorem Differ.leaves (h : Differ D.names (Unseen blocks b.name) σ τ) (hD : D.names.Sound)
    (hssa : Ssa blocks) (hb : b ∈ blocks) (hm : Mentioned scope blocks D)
    (hw : Emitted scope blocks D b w) {n : Next H} (hleaves : w.Leaves scope D σ n) :
    ∃ m, w.Leaves scope D τ m ∧ n.Matches (fun l => Differ D.names (Unseen blocks l)) m := by
  cases hleaves with
  | @falls σ₁ _ hrun hfollows =>
    rcases h.buffer hD hssa hb hm hw hrun with ⟨o, ho, -⟩ | ⟨_, τ₁, hσ₁, hrun', h₁⟩
    · cases ho
    · cases hσ₁
      rw [hw.terminator] at hfollows
      have hagree : Env.AgreeOn (fun x => σ₁.vars x = τ₁.vars x) σ₁.vars τ₁.vars := fun _ hx => hx
      obtain ⟨m, hm', hmatch⟩ := hfollows.agree hagree (h₁.ends hb hm)
      rw [h₁.world, ← hw.terminator] at hm'
      refine ⟨m, .falls hrun' hm', ?_⟩
      cases hmatch with
      | @goto l σ₂ τ₂ hσ =>
        obtain ⟨hvars, rfl⟩ := hσ
        have hl : l ∈ b.targets := hfollows.mem_targets
        have h₂ := h₁.goto hb hl
        exact .goto ⟨rfl, hvars ▸ h₂.dom, h₂.dom', hvars ▸ h₂.vars⟩
      | out => exact .out
  | stops hrun =>
    rcases h.buffer hD hssa hb hm hw hrun with ⟨o, ho, hrun'⟩ | ⟨σ₁, τ₁, hσ₁, -⟩
    · cases ho
      exact ⟨_, .stops hrun', .out⟩
    · cases hσ₁

/-- **A block leaves no difference that its successors see.** -/
theorem Differ.passes (h : Differ D.names (Unseen blocks b.name) σ τ) (hD : D.names.Sound)
    (hssa : Ssa blocks) (hb : b ∈ blocks) (hm : Mentioned scope blocks D)
    (hw : Emitted scope blocks D b w) {n : Next H} (hpass : w.Passes scope D σ n) :
    ∃ m, w.Passes scope D τ m ∧ n.Matches (fun l => Differ D.names (Unseen blocks l)) m := by
  have hplain := hw.stmts.ensured (Lower.plain_instrs scope b.instrs)
  have hcode := h.code hb hm (hw.stmts.now (Lower.steady_instrs scope _))
  have hrest : Env.AgreeOn (fun x => σ.vars x = τ.vars x) σ.vars τ.vars := fun _ hx => hx
  rcases WorkBlock.passes_iff.1 hpass with ⟨o, hrun, rfl⟩ | ⟨σ₁, hrun, hleaves⟩
  · obtain ⟨φ, hrun', halike⟩ := hrun.congr hplain hcode hrest
    rw [h.world] at hrun'
    cases halike with
    | done => exact ⟨_, WorkBlock.passes_iff.2 (.inl ⟨o, hrun', rfl⟩), .out⟩
  · obtain ⟨φ, hrun', halike⟩ := hrun.congr hplain hcode hrest
    rw [h.world] at hrun'
    cases halike with
    | @next _ ρ hagree =>
      have hmoves := hrun.moves hplain hcode
      have hmoves' := hrun'.moves hplain hcode
      have h₁ : Differ D.names (Unseen blocks b.name) σ₁ ⟨ρ, σ₁.world⟩ := by
        refine ⟨rfl, fun x => (hmoves.isSome x ▸ h.dom x :), fun x => (hmoves'.isSome x ▸ h.dom' x :),
          fun x => ?_⟩
        by_cases hx : σ.vars x = τ.vars x
        · exact .inl (hagree x hx)
        · exact .inr ((h.vars x).resolve_left hx)
      obtain ⟨m, hm, hmatch⟩ := h₁.leaves hD hssa hb hm hw hleaves
      exact ⟨m, WorkBlock.passes_iff.2 (.inr ⟨_, hrun', hm⟩), hmatch⟩

/-! ### Walks -/

/-- **What is not observed makes no difference to a walk.** -/
theorem workStep_simulates_differ (hD : D.names.Sound) (hssa : Ssa blocks)
    (hm : Mentioned scope blocks D) {ws : List WorkBlock}
    (hws : List.Forall₂ (Emitted scope blocks D) blocks ws) :
    Simulates (fun l => Differ (H := H) D.names (Unseen blocks l)) (workStep scope D ws)
      (workStep scope D ws) := by
  rintro l σ τ n h ⟨w, hw, rfl, hpass⟩
  obtain ⟨b, hb, hemitted⟩ := mem_of_forall₂ hws.flip hw
  rw [hemitted.entry] at h
  obtain ⟨m, hpass', hmatch⟩ := h.passes hD hssa hb hm hemitted hpass
  exact ⟨m, ⟨w, hw, rfl, hpass'⟩, hmatch⟩

/-! ### Functions -/

/-- **Which functions lose no copies, and what that means for their runs.** A function in
static single assignment form loses no copy exactly if it is closed under its loops.
Then working blocks that come to a block from one that goes elsewhere too, walk alike
whatever the copies for the other edges have left behind. -/
theorem Function.noLostCopies {f : Function} {globals : List String} {su : Setup}
    {buffers : Table (List Stmt)} {d : Draft} {r : Registry}
    (hsetup : f.setup globals = .ok su)
    (hbuffers : phiBuffers su.scope f.body su.draft = (.ok buffers, d))
    (hseed : Registry.seed su.scope buffers f.body d = (.ok r, D)) (hssa : Ssa f.body) :
    (NoLostCopies f.body ↔ LoopClosed f.body) ∧
      (LoopClosed f.body → Mentioned su.scope f.body D →
        ∀ p ∈ f.body, Reached f.body p → ∀ s ∈ f.body, s.name ∈ p.targets →
          ∀ σ τ : State H, Differ D.names (Stray f.body p s) σ τ → ∀ trace n,
            Walk (workStep su.scope D r.live) s.name σ trace n →
              ∃ m, Walk (workStep su.scope D r.live) s.name τ trace m ∧
                n.Matches (fun l => Differ D.names (Unseen f.body l)) m) := by
  obtain ⟨hsound, hnames, ⟨copies, hof⟩, hws⟩ := Function.emitted hsetup hbuffers hseed
  have hiff := noLostCopies_iff hof hssa
  refine ⟨hiff, fun hclosed hm p hp hreached s hs hedge σ τ h trace n hwalk => ?_⟩
  have hnone := hiff.2 hclosed p hp hreached s hs hedge
  -- A stray copy is one for a phi, and is not observed.
  have hunseen : Differ D.names (Unseen f.body s.name) σ τ := by
    refine ⟨h.world, h.dom, h.dom', fun x => (h.vars x).imp id ?_⟩
    rintro ⟨raw, hraw, hstray⟩
    obtain ⟨-, t, ht, -, c, hc, rfl⟩ := id hstray
    obtain ⟨-, φ, hφ, hdest⟩ := Block.exists_phi_of_copiesTo hc
    refine ⟨c.dest, hraw, ⟨t, ht, φ, hφ, hdest⟩, fun b hb hname => ?_⟩
    rw [List.inj_on_of_nodup_map hnames hb hs hname]
    exact hnone c.dest hstray
  exact hwalk.simulates (workStep_simulates_differ hsound hssa hm hws) hunseen

/-! ### A loop whose variable leaves by a phi -/

namespace Leaving

/-- The type of the bindings. -/
def bit : Ty := .int 1

def entry : Block := { name := "entry", terminator := some (.br "loop") }

def loop : Block where
  name := "loop"
  instrs := [.phi "i" bit [("entry", .localRef "x" bit), ("loop", .localRef "y" bit)]]
  terminator := some (.condBr (.localRef "y" bit) "loop" "exit")

def exit : Block where
  name := "exit"
  instrs := [.phi "r" bit [("loop", .localRef "i" bit)]]
  terminator := some (.ret (some (.localRef "r" bit)))

def last : Function where
  name := "last"
  ret := bit
  params := [⟨"x", bit⟩, ⟨"y", bit⟩]
  blocks := some [entry, loop, exit]

/-- The function with its bindings named. -/
def named : Setup where
  scope := { bindings := ⟨[("x", bit), ("y", bit), ("i", bit), ("r", bit)]⟩ }
  draft := {
    names := {
      locals := ⟨[("x", "x"), ("y", "y"), ("i", "i"), ("r", "r")]⟩
      used := ["r", "i", "y", "x"] }
    declared := [("i", bit), ("r", bit)] }
  params := ["x", "y"]

/-- The loop hands on its variable before it assigns it. -/
def buffers : Table (List Stmt) :=
  ⟨[("entry", [.set (.ident "i") (.ident "x")]),
    ("loop", [.set (.ident "tmp0") (.ident "y"), .set (.ident "tmp1") (.ident "i"),
      .set (.ident "i") (.ident "tmp0"), .set (.ident "r") (.ident "tmp1")]),
    ("exit", [])]⟩

def drafted : Draft where
  names := {
    locals := ⟨[("x", "x"), ("y", "y"), ("i", "i"), ("r", "r")]⟩
    used := ["tmp1", "tmp0", "r", "i", "y", "x"]
    counter := 2 }
  declared := [("i", bit), ("r", bit), ("tmp0", bit), ("tmp1", bit)]
  trace := [.captured "loop" 2]

theorem buffers_eq :
    phiBuffers named.scope last.body named.draft = (.ok buffers, drafted) := by
  cbv

theorem mem_body {b : Block} (h : b ∈ last.body) : b = entry ∨ b = loop ∨ b = exit := by
  simpa [Function.body, last] using h

theorem ssa : Ssa last.body where
  distinct := by decide
  dominated t ht u hu x hx huse := by
    -- Every phi is used by its own block only.
    have hsame : t = u := by
      rcases mem_body ht with rfl | rfl | rfl
      · cases hx
      · obtain rfl : x = "i" := List.mem_singleton.1 hx
        rcases mem_body hu with rfl | rfl | rfl
        · exact absurd huse (by decide)
        · rfl
        · exact absurd huse (by decide)
      · obtain rfl : x = "r" := List.mem_singleton.1 hx
        rcases mem_body hu with rfl | rfl | rfl
        · exact absurd huse (by decide)
        · exact absurd huse (by decide)
        · rfl
    exact hsame ▸ Flow.Dominates.refl _ t

theorem dest_of_mem {s : Block} (hs : s ∈ last.body) {φ : Phi} (hφ : φ ∈ s.phis) :
    φ.dest = "i" ∨ φ.dest = "r" := by
  rcases mem_body hs with rfl | rfl | rfl
  · cases hφ
  · exact .inl (List.mem_singleton.1 hφ ▸ rfl)
  · exact .inr (List.mem_singleton.1 hφ ▸ rfl)

/-- Behind the loop its variable is not mentioned, and the exit does not come before
the loop. -/
theorem loopClosed : LoopClosed last.body := by
  intro p hp _ t ht htarget hdom s hs hne hedge φ hφ hlive
  rcases mem_body hp with rfl | rfl | rfl
  · rcases mem_body ht with rfl | rfl | rfl
    · exact absurd htarget (by decide)
    · rcases mem_body hs with rfl | rfl | rfl
      · exact absurd hedge (by decide)
      · exact hne rfl
      · exact absurd hedge (by decide)
    · exact absurd htarget (by decide)
  · rcases mem_body ht with rfl | rfl | rfl
    · exact absurd htarget (by decide)
    · obtain rfl : s = exit := by
        rcases mem_body hs with rfl | rfl | rfl
        · exact absurd hedge (by decide)
        · exact absurd rfl hne
        · rfl
      obtain rfl := List.mem_singleton.1 hφ
      cases hlive with
      | reads _ hx => cases hx
      | copies _ hx => exact absurd hx (by decide)
      | ends _ _ hx => exact absurd hx (by decide)
      | later _ _ hl _ => cases hl
    · have hpath : Flow.Path last.body entry [entry, loop] loop :=
        .cons (.tail _ (.head _)) (.head _) .single
      have hmem : exit.name ∈ [entry, loop].map Block.name :=
        List.mem_map_of_mem (hdom entry _ rfl hpath)
      exact absurd hmem (by decide)
  · cases htarget

theorem mentioned : Mentioned named.scope last.body drafted where
  code b hb ss hss := by
    rcases mem_body hb with rfl | rfl | rfl <;> cases hss <;> exact fun x hx => nomatch hx
  ends b hb v hv e he x hx s hs φ hφ hname := by
    have hdest := dest_of_mem hs hφ
    rcases mem_body hb with rfl | rfl | rfl
    · cases hv
    · obtain rfl := List.mem_singleton.1 hv
      cases he
      obtain rfl := List.mem_singleton.1 hx
      rcases hdest with hdest | hdest <;> rw [hdest] at hname <;> exact absurd hname (by decide)
    · obtain rfl := List.mem_singleton.1 hv
      cases he
      obtain rfl := List.mem_singleton.1 hx
      rcases hdest with hdest | hdest <;> rw [hdest] at hname ⊢
      · exact absurd hname (by decide)
      · exact List.mem_singleton_self _
  incoming b hb φ hφ i hi := by
    rcases mem_body hb with rfl | rfl | rfl
    · cases hφ
    · obtain rfl := List.mem_singleton.1 hφ
      simp only [List.mem_cons, List.not_mem_nil, or_false] at hi
      rcases hi with rfl | rfl <;> trivial
    · obtain rfl := List.mem_singleton.1 hφ
      obtain rfl := List.mem_singleton.1 hi
      trivial

/-- Every variable has the same value, but for that of the loop. -/
def start (i : Bool) : Env Go.booleans := fun x =>
  if x ∈ drafted.names.used then some (x == "i" && i) else none

theorem differ_start :
    Differ (H := Go.booleans) drafted.names (Stray last.body loop exit) ⟨start true, ()⟩
      ⟨start false, ()⟩ := by
  have hdom : ∀ i x, (start i x).isSome = true ↔ x ∈ drafted.names.used := fun _ _ =>
    Option.isSome_ite
  refine ⟨rfl, hdom true, hdom false, fun x => ?_⟩
  by_cases hx : x = "i"
  · subst hx
    have hne : loop ≠ exit := fun h => absurd (congrArg Block.name h) (by decide)
    exact .inr ⟨"i", rfl, by decide, loop, .tail _ (.head _), hne, _, .head _, rfl⟩
  · refine .inl ?_
    have hne : (x == "i") = false := by simpa using hx
    simp [start, hne]

/-- From the exit it does not matter what the loop has assigned to its variable for the
next turn. -/
theorem exit_walks :
    NoLostCopies last.body ∧ ∃ r,
      Registry.seed named.scope buffers last.body drafted = (.ok r, drafted) ∧
      ∀ n, Walk (workStep named.scope drafted r.live) "exit" ⟨start true, ()⟩ ["exit"] n →
        ∃ m, Walk (workStep named.scope drafted r.live) "exit" ⟨start false, ()⟩ ["exit"] m ∧
          n.Matches (fun l => Differ drafted.names (Unseen last.body l)) m := by
  obtain ⟨r, hr⟩ : ∃ r, Registry.seed named.scope buffers last.body drafted = (.ok r, drafted) :=
    ⟨_, rfl⟩
  have hsetup : last.setup [] = .ok named := rfl
  obtain ⟨hiff, hwalks⟩ :=
    Function.noLostCopies (H := Go.booleans) hsetup buffers_eq hr ssa
  have hreached : Reached last.body loop :=
    ⟨entry, [entry, loop], rfl, .cons (.tail _ (.head _)) (.head _) .single⟩
  refine ⟨hiff.2 loopClosed, r, hr, fun n hwalk => ?_⟩
  exact hwalks loopClosed mentioned loop (.tail _ (.head _)) hreached exit
    (.tail _ (.tail _ (.head _))) (.tail _ (.head _)) _ _ differ_start ["exit"] n hwalk

end Leaving

/-! ### A loop whose variable is used behind it -/

namespace Losing

open Leaving (bit entry loop)

def exit : Block where
  name := "exit"
  terminator := some (.ret (some (.localRef "i" bit)))

def direct : Function where
  name := "direct"
  ret := bit
  params := [⟨"x", bit⟩, ⟨"y", bit⟩]
  blocks := some [entry, loop, exit]

def named : Setup where
  scope := { bindings := ⟨[("x", bit), ("y", bit), ("i", bit)]⟩ }
  draft := {
    names := { locals := ⟨[("x", "x"), ("y", "y"), ("i", "i")]⟩, used := ["i", "y", "x"] }
    declared := [("i", bit)] }
  params := ["x", "y"]

/-- The loop assigns its variable for the next turn, whether or not there is one. -/
def buffers : Table (List Stmt) :=
  ⟨[("entry", [.set (.ident "i") (.ident "x")]), ("loop", [.set (.ident "i") (.ident "y")]),
    ("exit", [])]⟩

theorem buffers_eq :
    phiBuffers named.scope direct.body named.draft = (.ok buffers, named.draft) := by
  cbv

theorem mem_body {b : Block} (h : b ∈ direct.body) : b = entry ∨ b = loop ∨ b = exit := by
  simpa [Function.body, direct] using h

/-- The only way to the exit is by the loop. -/
theorem loop_dominates_exit : Flow.Dominates direct.body loop exit := by
  intro e bs he hpath
  obtain rfl : entry = e := Option.some.inj he
  rcases hpath.eq_or_step with heq | ⟨s, hs, htarget, hmem⟩
  · exact absurd (congrArg Block.name heq) (by decide)
  · rcases mem_body hs with rfl | rfl | rfl
    · exact absurd htarget (by decide)
    · exact hmem
    · exact absurd htarget (by decide)

theorem ssa : Ssa direct.body where
  distinct := by decide
  dominated t ht u hu x hx huse := by
    -- Only the loop makes a binding.
    rcases mem_body ht with rfl | rfl | rfl
    · cases hx
    · obtain rfl : x = "i" := List.mem_singleton.1 hx
      rcases mem_body hu with rfl | rfl | rfl
      · exact absurd huse (by decide)
      · exact Flow.Dominates.refl _ _
      · exact loop_dominates_exit
    · cases hx

/-- The variable of the parameter `x` is true. -/
def start : Env Go.booleans := fun x =>
  if x ∈ named.draft.names.used then some (x == "x") else none

/-- **A lost copy changes what a function returns**: behind the loop, its variable has the
value for the turn that is not taken. -/
theorem lost_copy :
    direct.setup [] = .ok named ∧
      phiBuffers named.scope direct.body named.draft = (.ok buffers, named.draft) ∧
      Ssa direct.body ∧ ¬ NoLostCopies direct.body ∧ ∃ r D,
      Registry.seed named.scope buffers direct.body named.draft = (.ok r, D) ∧
      Walk (workStep named.scope D r.live) "entry" ⟨start, ()⟩ ["entry", "loop", "exit"]
        (.out (.returned [false] ())) ∧
      Walk (ssaStep named.scope D direct.body) "entry" ⟨D.names.valuesOf start, ()⟩
        ["entry", "loop", "exit"] (.out (.returned [true] ())) := by
  refine ⟨rfl, buffers_eq, ssa, fun h => ?_, _, _, rfl, ?_, ?_⟩
  · have hreached : Reached direct.body loop :=
      ⟨entry, [entry, loop], rfl, .cons (.tail _ (.head _)) (.head _) .single⟩
    have hne : loop ≠ exit := fun h => absurd (congrArg Block.name h) (by decide)
    have hstray : Stray direct.body loop exit "i" :=
      ⟨by decide, loop, .tail _ (.head _), hne, _, .head _, rfl⟩
    exact h loop (.tail _ (.head _)) hreached exit (.tail _ (.tail _ (.head _)))
      (.tail _ (.head _)) "i" hstray (.ends (by decide) (by decide))
  · refine .goto ⟨_, .head _, rfl, .falls (.cons (.act rfl) .nil) .br⟩ ?_
    refine .goto ⟨_, .tail _ (.head _), rfl, .falls (.cons (.act rfl) .nil) (.condFalse rfl rfl)⟩ ?_
    exact .out ⟨_, .tail _ (.tail _ (.head _)), rfl, .falls .nil (.retValue rfl rfl)⟩
  · refine .goto ⟨_, .head _, rfl, .falls rfl .nil (.edge (.tail _ (.head _)) .br rfl)⟩ ?_
    refine .goto ⟨_, .tail _ (.head _), rfl,
      .falls rfl .nil (.edge (.tail _ (.tail _ (.head _))) (.condFalse rfl rfl) rfl)⟩ ?_
    exact .out ⟨_, .tail _ (.tail _ (.head _)), rfl, .falls rfl .nil (.out (.retValue rfl rfl))⟩

end Losing

end GoLift
