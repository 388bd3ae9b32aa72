import GoLift.Proofs.Phi.Ssa
import GoLift.Proofs.Region.Reachable
import Mathlib

/-!
# Phi copies do what phis do

A function and its working blocks, as they are seeded, take every walk together
(`Function.walks_together`): control passes the same labels, and whenever it comes to one,
the variable of each binding holds the value of the binding. **The step of a block is the
whole argument**; walks follow by `Walk.simulates`.

Two things have to be known of the function.

* Whoever goes to a block with phis goes nowhere else (`StraightIntoPhis`). Then the
  copies a block makes are those of the one edge that is taken.
* No identifier is hidden (`Unhidden`). Code may not name what a temporary hides, and
  a constant that a phi takes may not name what a binding or a temporary hides.
  Nothing makes sure of the second: only keywords are kept from bindings, so a
  binding may be called `true`, and a global variable may be called as a temporary is.
-/

set_option autoImplicit false

namespace GoLift

open Go (Expr Stmt Host Env Action State Runs Acts Settles runs_nil runs_append
  runs_append_stop runs_append_cases)
open DraftM

/-! ### What is known of the function -/

/-- Every block that goes to a block with phis goes there whatever happens. -/
def StraightIntoPhis (blocks : List Block) : Prop :=
  ∀ s ∈ blocks, s.phis ≠ [] → ∀ p ∈ blocks, s.name ∈ p.targets →
    p.terminator = some (.br s.name)

/-- Every identifier of the code means what it means outside of the function, unless it
is that of a binding that the code refers to. -/
structure Unhidden (scope : Scope) (blocks : List Block) (D : Draft) : Prop where
  code : ∀ b ∈ blocks, ∀ ss, (Lower.instrs scope b.instrs D).1 = .ok ss →
    ∀ x ∈ Stmt.allIdents ss, ¬ D.names.Reserved x
  ends : ∀ b ∈ blocks, ∀ v ∈ b.endOperands, ∀ e, (v.lower scope D).1 = .ok e →
    ∀ x ∈ e.idents, ¬ D.names.Reserved x
  incoming : ∀ b ∈ blocks, ∀ φ ∈ b.phis, ∀ i ∈ φ.incoming, i.2.Clear scope D

/-- What a body, its phi copies and its draft are taken to be. -/
structure Resolvable (scope : Scope) (blocks : List Block) (D : Draft) : Prop where
  sound : D.names.Sound
  names : (blocks.map Block.name).Nodup
  copies : ∃ copies, CopiesOf blocks copies
  dests : ∀ s ∈ blocks, (s.phis.map Phi.dest).Nodup
  straight : StraightIntoPhis blocks
  unhidden : Unhidden scope blocks D

/-- The working block of a block, with its buffer. -/
structure Emitted (scope : Scope) (blocks : List Block) (D : Draft) (b : Block) (w : WorkBlock) :
    Prop where
  entry : w.entry = b.name
  stmts : Gives (Lower.instrs scope b.instrs) D w.stmts
  buffered : ∃ as, Buffered scope D (b.copies blocks) as w.phiOut
  terminator : w.terminator = b.terminator

variable {H : Host} {scope : Scope} {blocks : List Block} {D : Draft} {b s : Block}
  {w : WorkBlock} {σ τ : State H}

/-! ### Edges -/

/-- The values of clear operands, in both views. -/
theorem Value.Clear.eval_eq {v : Value} {e : Expr} (hv : v.Clear scope D)
    (he : Gives (v.lower scope) D e) (hD : D.names.Sound) (h : Holds D.names σ τ) :
    e.eval H σ.vars = v.read scope D τ.vars := by
  rcases hv.idents he with ⟨name, type, x, rfl, hx, rfl⟩ | hout
  · obtain ⟨val, hval⟩ := Option.isSome_iff_exists.1 ((h.dom x).2 (hD.mem_used hx))
    simp only [Expr.eval, Go.Host.read, Value.read, ← h.vars hx, hval]
  · -- No identifier of the expression is that of a variable.
    have hnone : e.eval H σ.vars = e.eval H (fun _ => none) := by
      refine Go.eval_congr e fun x hx => ?_
      rw [← Option.not_isSome_iff_eq_none, h.dom x]
      exact hout x hx
    have hnow := he.now (steady_lower scope v)
    cases v with
    | localRef name type =>
      obtain ⟨x, hx, rfl⟩ := gives_lower_localRef he
      exact absurd (hD.mem_used hx) (hout x (by simp [Expr.idents]))
    | globalRef name type => rw [Value.read, hnow, hnone]; simp
    | const type p => rw [Value.read, hnow, hnone]; simp

theorem readAll_eq {pred : String} {φs : List Phi} {as : List (String × Expr)}
    (hD : D.names.Sound) (h : Holds D.names σ τ)
    (hvalue : ∀ φ ∈ φs, ∃ v, φ.valueFrom pred = some v ∧ v.Clear scope D)
    (hlowers : List.Forall₂ (Copy.Lowers scope D) (φs.filterMap (Phi.copyFrom pred)) as) :
    Expr.evalAll H σ.vars (as.map Prod.snd) = Phi.readAll scope D pred τ.vars φs ∧
      List.Forall₂ (fun raw x => D.names.local? raw = some x) (φs.map Phi.dest)
        (as.map Prod.fst) := by
  induction φs generalizing as with
  | nil =>
    cases hlowers
    exact ⟨rfl, .nil⟩
  | cons φ φs ih =>
    obtain ⟨v, hv, hclear⟩ := hvalue φ (by simp)
    rw [List.filterMap_cons, Phi.copyFrom_eq hv] at hlowers
    cases hlowers with
    | cons hfirst hrest =>
      obtain ⟨hread, hdests⟩ := ih (fun ψ hψ => hvalue ψ (List.mem_cons_of_mem _ hψ)) hrest
      refine ⟨?_, .cons hfirst.dest hdests⟩
      rw [List.map_cons, Expr.evalAll, hclear.eval_eq hfirst.value hD h, hread, Phi.readAll,
        Phi.read, hv]

/-- Without copies there is no buffer. -/
theorem Buffered.eq_nil {as : List (String × Expr)} {ss : List Stmt}
    (h : Buffered scope D [] as ss) : ss = [] := by
  have has : as = [] := List.forall₂_nil_left_iff.1 h.lowers
  rcases h.form with ⟨-, rfl⟩ | ⟨cs, hcs, rfl, -, -⟩
  · rw [has]
    rfl
  · rw [has] at hcs
    rw [List.map_eq_nil_iff.1 hcs.symm]
    rfl

/-- A block goes to one block and its buffer is for the phis of that, or it has no
buffer and goes to blocks without phis. -/
theorem Emitted.straight (hw : Emitted scope blocks D b w) (hres : Resolvable scope blocks D)
    (hb : b ∈ blocks) :
    (∃ s ∈ blocks, b.terminator = some (.br s.name)) ∨
      (w.phiOut = [] ∧ ∀ s ∈ blocks, s.name ∈ b.targets → s.phis = []) := by
  by_cases h : ∃ s ∈ blocks, s.name ∈ b.targets ∧ s.phis ≠ []
  · obtain ⟨s, hs, ht, hphis⟩ := h
    exact .inl ⟨s, hs, hres.straight s hs hphis b hb ht⟩
  · have hnone : ∀ s ∈ blocks, s.name ∈ b.targets → s.phis = [] := fun s hs ht => by
      by_contra hphis
      exact h ⟨s, hs, ht, hphis⟩
    obtain ⟨as, has⟩ := hw.buffered
    rw [Block.copies_eq_nil hnone] at has
    exact .inr ⟨has.eq_nil, hnone⟩

/-- **On the edge from a block that goes nowhere else, its buffer does what the phis
do**: both evaluate the same values, and then the variables hold what the bindings
have. -/
theorem Emitted.edge (hw : Emitted scope blocks D b w) (hres : Resolvable scope blocks D)
    (hb : b ∈ blocks) (hs : s ∈ blocks) (hbr : b.terminator = some (.br s.name))
    (h : Holds D.names σ τ) :
    ∃ (x : Action H.World (List H.Value)) (f g : List H.Value → Env H),
      Acts (.stmts w.phiOut) σ (f <$> x) ∧
      Phi.take scope D b.name s.phis τ.vars = g <$> x ∧
      ∀ vs world, Holds D.names ⟨f vs, world⟩ ⟨g vs, world⟩ := by
  have htargets : b.targets = [s.name] := Block.targets_of hbr
  obtain ⟨as, has⟩ := hw.buffered
  rw [Block.copies_eq_of_br hres.names hs htargets] at has
  obtain ⟨copies, hcopies⟩ := hres.copies
  have hvalue : ∀ φ ∈ s.phis, ∃ v, φ.valueFrom b.name = some v ∧ v.Clear scope D := by
    intro φ hφ
    obtain ⟨v, hv⟩ := (hcopies.value s hs φ hφ b hb).2 (by simp [htargets])
    have hmem : (b.name, v) ∈ φ.incoming := by
      obtain ⟨l₁, l₂, heq, -⟩ := List.lookup_eq_some_iff.1 hv
      rw [heq]
      simp
    exact ⟨v, hv, hres.unhidden.incoming s hs φ hφ _ hmem⟩
  obtain ⟨hread, hdests⟩ := readAll_eq hres.sound h hvalue has.lowers
  have hcopies : ∀ c ∈ s.phis.filterMap (Phi.copyFrom b.name), c.value.Clear scope D := by
    intro c hc
    obtain ⟨φ, hφ, hc⟩ := List.mem_filterMap.1 hc
    obtain ⟨v, hv, hclear⟩ := hvalue φ hφ
    rw [Phi.copyFrom_eq hv] at hc
    cases hc
    exact hclear
  have hnodup : ((s.phis.filterMap (Phi.copyFrom b.name)).map Copy.dest).Nodup :=
    (hres.dests s hs).sublist (Phi.dests_copyFrom b.name s.phis)
  obtain ⟨ts, hts, hacts⟩ := has.acts (H := H) hres.sound hnodup hcopies
  refine ⟨_, _, fun vs => τ.vars.setAll (s.phis.map Phi.dest) vs,
    hacts σ fun x hx => (h.dom x).2 hx, ?_, fun vs world => ?_⟩
  · rw [Phi.take, hread]
  · have hstart : Holds D.names ⟨σ.vars, world⟩ ⟨τ.vars, world⟩ := ⟨h.vars, h.dom, rfl⟩
    exact (hstart.setAll_reserved hts vs).setAll hres.sound hdests vs

/-! ### Blocks -/

/-- The ends of the code of a block, run on variables and on values of bindings. -/
inductive CodeMatches (t : NameTable) : Go.Flow H → Go.Flow H → Prop
  | next {σ : State H} {ρ : Env H} : t.Agree σ.vars ρ →
      (∀ x, (σ.vars x).isSome = true ↔ x ∈ t.used) →
      CodeMatches t (.next σ) (.next ⟨ρ, σ.world⟩)
  | done {o : Go.Outcome H} : CodeMatches t (.done o) (.done o)

/-- The code of a block runs alike on environments that agree on all but temporaries. -/
theorem Emitted.congr (hw : Emitted scope blocks D b w) (hres : Resolvable scope blocks D)
    (hb : b ∈ blocks) {ρ ρ' : Env H} {world : H.World} {φ : Go.Flow H}
    (hrun : Runs (.stmts w.stmts) ⟨ρ, world⟩ φ) (hagree : D.names.Agree ρ ρ') :
    ∃ φ', Runs (.stmts w.stmts) ⟨ρ', world⟩ φ' ∧
      φ.Alike (fun x => ¬ D.names.Reserved x) φ' := by
  have hplain := hw.stmts.ensured (Lower.plain_instrs scope b.instrs)
  have hseen := hres.unhidden.code b hb _ (hw.stmts.now (Lower.steady_instrs scope _))
  exact hrun.congr hplain hseen hagree

/-- The code of a block makes and drops no variables. -/
theorem Emitted.isSome (hw : Emitted scope blocks D b w) {σ₁ : State H}
    (hrun : Runs (.stmts w.stmts) σ (.next σ₁)) (x : String) :
    (σ₁.vars x).isSome = (σ.vars x).isSome :=
  (hrun.moves (hw.stmts.ensured (Lower.plain_instrs scope b.instrs)) fun _ => id).isSome x

theorem Emitted.code (hw : Emitted scope blocks D b w) (hres : Resolvable scope blocks D)
    (hb : b ∈ blocks) (h : Holds D.names σ τ) {φ : Go.Flow H}
    (hrun : Runs (.stmts w.stmts) σ φ) :
    ∃ φ', Runs (.stmts w.stmts) ⟨D.names.varsOf τ.vars, τ.world⟩ φ' ∧
      CodeMatches D.names φ φ' := by
  obtain ⟨φ', hrun', halike⟩ := hw.congr hres hb hrun (h.agree hres.sound)
  refine ⟨φ', h.world ▸ hrun', ?_⟩
  cases halike with
  | next hagree => exact .next hagree fun x => (hw.isSome hrun x ▸ h.dom x :)
  | done => exact .done

theorem Emitted.code_back (hw : Emitted scope blocks D b w) (hres : Resolvable scope blocks D)
    (hb : b ∈ blocks) (h : Holds D.names σ τ) {φ' : Go.Flow H}
    (hrun : Runs (.stmts w.stmts) ⟨D.names.varsOf τ.vars, τ.world⟩ φ') :
    ∃ φ, Runs (.stmts w.stmts) σ φ ∧ CodeMatches D.names φ φ' := by
  obtain ⟨φ, hrun', halike⟩ := hw.congr hres hb hrun (h.agree hres.sound).symm
  have hrun'' : Runs (.stmts w.stmts) σ φ := by
    rw [← h.world] at hrun'
    exact hrun'
  refine ⟨φ, hrun'', ?_⟩
  cases halike with
  | next hagree => exact .next hagree.symm fun x => (hw.isSome hrun'' x ▸ h.dom x :)
  | done => exact .done

/-- The phis of a block without any take nothing. -/
theorem Phi.take_nil {pred : String} {vals : Env H} :
    Phi.take scope D pred [] vals = pure vals := by
  simp [Phi.take, Phi.readAll]

variable {ρ : Env H} {n m : Next H}

/-! The two ways to leave a block, each in both directions. A block that goes to one block
makes the copies for its phis, and any other makes none. -/

section

variable (hw : Emitted scope blocks D b w) (hres : Resolvable scope blocks D) (hb : b ∈ blocks)

include hw hres hb

theorem Emitted.leaves_br (hs : s ∈ blocks) (hbr : b.terminator = some (.br s.name))
    (hholds : Holds D.names σ ⟨D.names.valuesOf ρ, σ.world⟩) (hleaves : w.Leaves scope D σ n) :
    ∃ m, b.Leaves scope D blocks ⟨ρ, σ.world⟩ m ∧ n.Matches (fun _ => Holds D.names) m := by
  obtain ⟨x, f, g, hacts, htake, hfg⟩ := hw.edge hres hb hs hbr hholds
  have hgoto : Follows scope D b.terminator (H := H) ⟨ρ, σ.world⟩ (.goto s.name ⟨ρ, σ.world⟩) :=
    hbr ▸ .br
  cases hleaves with
  | falls hrun hfollows =>
    rw [hw.terminator, hbr] at hfollows
    cases hfollows
    cases (hacts _).1 hrun with
    | @next _ world hx =>
      obtain ⟨vs, hvs, rfl⟩ := Go.Action.map_eq_ok.1 hx
      have hvals : (g <$> x) σ.world = some (.ok (g vs), world) :=
        Go.Action.map_eq_ok.2 ⟨vs, hvs, rfl⟩
      exact ⟨_, .edge hs hgoto (htake ▸ hvals), .goto (hfg vs world)⟩
  | stops hrun =>
    cases (hacts _).1 hrun with
    | @panic world hx =>
      have hvals : (g <$> x) σ.world = some (.error (), world) :=
        Go.Action.map_eq_error.2 (Go.Action.map_eq_error.1 hx)
      exact ⟨_, .panic hs hgoto (htake ▸ hvals), .out⟩

theorem Emitted.leaves_nil (hnil : w.phiOut = [])
    (hnone : ∀ s ∈ blocks, s.name ∈ b.targets → s.phis = []) (hagree : D.names.Agree σ.vars ρ)
    (hholds : Holds D.names σ ⟨D.names.valuesOf ρ, σ.world⟩) (hleaves : w.Leaves scope D σ n) :
    ∃ m, b.Leaves scope D blocks ⟨ρ, σ.world⟩ m ∧ n.Matches (fun _ => Holds D.names) m := by
  cases hleaves with
  | falls hrun hfollows =>
    rw [hnil, runs_nil] at hrun
    cases hrun
    rw [hw.terminator] at hfollows
    obtain ⟨m, hm, hmatch⟩ := hfollows.agree hagree (hres.unhidden.ends b hb)
    cases hmatch with
    | @goto l σ₁ σ₂ hσ =>
      obtain ⟨hvars, rfl⟩ := hσ
      have hl : l ∈ b.targets := hm.mem_targets
      obtain ⟨copies, hcopies⟩ := hres.copies
      obtain ⟨s, hs, rfl⟩ := List.mem_map.1 ((hcopies.closed b hb).2 l hl)
      refine ⟨_, .edge hs hm (by rw [hnone s hs hl, Phi.take_nil]; rfl), .goto ?_⟩
      exact ⟨hvars ▸ hholds.vars, hvars ▸ hholds.dom, rfl⟩
    | out => exact ⟨_, .out hm, .out⟩
  | stops hrun =>
    rw [hnil, runs_nil] at hrun
    cases hrun

theorem Emitted.leaves_back_br (hs : s ∈ blocks) (hbr : b.terminator = some (.br s.name))
    (hholds : Holds D.names σ ⟨D.names.valuesOf ρ, σ.world⟩)
    (hleaves : b.Leaves scope D blocks ⟨ρ, σ.world⟩ m) :
    ∃ n, w.Leaves scope D σ n ∧ n.Matches (fun _ => Holds D.names) m := by
  obtain ⟨x, f, g, hacts, htake, hfg⟩ := hw.edge hres hb hs hbr hholds
  have hgoto : ∀ σ₁ : State H, Follows scope D w.terminator σ₁ (.goto s.name σ₁) := by
    intro σ₁
    rw [hw.terminator, hbr]
    exact .br
  -- The block that control goes to is the one that the terminator names.
  have hsame : ∀ {s' : Block} {σ' : State H}, s' ∈ blocks →
      Follows scope D b.terminator ⟨ρ, σ.world⟩ (.goto s'.name σ') →
        s' = s ∧ σ' = ⟨ρ, σ.world⟩ := by
    intro s' σ' hs' hfollows
    rw [hbr] at hfollows
    generalize hname : s'.name = l at hfollows
    cases hfollows
    exact ⟨List.inj_on_of_nodup_map hres.names hs' hs hname, rfl⟩
  cases hleaves with
  | out hfollows =>
    rw [hbr] at hfollows
    cases hfollows
  | @edge _ _ _ world hs' hfollows hvals =>
    obtain ⟨rfl, rfl⟩ := hsame hs' hfollows
    rw [htake] at hvals
    obtain ⟨vs, hvs, rfl⟩ := Go.Action.map_eq_ok.1 hvals
    have hrun : Runs (.stmts w.phiOut) σ (.next ⟨f vs, world⟩) :=
      (hacts _).2 (.next (Go.Action.map_eq_ok.2 ⟨vs, hvs, rfl⟩))
    exact ⟨_, .falls hrun (hgoto _), .goto (hfg vs world)⟩
  | panic hs' hfollows hvals =>
    obtain ⟨rfl, rfl⟩ := hsame hs' hfollows
    rw [htake, Go.Action.map_eq_error] at hvals
    exact ⟨_, .stops ((hacts _).2 (.panic (Go.Action.map_eq_error.2 hvals))), .out⟩

theorem Emitted.leaves_back_nil (hnil : w.phiOut = [])
    (hnone : ∀ s ∈ blocks, s.name ∈ b.targets → s.phis = []) (hagree : D.names.Agree σ.vars ρ)
    (hholds : Holds D.names σ ⟨D.names.valuesOf ρ, σ.world⟩)
    (hleaves : b.Leaves scope D blocks ⟨ρ, σ.world⟩ m) :
    ∃ n, w.Leaves scope D σ n ∧ n.Matches (fun _ => Holds D.names) m := by
  have hrun : Runs (.stmts w.phiOut) σ (.next σ) := by
    rw [hnil]
    exact .nil
  -- The terminator goes the same way on the variables.
  have hback : ∀ {m : Next H}, Follows scope D b.terminator ⟨ρ, σ.world⟩ m →
      ∃ n, Follows scope D w.terminator σ n ∧
        m.Matches (fun _ σ₁ σ₂ => σ₁.vars = ρ ∧ σ₂ = ⟨σ.vars, σ₁.world⟩) n := by
    intro m hfollows
    rw [hw.terminator]
    exact hfollows.agree hagree.symm (hres.unhidden.ends b hb)
  cases hleaves with
  | out hfollows =>
    obtain ⟨n, hn, hmatch⟩ := hback hfollows
    cases hmatch with
    | out => exact ⟨_, .falls hrun hn, .out⟩
  | @edge σ' s vals world hs hfollows hvals =>
    obtain ⟨n, hn, hmatch⟩ := hback hfollows
    rw [hnone s hs hfollows.mem_targets, Phi.take_nil] at hvals
    cases hvals
    generalize hname : s.name = l at hmatch
    cases hmatch with
    | goto hσ =>
      obtain ⟨hvars, rfl⟩ := hσ
      exact ⟨_, .falls hrun hn, .goto ⟨hvars ▸ hholds.vars, hholds.dom, rfl⟩⟩
  | panic hs hfollows hvals =>
    rw [hnone _ hs hfollows.mem_targets, Phi.take_nil] at hvals
    cases hvals

/-- What the working block does after its code, the block does. -/
theorem Emitted.leaves (hagree : D.names.Agree σ.vars ρ)
    (hdom : ∀ x, (σ.vars x).isSome = true ↔ x ∈ D.names.used)
    (hleaves : w.Leaves scope D σ n) :
    ∃ m, b.Leaves scope D blocks ⟨ρ, σ.world⟩ m ∧ n.Matches (fun _ => Holds D.names) m := by
  have hholds : Holds D.names σ ⟨D.names.valuesOf ρ, σ.world⟩ := .of_agree hagree hdom σ.world
  rcases hw.straight hres hb with ⟨s, hs, hbr⟩ | ⟨hnil, hnone⟩
  · exact hw.leaves_br hres hb hs hbr hholds hleaves
  · exact hw.leaves_nil hres hb hnil hnone hagree hholds hleaves

/-- What the block does after its code, the working block does. -/
theorem Emitted.leaves_back (hagree : D.names.Agree σ.vars ρ)
    (hdom : ∀ x, (σ.vars x).isSome = true ↔ x ∈ D.names.used)
    (hleaves : b.Leaves scope D blocks ⟨ρ, σ.world⟩ m) :
    ∃ n, w.Leaves scope D σ n ∧ n.Matches (fun _ => Holds D.names) m := by
  have hholds : Holds D.names σ ⟨D.names.valuesOf ρ, σ.world⟩ := .of_agree hagree hdom σ.world
  rcases hw.straight hres hb with ⟨s, hs, hbr⟩ | ⟨hnil, hnone⟩
  · exact hw.leaves_back_br hres hb hs hbr hholds hleaves
  · exact hw.leaves_back_nil hres hb hnil hnone hagree hholds hleaves

end

/-- What the working block does, the block does. -/
theorem Emitted.passes (hw : Emitted scope blocks D b w) (hres : Resolvable scope blocks D)
    (hb : b ∈ blocks) (h : Holds D.names σ τ) (hpass : w.Passes scope D σ n) :
    ∃ m, b.Passes scope D blocks τ m ∧ n.Matches (fun _ => Holds D.names) m := by
  have hcode := hw.stmts.now (Lower.steady_instrs scope _)
  rcases WorkBlock.passes_iff.1 hpass with ⟨o, hrun, rfl⟩ | ⟨σ₁, hrun, hleaves⟩
  · obtain ⟨φ, hrun', hmatch⟩ := hw.code hres hb h hrun
    cases hmatch with
    | done => exact ⟨_, .stops hcode hrun', .out⟩
  · obtain ⟨φ, hrun', hmatch⟩ := hw.code hres hb h hrun
    cases hmatch with
    | next hagree hdom =>
      obtain ⟨m, hm, hmatch⟩ := hw.leaves hres hb hagree hdom hleaves
      exact ⟨m, .falls hcode hrun' hm, hmatch⟩

/-- What the block does, the working block does. -/
theorem Emitted.passes_back (hw : Emitted scope blocks D b w) (hres : Resolvable scope blocks D)
    (hb : b ∈ blocks) (h : Holds D.names σ τ) (hpass : b.Passes scope D blocks τ m) :
    ∃ n, w.Passes scope D σ n ∧ n.Matches (fun _ => Holds D.names) m := by
  have hcode : ∀ {ss : List Stmt}, (Lower.instrs scope b.instrs D).1 = .ok ss → ss = w.stmts := by
    intro ss hss
    rw [hw.stmts.now (Lower.steady_instrs scope _)] at hss
    exact (Except.ok.inj hss).symm
  cases hpass with
  | falls hss hrun hleaves =>
    obtain rfl := hcode hss
    obtain ⟨φ, hrun', hmatch⟩ := hw.code_back hres hb h hrun
    cases hmatch with
    | next hagree hdom =>
      obtain ⟨n, hn, hmatch⟩ := hw.leaves_back hres hb hagree hdom hleaves
      exact ⟨n, WorkBlock.passes_iff.2 (.inr ⟨_, hrun', hn⟩), hmatch⟩
  | stops hss hrun =>
    obtain rfl := hcode hss
    obtain ⟨φ, hrun', hmatch⟩ := hw.code_back hres hb h hrun
    cases hmatch with
    | done => exact ⟨_, WorkBlock.passes_iff.2 (.inl ⟨_, hrun', rfl⟩), .out⟩

/-! ### Bodies -/

variable {ws : List WorkBlock}

theorem workStep_simulates (hres : Resolvable scope blocks D)
    (hws : List.Forall₂ (Emitted scope blocks D) blocks ws) :
    Simulates (fun _ => Holds (H := H) D.names) (workStep scope D ws) (ssaStep scope D blocks) := by
  rintro l σ τ n h ⟨w, hw, rfl, hpass⟩
  obtain ⟨b, hb, hemitted⟩ := mem_of_forall₂ hws.flip hw
  obtain ⟨m, hm, hmatch⟩ := hemitted.passes hres hb h hpass
  exact ⟨m, ⟨b, hb, hemitted.entry.symm, hm⟩, hmatch⟩

theorem ssaStep_simulates (hres : Resolvable scope blocks D)
    (hws : List.Forall₂ (Emitted scope blocks D) blocks ws) :
    Simulates (fun _ τ σ => Holds (H := H) D.names σ τ) (ssaStep scope D blocks)
      (workStep scope D ws) := by
  rintro l τ σ m h ⟨b, hb, rfl, hpass⟩
  obtain ⟨w, hw, hemitted⟩ := mem_of_forall₂ hws hb
  obtain ⟨n, hn, hmatch⟩ := hemitted.passes_back hres hb h hpass
  exact ⟨n, ⟨w, hw, hemitted.entry, hn⟩, hmatch.flip⟩

/-! ### Functions -/

/-- The phis of a block are among its bindings. -/
theorem dests_sublist {is : List Instr} {rs : List (Option (String × Ty))}
    (h : List.Forall₂ (fun i r => i.result = .ok r) is rs) :
    ((is.filterMap Instr.phi?).map Phi.dest).Sublist ((rs.filterMap id).map Prod.fst) := by
  induction h with
  | nil => exact .slnil
  | @cons i r is rs hir _ ih =>
    have hskip : ∀ {r : Option (String × Ty)},
        ((is.filterMap Instr.phi?).map Phi.dest).Sublist (((r :: rs).filterMap id).map Prod.fst) := by
      rintro (_ | result)
      · exact ih
      · exact ih.cons _
    cases i with
    | phi dest type incoming =>
      cases hir
      exact ih.cons_cons _
    | _ => exact hskip

/-- Where bindings are different, so are the phis of all blocks. -/
theorem nodup_phiDests {f : Function} {results : List (String × Ty)}
    (hresults : resultsOf f.body = .ok results) (hnodup : (results.map Prod.fst).Nodup) :
    ((f.body.flatMap Block.phis).map Phi.dest).Nodup := by
  obtain ⟨rs, hrs, h⟩ := except_bind_ok hresults
  cases h
  rw [phis_eq_filterMap]
  exact hnodup.sublist (dests_sublist (forall₂_of_mapM hrs))

theorem nodup_dests {f : Function} {results : List (String × Ty)}
    (hresults : resultsOf f.body = .ok results) (hnodup : (results.map Prod.fst).Nodup) :
    ∀ s ∈ f.body, (s.phis.map Phi.dest).Nodup := by
  intro s hs
  refine (nodup_phiDests hresults hnodup).sublist (List.Sublist.map _ ?_)
  obtain ⟨before, after, heq⟩ := List.append_of_mem hs
  rw [heq, List.flatMap_append, List.flatMap_cons]
  exact (List.sublist_append_left _ _).trans (List.sublist_append_right _ _)

theorem Function.setup_ok {f : Function} {globals : List String} {su : Setup}
    (h : f.setup globals = .ok su) :
    (∃ results, resultsOf f.body = .ok results) ∧ su.draft.names.Sound := by
  obtain ⟨results, hresults, h⟩ := except_bind_ok h
  cases h
  refine ⟨⟨results, hresults⟩, ?_⟩
  exact (NameTable.le_bindAll _ _).sound ((NameTable.le_bindAll _ _).sound NameTable.sound_empty)

section

variable {f : Function} {globals : List String} {su : Setup} {buffers : Table (List Stmt)}
  {d : Draft} {r : Registry}

/-- The working blocks of a function that is set up, resolved and seeded. -/
theorem Function.emitted (hsetup : f.setup globals = .ok su)
    (hbuffers : phiBuffers su.scope f.body su.draft = (.ok buffers, d))
    (hseed : Registry.seed su.scope buffers f.body d = (.ok r, D)) :
    D.names.Sound ∧ (f.body.map Block.name).Nodup ∧ (∃ copies, CopiesOf f.body copies) ∧
      List.Forall₂ (Emitted su.scope f.body D) f.body r.live := by
  obtain ⟨-, hsound⟩ := Function.setup_ok hsetup
  obtain ⟨hr, hseeded, -⟩ := Registry.seed_ok hseed
  have hnames := Registry.nodup_names_of_seeded hr hseeded
  have hd : su.draft ≤ d := (grows_phiBuffers _ _).apply hbuffers
  have hD : d ≤ D := (Registry.grows_seedFrom _ _ _ _).apply hseed
  obtain ⟨copies, hcopies, hbuffered⟩ := phiBuffers_ok hnames hsound hbuffers
  refine ⟨hD.sound (hd.sound hsound), hnames, ⟨copies, hcopies⟩, ?_⟩
  have hall : ∀ b ∈ f.body, ∃ as, Buffered su.scope D (b.copies f.body) as
      ((buffers.get? b.name).getD []) := by
    intro b hb
    obtain ⟨as, ss, hss, has⟩ := hbuffered b hb
    exact ⟨as, by rw [hss]; exact has.mono hD⟩
  refine ((List.forall₂_and_left _ _).2 ⟨hall, hseeded⟩).imp ?_
  rintro b w ⟨has, hw⟩
  exact ⟨hw.entry, hw.stmts, hw.phiOut ▸ has, hw.terminator⟩

/-- **Phi elimination preserves the execution of a function.** From values of the
variables that hold those of the bindings, the working blocks and the function walk
along the same labels, to the same outcome or to states that again hold the same.

Every assignment of values to the variables holds some values of the bindings
(`Holds.of_dom`), so this is about every start. -/
theorem Function.walks_together (hsetup : f.setup globals = .ok su)
    (hbuffers : phiBuffers su.scope f.body su.draft = (.ok buffers, d))
    (hseed : Registry.seed su.scope buffers f.body d = (.ok r, D))
    (hbindings : ∀ results, resultsOf f.body = .ok results → (results.map Prod.fst).Nodup)
    (hstraight : StraightIntoPhis f.body) (hunhidden : Unhidden su.scope f.body D)
    (h : Holds D.names σ τ) (l : String) (trace : List String) :
    (∀ n, Walk (workStep su.scope D r.live) l σ trace n →
      ∃ m, Walk (ssaStep su.scope D f.body) l τ trace m ∧ n.Matches (fun _ => Holds D.names) m) ∧
    (∀ m, Walk (ssaStep su.scope D f.body) l τ trace m →
      ∃ n, Walk (workStep su.scope D r.live) l σ trace n ∧ n.Matches (fun _ => Holds D.names) m) := by
  obtain ⟨hsound, hnames, hcopies, hws⟩ := Function.emitted hsetup hbuffers hseed
  obtain ⟨⟨results, hresults⟩, -⟩ := Function.setup_ok hsetup
  have hdests := nodup_dests hresults (hbindings results hresults)
  have hres : Resolvable su.scope f.body D :=
    ⟨hsound, hnames, hcopies, hdests, hstraight, hunhidden⟩
  constructor
  · exact fun n hwalk => hwalk.simulates (workStep_simulates hres hws) h
  · intro m hwalk
    obtain ⟨n, hn, hmatch⟩ := hwalk.simulates (ssaStep_simulates hres hws) h
    exact ⟨n, hn, hmatch.flip⟩

end

/-! ### A loop that swaps -/

namespace Swapping

/-- The type of the bindings. -/
def bit : Ty := .int 1

def swap : Function where
  name := "swap"
  ret := .void
  params := [⟨"x", bit⟩, ⟨"y", bit⟩]
  blocks := some
    [{ name := "entry", terminator := some (.br "loop") },
      { name := "loop"
        instrs :=
          [.phi "a" bit [("entry", .localRef "x" bit), ("loop", .localRef "b" bit)],
            .phi "b" bit [("entry", .localRef "y" bit), ("loop", .localRef "a" bit)]]
        terminator := some (.br "loop") }]

/-- The function with its bindings named. -/
def named : Setup where
  scope := { bindings := ⟨[("x", bit), ("y", bit), ("a", bit), ("b", bit)]⟩ }
  draft := {
    names := {
      locals := ⟨[("x", "x"), ("y", "y"), ("a", "a"), ("b", "b")]⟩
      used := ["b", "a", "y", "x"] }
    declared := [("a", bit), ("b", bit)] }
  params := ["x", "y"]

/-- The copies into the loop are direct, those around it need two temporaries. -/
def buffers : Table (List Stmt) :=
  ⟨[("entry", [.set (.ident "a") (.ident "x"), .set (.ident "b") (.ident "y")]),
    ("loop", [.set (.ident "tmp0") (.ident "b"), .set (.ident "tmp1") (.ident "a"),
      .set (.ident "a") (.ident "tmp0"), .set (.ident "b") (.ident "tmp1")])]⟩

def drafted : Draft where
  names := {
    locals := ⟨[("x", "x"), ("y", "y"), ("a", "a"), ("b", "b")]⟩
    used := ["tmp1", "tmp0", "b", "a", "y", "x"]
    counter := 2 }
  declared := [("a", bit), ("b", bit), ("tmp0", bit), ("tmp1", bit)]
  trace := [.captured "loop" 2]

theorem buffers_eq :
    phiBuffers named.scope swap.body named.draft = (.ok buffers, drafted) := by
  cbv

theorem straight : StraightIntoPhis swap.body := by
  intro s hs hphis p hp ht
  simp only [Function.body, swap, Option.getD_some, List.mem_cons, List.not_mem_nil,
    or_false] at hs hp
  rcases hs with rfl | rfl
  · exact absurd rfl hphis
  · rcases hp with rfl | rfl <;> rfl

theorem unhidden : Unhidden named.scope swap.body drafted where
  code b hb ss hss := by
    simp only [Function.body, swap, Option.getD_some, List.mem_cons, List.not_mem_nil,
      or_false] at hb
    rcases hb with rfl | rfl <;> cases hss <;> exact fun x hx => nomatch hx
  ends b hb v hv := by
    simp only [Function.body, swap, Option.getD_some, List.mem_cons, List.not_mem_nil,
      or_false] at hb
    rcases hb with rfl | rfl <;> cases hv
  incoming b hb φ hφ i hi := by
    simp only [Function.body, swap, Option.getD_some, List.mem_cons, List.not_mem_nil,
      or_false] at hb
    rcases hb with rfl | rfl
    · cases hφ
    · simp only [Block.phis, List.filterMap_cons, Instr.phi?, List.filterMap_nil, List.mem_cons,
        List.not_mem_nil, or_false] at hφ
      rcases hφ with rfl | rfl <;>
        simp only [List.mem_cons, List.not_mem_nil, or_false] at hi <;>
        rcases hi with rfl | rfl <;> trivial

/-- The variables at the start: `a` is true. -/
def start : Env Go.booleans := fun x =>
  if x ∈ drafted.names.used then some (x == "a") else none

/-- Two turns of the loop, in both views. -/
theorem swap_walks_together :
    ∃ r, Registry.seed named.scope buffers swap.body drafted = (.ok r, drafted) ∧
      (∀ n, Walk (workStep named.scope drafted r.live) "loop" ⟨start, ()⟩ ["loop", "loop"] n →
        ∃ m, Walk (ssaStep named.scope drafted swap.body) "loop"
            ⟨drafted.names.valuesOf start, ()⟩ ["loop", "loop"] m ∧
          n.Matches (fun _ => Holds drafted.names) m) ∧
      (∀ m, Walk (ssaStep named.scope drafted swap.body) "loop"
          ⟨drafted.names.valuesOf start, ()⟩ ["loop", "loop"] m →
        ∃ n, Walk (workStep named.scope drafted r.live) "loop" ⟨start, ()⟩ ["loop", "loop"] n ∧
          n.Matches (fun _ => Holds drafted.names) m) := by
  obtain ⟨r, hr⟩ : ∃ r, Registry.seed named.scope buffers swap.body drafted = (.ok r, drafted) :=
    ⟨_, rfl⟩
  refine ⟨r, hr, ?_⟩
  have hbindings : ∀ results, resultsOf swap.body = .ok results →
      (results.map Prod.fst).Nodup := by
    intro results h
    cases h
    decide
  have hstart : Holds drafted.names ⟨start, ()⟩ ⟨drafted.names.valuesOf start, ()⟩ :=
    Holds.of_dom start () fun x => by
      unfold start
      by_cases hx : x ∈ drafted.names.used
      · rw [if_pos hx]
        exact ⟨fun _ => hx, fun _ => rfl⟩
      · rw [if_neg hx]
        exact ⟨(fun h => nomatch h), fun h => absurd h hx⟩
  have hsetup : swap.setup [] = .ok named := rfl
  exact Function.walks_together hsetup buffers_eq hr hbindings straight unhidden hstart "loop"
    ["loop", "loop"]

end Swapping

/-! ### A binding that hides a constant -/

namespace Hiding

/-- Truth values, and the predeclared constant of one. -/
def host : Host :=
  { Go.booleans with outer := fun x => if x = "true" then pure true else .stuck }

/-- A binding is called `true`, and a phi beside it takes the constant. -/
def conceal : Function where
  name := "conceal"
  ret := .int 1
  params := [⟨"x", .int 1⟩]
  blocks := some
    [{ name := "entry", terminator := some (.br "exit") },
      { name := "exit"
        instrs :=
          [.phi "true" (.int 1) [("entry", .localRef "x" (.int 1))],
            .phi "d" (.int 1) [("entry", .const (.int 1) (.int 1))]]
        terminator := some (.ret (some (.localRef "d" (.int 1)))) }]

def named : Setup where
  scope := { bindings := ⟨[("x", .int 1), ("true", .int 1), ("d", .int 1)]⟩ }
  draft := {
    names := {
      locals := ⟨[("x", "x"), ("true", "true"), ("d", "d")]⟩
      used := ["d", "true", "x"] }
    declared := [("true", .int 1), ("d", .int 1)] }
  params := ["x"]

def buffers : Table (List Stmt) :=
  ⟨[("entry", [.set (.ident "true") (.ident "x"), .set (.ident "d") (.ident "true")]),
    ("exit", [])]⟩

theorem buffers_eq :
    phiBuffers named.scope conceal.body named.draft = (.ok buffers, named.draft) := by
  cbv

/-- Every variable is false. -/
def start : Env host := fun x =>
  if x ∈ named.draft.names.used then some false else none

/-- **Hiding a constant changes what a function returns**: the second copy reads the
first one's destination. -/
theorem hidden_constant :
    conceal.setup [] = .ok named ∧
      phiBuffers named.scope conceal.body named.draft = (.ok buffers, named.draft) ∧ ∃ r D,
      Registry.seed named.scope buffers conceal.body named.draft = (.ok r, D) ∧
      Walk (workStep named.scope D r.live) "entry" ⟨start, ()⟩ ["entry", "exit"]
        (.out (.returned [false] ())) ∧
      Walk (ssaStep named.scope D conceal.body) "entry" ⟨D.names.valuesOf start, ()⟩
        ["entry", "exit"] (.out (.returned [true] ())) := by
  refine ⟨rfl, buffers_eq, _, _, rfl, ?_, ?_⟩
  · refine .goto ⟨_, .head _, rfl, .falls (.cons (.act rfl) (.cons (.act rfl) .nil)) .br⟩ ?_
    exact .out ⟨_, .tail _ (.head _), rfl, .falls .nil (.retValue rfl rfl)⟩
  · refine .goto ⟨_, .head _, rfl, .falls rfl .nil (.edge (.tail _ (.head _)) .br rfl)⟩ ?_
    exact .out ⟨_, .tail _ (.head _), rfl, .falls rfl .nil (.out (.retValue rfl rfl))⟩

end Hiding

end GoLift
