import GoLift.Proofs.Phi.Simultaneous

/-!
# Conditions that are tested after the copies

A block that ends in a condition makes its copies first, and the statement that is made of
it tests the condition behind them. **The test comes out as it would have before, unless the
condition is a phi of a block that is gone to** (`Function.condition_after_copies`): then
its variable has been assigned, and the test sees the value that the phi is given for the
next turn.

So a loop on a variable of its own head decides one turn too early
(`Deciding.early_decision`).
-/

set_option autoImplicit false

namespace GoLift

open Go (Expr Stmt Host Env Action State Runs Together)
open DraftM

/-! ### Values that are given at once -/

namespace Go

variable {H : Host}

/-- The value that an assignment gives is that of its expression. -/
theorem exists_eval {ρ ρ' : Env H} {as : List (String × Expr)} {vs : List H.Value}
    {w w' : H.World} (hvs : Expr.evalAll H ρ (as.map Prod.snd) w = some (.ok vs, w'))
    (hgiven : List.Forall₂ (fun a v => ρ' a.1 = some v) as vs) {a : String × Expr}
    (ha : a ∈ as) :
    ∃ v w₁ w₂, a.2.eval H ρ w₁ = some (.ok v, w₂) ∧ ρ' a.1 = some v := by
  induction hgiven generalizing w with
  | nil => cases ha
  | @cons b v as vs hb _ ih =>
    rw [List.map_cons, Expr.evalAll] at hvs
    obtain ⟨v', w₁, hv, hvs⟩ := Action.bind_eq_ok.1 hvs
    obtain ⟨vs', w₂, hrest, hvs⟩ := Action.bind_eq_ok.1 hvs
    cases hvs
    rcases List.mem_cons.1 ha with rfl | ha
    · exact ⟨v, w, w₁, hv, hb⟩
    · exact ih hrest ha

end Go

/-! ### The condition of a block -/

/-- The condition of a block is no phi ahead, unless one that hands itself on. -/
def Block.Keeps (blocks : List Block) (p : Block) (c : Value) : Prop :=
  ∀ φ ∈ p.phisAhead blocks, ∀ type, c = .localRef φ.dest type →
    ∃ type, φ.valueFrom p.name = some (.localRef φ.dest type)

variable {H : Host} {scope : Scope} {blocks : List Block} {D d d' : Draft} {p : Block}
  {as : List (String × Expr)} {ts : List String} {c : Value} {e : Expr} {σ σ' : State H}

/-- What is lowered at a later time names what is assigned only where it is a local. -/
theorem Value.Apart.of_assigned {X : String → Prop} (h : c.Apart scope d X)
    (he : c.lower scope d = (.ok e, d')) {x : String} (hx : x ∈ e.idents) (hX : X x) :
    ∃ name type, c = .localRef name type ∧ d'.names.local? name = some x ∧ e = .ident x := by
  have hnow : (c.lower scope d).1 = .ok e := by rw [he]
  cases c with
  | localRef name type =>
    obtain ⟨y, hy, rfl⟩ := gives_lower_localRef (Gives.of_apply he)
    obtain rfl : x = y := List.mem_singleton.1 hx
    exact ⟨name, type, rfl, hy, rfl⟩
  | globalRef name type => exact absurd hX (h e hnow x hx)
  | const type p => exact absurd hX (h e hnow x hx)

/-- What a buffer gives values to are the destinations of its copies. -/
theorem assigned_of_given
    (hgiven : List.Forall₂ (Phi.Given scope D p.name) (p.phisAhead blocks) as)
    {a : String × Expr} (ha : a ∈ as) : Assigned D (p.copies blocks) a.1 := by
  obtain ⟨φ, hφ, h⟩ := mem_of_forall₂ hgiven.flip ha
  obtain ⟨v, hv, -⟩ := h.value
  refine .inr ⟨⟨φ.dest, φ.type, v⟩, ?_, h.dest⟩
  rw [Block.copies_eq]
  exact List.mem_filterMap.2 ⟨φ, hφ, φ.copyFrom_eq hv⟩

section

variable (hgiven : List.Forall₂ (Phi.Given scope D p.name) (p.phisAhead blocks) as)
  (hd : D ≤ d) (he : c.lower scope d = (.ok e, d'))
  (h : Together as ts σ (.next σ'))

include hgiven hd he h

/-- **A condition that is no phi ahead comes out the same after the copies.** -/
theorem Go.Together.test_kept (hD : D.names.Sound) (hts : ∀ t ∈ ts, D.names.Reserved t)
    (hsome : ∀ x ∈ D.names.used, (σ.vars x).isSome = true)
    (hapart : c.Apart scope d (Assigned D (p.copies blocks))) (hkeeps : p.Keeps blocks c) :
    e.test H σ'.vars = e.test H σ.vars := by
  have hD' : D.names.Le d'.names := hd.trans ((steady_lower scope c).grows.apply he)
  cases h with
  | next hvs hvalues hother =>
    refine Go.test_congr fun x hx => ?_
    by_cases hdest : x ∈ as.map Prod.fst
    · -- The phi that is assigned is the condition, and so it hands itself on.
      obtain ⟨a, ha, rfl⟩ := List.mem_map.1 hdest
      obtain ⟨φ, hφ, hphi⟩ := mem_of_forall₂ hgiven.flip ha
      obtain ⟨name, type, rfl, hname, rfl⟩ :=
        hapart.of_assigned he hx (assigned_of_given hgiven ha)
      obtain rfl : φ.dest = name := (hD'.sound hD).injective (hD'.local? hphi.dest) hname
      obtain ⟨type', hself⟩ := hkeeps φ hφ type rfl
      have hown : a.2 = .ident a.1 := congrArg Prod.snd
        ((given_iff hphi.dest hself (lower_localRef_of_local? hphi.dest type')).1 hphi)
      obtain ⟨v, w₁, w₂, hv, hv'⟩ := Go.exists_eval hvs hvalues ha
      obtain ⟨old, hold⟩ := Option.isSome_iff_exists.1 (hsome _ (hD.mem_used hphi.dest))
      rw [hown, Expr.eval, Host.read, hold] at hv
      cases hv
      rw [hv', hold]
    · refine hother x hdest fun ht => ?_
      -- A temporary is in no expression but those that make it.
      obtain ⟨name, type, rfl, hname, rfl⟩ := hapart.of_assigned he hx (.inl (hts x ht))
      exact ((hts x ht).mono hD').unbound name hname

/-- **A condition that is a phi ahead is tested for the value that it is given.** -/
theorem Go.Together.test_given {φ : Phi} {type : Ty} (hφ : φ ∈ p.phisAhead blocks)
    (hc : c = .localRef φ.dest type) :
    ∃ v e', φ.valueFrom p.name = some v ∧ (v.lower scope D).1 = .ok e' ∧
      ∃ value w₁ w₂, e'.eval H σ.vars w₁ = some (.ok value, w₂) ∧
        e.test H σ'.vars = H.truth value := by
  have hD' : D.names.Le d'.names := hd.trans ((steady_lower scope c).grows.apply he)
  cases h with
  | next hvs hvalues hother =>
    obtain ⟨a, ha, hphi⟩ := mem_of_forall₂ hgiven hφ
    obtain ⟨v, hv, hlower⟩ := hphi.value
    obtain ⟨value, w₁, w₂, heval, hvalue⟩ := Go.exists_eval hvs hvalues ha
    refine ⟨v, a.2, hv, hlower, value, w₁, w₂, heval, ?_⟩
    subst hc
    obtain ⟨x, hx, rfl⟩ := gives_lower_localRef (Gives.of_apply he)
    obtain rfl : a.1 = x := Option.some.inj ((hD'.local? hphi.dest).symm.trans hx)
    simp [Expr.test, Expr.eval, Host.read, hvalue]

end

/-! ### Functions -/

/-- **What a condition is tested for.** A block that ends in a condition runs its code,
then its copies, and then tests. If the condition is no phi ahead of the block, or one that
hands itself on, the test comes out as it would have before the copies. If it is a phi
ahead, the test is one of the value that the phi is given. -/
theorem Function.condition_after_copies {f : Function} {globals : List String} {su : Setup}
    {buffers : Table (List Stmt)} {d₀ : Draft} {r : Registry} (hsetup : f.setup globals = .ok su)
    (hbuffers : phiBuffers su.scope f.body su.draft = (.ok buffers, d₀))
    (hseed : Registry.seed su.scope buffers f.body d₀ = (.ok r, D)) (hssa : Ssa f.body)
    (hp : p ∈ f.body) {ifTrue ifFalse : String}
    (hcond : p.terminator = some (.condBr c ifTrue ifFalse)) {w : WorkBlock} (hw : w ∈ r.live)
    (hentry : w.entry = p.name) (hd : D ≤ d) (he : c.lower su.scope d = (.ok e, d'))
    (hunshadowed : p.Unshadowed su.scope D f.body)
    (hapart : c.Apart su.scope d (Assigned D (p.copies f.body))) {σ₁ σ₂ : State H}
    (hsome : ∀ x ∈ D.names.used, (σ.vars x).isSome = true)
    (hcode : Runs (.stmts w.stmts) σ (.next σ₁))
    (hcopies : Runs (.stmts w.phiOut) σ₁ (.next σ₂)) :
    w.terminator = some (.condBr c ifTrue ifFalse) ∧
      (p.Keeps f.body c → e.test H σ₂.vars = e.test H σ₁.vars) ∧
      ∀ φ ∈ p.phisAhead f.body, ∀ type, c = .localRef φ.dest type →
        ∃ v e', φ.valueFrom p.name = some v ∧ (v.lower su.scope D).1 = .ok e' ∧
          ∃ value w₁ w₂, e'.eval H σ₁.vars w₁ = some (.ok value, w₂) ∧
            e.test H σ₂.vars = H.truth value := by
  obtain ⟨hD, hnames, ⟨copies, hof⟩, hws⟩ := Function.emitted hsetup hbuffers hseed
  obtain ⟨b, hb, hemitted⟩ := mem_of_forall₂ hws.flip hw
  obtain rfl : b = p :=
    List.inj_on_of_nodup_map hnames hb hp (hemitted.entry.symm.trans hentry)
  obtain ⟨as, has⟩ := hemitted.buffered
  obtain ⟨ts, hts, hruns⟩ := has.together (H := H) hD (nodup_copyDests hssa b) hunshadowed
  have hsome₁ : ∀ x ∈ D.names.used, (σ₁.vars x).isSome = true := fun x hx =>
    (hemitted.isSome hcode x).trans (hsome x hx)
  have htogether := (hruns σ₁ hsome₁).1 _ hcopies
  have hgiven := has.given fun φ hφ => hof.exists_value hp hφ
  refine ⟨hemitted.terminator.trans hcond, fun hkeeps => ?_, fun φ hφ type hc => ?_⟩
  · exact htogether.test_kept hgiven hd he hD hts hsome₁ hapart hkeeps
  · exact htogether.test_given hgiven hd he hφ hc

/-! ### A loop that decides on its own variable -/

namespace Deciding

open Leaving (bit entry)

def loop : Block where
  name := "loop"
  instrs := [.phi "c" bit [("entry", .localRef "x" bit), ("loop", .localRef "y" bit)]]
  terminator := some (.condBr (.localRef "c" bit) "loop" "exit")

def exit : Block := { name := "exit", terminator := some (.ret none) }

def once : Function where
  name := "once"
  ret := .void
  params := [⟨"x", bit⟩, ⟨"y", bit⟩]
  blocks := some [entry, loop, exit]

def named : Setup where
  scope := { bindings := ⟨[("x", bit), ("y", bit), ("c", bit)]⟩ }
  draft := {
    names := { locals := ⟨[("x", "x"), ("y", "y"), ("c", "c")]⟩, used := ["c", "y", "x"] }
    declared := [("c", bit)] }
  params := ["x", "y"]

/-- The loop assigns its variable for the next turn before it looks whether there is one. -/
def buffers : Table (List Stmt) :=
  ⟨[("entry", [.set (.ident "c") (.ident "x")]), ("loop", [.set (.ident "c") (.ident "y")]),
    ("exit", [])]⟩

theorem buffers_eq :
    phiBuffers named.scope once.body named.draft = (.ok buffers, named.draft) := by
  cbv

theorem mem_body {b : Block} (h : b ∈ once.body) : b = entry ∨ b = loop ∨ b = exit := by
  simpa [Function.body, once] using h

theorem ssa : Ssa once.body where
  distinct := by decide
  dominated t ht u hu x hx huse := by
    -- The only binding is made and used by the loop.
    rcases mem_body ht with rfl | rfl | rfl
    · cases hx
    · obtain rfl : x = "c" := List.mem_singleton.1 hx
      rcases mem_body hu with rfl | rfl | rfl
      · exact absurd huse (by decide)
      · exact Flow.Dominates.refl _ _
      · exact absurd huse (by decide)
    · cases hx

theorem loop_unshadowed : loop.Unshadowed named.scope named.draft once.body := by
  intro c hc
  simp only [show loop.copies once.body = [⟨"c", bit, .localRef "y" bit⟩] from rfl,
    List.mem_singleton] at hc
  subst hc
  trivial

/-- The variables of a turn of the loop. -/
def inLoop (c y : Bool) : Env Go.booleans := fun x =>
  if x ∈ named.draft.names.used then some (if x = "c" then c else if x = "y" then y else false)
  else none

/-- In this loop the test is one of the value for the next turn; in the loop of
`Leaving`, whose condition is a parameter, the copies do not change it. -/
theorem tests_behind_copies :
    (∃ r w, Registry.seed named.scope buffers once.body named.draft = (.ok r, named.draft) ∧
      w ∈ r.live ∧ w.entry = "loop" ∧
      ∀ c y σ, Runs (.stmts w.phiOut) ⟨inLoop c y, ()⟩ (.next σ) →
        Expr.test Go.booleans σ.vars (.ident "c") = pure y) ∧
    ∃ r w, Registry.seed Leaving.named.scope Leaving.buffers Leaving.last.body Leaving.drafted =
        (.ok r, Leaving.drafted) ∧ w ∈ r.live ∧ w.entry = "loop" ∧
      ∀ i y σ, Runs (.stmts w.phiOut) ⟨Leaving.inLoop i y, ()⟩ (.next σ) →
        Expr.test Go.booleans σ.vars (.ident "y") = pure y := by
  refine ⟨⟨_, _, rfl, .tail _ (.head _), rfl, fun c y σ hrun => ?_⟩,
    ⟨_, _, rfl, .tail _ (.head _), rfl, fun i y σ hrun => ?_⟩⟩
  · have hsetup : once.setup [] = .ok named := rfl
    have hsome : ∀ x ∈ named.draft.names.used, (inLoop c y x).isSome = true := by
      intro x hx
      simp only [inLoop, if_pos hx, Option.isSome_some]
    obtain ⟨-, -, hgiven⟩ := Function.condition_after_copies (D := named.draft)
      (σ := ⟨inLoop c y, ()⟩) hsetup buffers_eq rfl ssa (.tail _ (.head _)) rfl
      (.tail _ (.head _)) rfl (le_refl _) rfl loop_unshadowed trivial hsome .nil hrun
    obtain ⟨v, e', hv, he', value, w₁, w₂, hvalue, htest⟩ := hgiven _ (.head _) bit rfl
    cases hv
    cases he'
    cases hvalue
    exact htest
  · have hsetup : Leaving.last.setup [] = .ok Leaving.named := rfl
    have hsome : ∀ x ∈ Leaving.drafted.names.used, (Leaving.inLoop i y x).isSome = true := by
      intro x hx
      simp only [Leaving.inLoop, if_pos hx, Option.isSome_some]
    have hkeeps : Leaving.loop.Keeps Leaving.last.body (.localRef "y" bit) := by
      intro φ hφ type hc
      have hdest : φ.dest = "i" ∨ φ.dest = "r" := by
        simp only [show Leaving.loop.phisAhead Leaving.last.body =
          Leaving.loop.phis ++ Leaving.exit.phis from rfl, List.mem_append] at hφ
        exact hφ.elim (Leaving.dest_of_mem (.tail _ (.head _)))
          (Leaving.dest_of_mem (.tail _ (.tail _ (.head _))))
      rw [← (Value.localRef.inj hc).1] at hdest
      exact absurd hdest (by decide)
    obtain ⟨-, hkept, -⟩ := Function.condition_after_copies (D := Leaving.drafted)
      (σ := ⟨Leaving.inLoop i y, ()⟩) hsetup Leaving.buffers_eq rfl Leaving.ssa
      (.tail _ (.head _)) rfl (.tail _ (.head _)) rfl (le_refl _) rfl Leaving.loop_unshadowed
      trivial hsome .nil hrun
    exact hkept hkeeps

/-- The variable of the parameter `x` is true. -/
def start : Env Go.booleans := fun x =>
  if x ∈ named.draft.names.used then some (x == "x") else none

/-- **A copy changes a decision**: the loop is entered with a true condition, and should go
around once more; the copy for the next turn makes the condition false before it is
tested. -/
theorem early_decision :
    once.setup [] = .ok named ∧
      phiBuffers named.scope once.body named.draft = (.ok buffers, named.draft) ∧
      Ssa once.body ∧ ∃ r D,
      Registry.seed named.scope buffers once.body named.draft = (.ok r, D) ∧
      Walk (workStep named.scope D r.live) "entry" ⟨start, ()⟩ ["entry", "loop", "exit"]
        (.out (.returned [] ())) ∧
      Walk (ssaStep named.scope D once.body) "entry" ⟨D.names.valuesOf start, ()⟩
        ["entry", "loop", "loop", "exit"] (.out (.returned [] ())) := by
  refine ⟨rfl, buffers_eq, ssa, _, _, rfl, ?_, ?_⟩
  · refine .goto ⟨_, .head _, rfl, .falls (.cons (.act rfl) .nil) .br⟩ ?_
    refine .goto ⟨_, .tail _ (.head _), rfl, .falls (.cons (.act rfl) .nil) (.condFalse rfl rfl)⟩ ?_
    exact .out ⟨_, .tail _ (.tail _ (.head _)), rfl, .falls .nil .ret⟩
  · refine .goto ⟨_, .head _, rfl, .falls rfl .nil (.edge (.tail _ (.head _)) .br rfl)⟩ ?_
    refine .goto ⟨_, .tail _ (.head _), rfl,
      .falls rfl .nil (.edge (.tail _ (.head _)) (.condTrue rfl rfl) rfl)⟩ ?_
    refine .goto ⟨_, .tail _ (.head _), rfl,
      .falls rfl .nil (.edge (.tail _ (.tail _ (.head _))) (.condFalse rfl rfl) rfl)⟩ ?_
    exact .out ⟨_, .tail _ (.tail _ (.head _)), rfl, .falls rfl .nil (.out .ret)⟩

end Deciding

end GoLift
