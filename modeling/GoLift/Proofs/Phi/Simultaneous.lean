import GoLift.Proofs.Phi.Unobserved

/-!
# A buffer hands on all phis ahead at once

Whatever a block ends in, its buffer serves the phis of all blocks it goes to
(`Block.phisAhead`), and **leaves each with the value that it had for the block before the
buffer was begun** (`Function.buffer_simultaneous`). Which phis read which others does
not matter: where a value would be overwritten too early, it is in a temporary.

What has to be known is that no constant or global variable among the values is called
as something that the buffer assigns (`Block.Unshadowed`). Bindings are kept from
keywords only, and a temporary may take the identifier of a global variable.
-/

set_option autoImplicit false

namespace GoLift

open Go (Expr Stmt Host Env Action State Runs Acts Settles)
open DraftM

/-! ### Giving values at once -/

namespace Go

variable {H : Host}

/-- The end of a run that evaluates expressions and then gives their values to
variables. Apart from these it changes at most the variables `ts`. -/
inductive Together (as : List (String × Expr)) (ts : List String) (σ : State H) : Flow H → Prop
  | next {vs : List H.Value} {σ' : State H} :
      Expr.evalAll H σ.vars (as.map Prod.snd) σ.world = some (.ok vs, σ'.world) →
      List.Forall₂ (fun a v => σ'.vars a.1 = some v) as vs →
      (∀ x, x ∉ as.map Prod.fst → x ∉ ts → σ'.vars x = σ.vars x) →
      Together as ts σ (.next σ')
  | panic {w : H.World} :
      Expr.evalAll H σ.vars (as.map Prod.snd) σ.world = some (.error (), w) →
      Together as ts σ (.done (.panicked w))

variable {c : Code} {σ : State H} {as : List (String × Expr)} {ts : List String}

/-- What an assignment of all values comes to, if the variables are different. -/
theorem Acts.together
    (h : Acts c σ ((fun vs => (σ.vars.setAll ts vs).setAll (as.map Prod.fst) vs) <$>
      Expr.evalAll H σ.vars (as.map Prod.snd))) (hnodup : (as.map Prod.fst).Nodup) {φ : Flow H}
    (hrun : Runs c σ φ) : Together as ts σ φ := by
  cases (h φ).1 hrun with
  | next hx =>
    obtain ⟨vs, hvs, rfl⟩ := Action.map_eq_ok.1 hx
    have hlen : (as.map Prod.fst).length = vs.length := by
      rw [← evalAll_length hvs, List.length_map, List.length_map]
    refine .next hvs (List.forall₂_map_left_iff.1 (Env.setAll_holds hnodup hlen _)) ?_
    intro x hdest htemp
    exact (Env.setAll_of_not_mem hdest _ vs).trans (Env.setAll_of_not_mem htemp _ vs)
  | panic hx => exact .panic (Action.map_eq_error.1 hx)

/-- Where the values can be evaluated, there is a run. -/
theorem Acts.exists_run {x : Action H.World (List H.Value)} {f : List H.Value → Env H}
    (h : Acts c σ (f <$> x)) {r : Except Unit (List H.Value) × H.World}
    (hr : x σ.world = some r) : ∃ φ, Runs c σ φ := by
  obtain ⟨⟨⟩ | vs, w⟩ := r
  · exact ⟨_, (h _).2 (.panic (Action.map_eq_error.2 hr))⟩
  · exact ⟨_, (h _).2 (.next (Action.map_eq_ok.2 ⟨vs, hr, rfl⟩))⟩

end Go

open Go (Together)

/-! ### Phis and their assignments -/

/-- An assignment gives the variable of a phi the value that the phi has for an edge. -/
structure Phi.Given (scope : Scope) (D : Draft) (pred : String) (φ : Phi) (a : String × Expr) :
    Prop where
  dest : D.names.local? φ.dest = some a.1
  value : ∃ v, φ.valueFrom pred = some v ∧ (v.lower scope D).1 = .ok a.2

/-- No constant or global variable that a block hands on is called as something that its
buffer assigns. -/
def Block.Unshadowed (scope : Scope) (D : Draft) (blocks : List Block) (p : Block) : Prop :=
  ∀ c ∈ p.copies blocks, c.value.Apart scope D (Assigned D (p.copies blocks))

variable {scope : Scope} {blocks : List Block} {D : Draft} {p : Block} {ss : List Stmt}
  {as : List (String × Expr)}

/-- The assignment for a phi, where its variable and its value are known. -/
theorem given_iff {pred x : String} {φ : Phi} {v : Value} {e : Expr} {a : String × Expr}
    (hx : D.names.local? φ.dest = some x) (hv : φ.valueFrom pred = some v)
    (he : (v.lower scope D).1 = .ok e) : φ.Given scope D pred a ↔ a = (x, e) := by
  constructor
  · rintro ⟨hdest, v', hv', he'⟩
    rw [hx] at hdest
    rw [hv] at hv'
    cases hv'
    rw [he] at he'
    exact Prod.ext (Option.some.inj hdest).symm (Except.ok.inj he').symm
  · rintro rfl
    exact ⟨hx, v, hv, he⟩

theorem given_of_lowers {pred : String} {φs : List Phi}
    (hvalue : ∀ φ ∈ φs, ∃ v, φ.valueFrom pred = some v)
    (hlowers : List.Forall₂ (Copy.Lowers scope D) (φs.filterMap (Phi.copyFrom pred)) as) :
    List.Forall₂ (Phi.Given scope D pred) φs as := by
  induction φs generalizing as with
  | nil =>
    cases hlowers
    exact .nil
  | cons φ φs ih =>
    obtain ⟨v, hv⟩ := hvalue φ List.mem_cons_self
    rw [List.filterMap_cons, Phi.copyFrom_eq hv] at hlowers
    cases hlowers with
    | cons hfirst hrest =>
      have hlower := hfirst.value.now (steady_lower scope v)
      exact .cons ⟨hfirst.dest, v, hv, hlower⟩
        (ih (fun ψ hψ => hvalue ψ (List.mem_cons_of_mem _ hψ)) hrest)

/-- What a buffer assigns are the phis ahead of the block. -/
theorem Buffered.given (h : Buffered scope D (p.copies blocks) as ss)
    (hvalue : ∀ φ ∈ p.phisAhead blocks, ∃ v, φ.valueFrom p.name = some v) :
    List.Forall₂ (Phi.Given scope D p.name) (p.phisAhead blocks) as := by
  have hlowers := h.lowers
  rw [Block.copies_eq] at hlowers
  exact given_of_lowers hvalue hlowers

/-- Copies to different bindings assign different variables. -/
theorem nodup_assigned (hD : D.names.Sound) {copies : List Copy}
    (hlowers : List.Forall₂ (Copy.Lowers scope D) copies as)
    (hdests : (copies.map Copy.dest).Nodup) : (as.map Prod.fst).Nodup := by
  refine List.pairwise_map.2 (pairwise_of_forall₂ hlowers (List.pairwise_map.1 hdests) ?_)
  rintro c c' a a' hne ha ha' heq
  exact hne (hD.injective ha.dest (heq ▸ ha'.dest))

/-- **What a buffer leaves behind**, if nothing is shadowed. -/
theorem Buffered.together {H : Host} (hD : D.names.Sound)
    (h : Buffered scope D (p.copies blocks) as ss)
    (hdests : ((p.copies blocks).map Copy.dest).Nodup)
    (hunshadowed : p.Unshadowed scope D blocks) :
    ∃ ts : List String, (∀ t ∈ ts, D.names.Reserved t) ∧
      ∀ σ : State H, (∀ x ∈ D.names.used, (σ.vars x).isSome = true) →
        (∀ φ, Runs (.stmts ss) σ φ → Together as ts σ φ) ∧
        ∀ r, Expr.evalAll H σ.vars (as.map Prod.snd) σ.world = some r →
          ∃ φ, Runs (.stmts ss) σ φ := by
  obtain ⟨ts, hts, hacts⟩ := h.acts_of_apart (H := H) hD hdests hunshadowed
  refine ⟨ts, hts, fun σ hsome => ⟨fun φ hrun => ?_, fun r hr => ?_⟩⟩
  · exact (hacts σ hsome).together (nodup_assigned hD h.lowers hdests) hrun
  · exact (hacts σ hsome).exists_run hr

/-! ### Functions -/

/-- What is in use before any temporary is made, is that of a binding. -/
theorem Function.setup_bound {f : Function} {globals : List String} {su : Setup}
    (h : f.setup globals = .ok su) {x : String} (hx : x ∈ su.draft.names.used) :
    ∃ raw, su.draft.names.local? raw = some x := by
  obtain ⟨results, -, h⟩ := except_bind_ok h
  cases h
  exact ((NameTable.names_empty.bindAll _).bindAll _).of_used hx

/-- **The buffer of a block is a parallel copy.** Every run of it from declared variables
evaluates what the phis ahead of the block have for it, and then their variables hold
these values; nothing else has changed but temporaries that were made for the buffers. It
runs if the values can be evaluated. -/
theorem Function.buffer_simultaneous {f : Function} {globals : List String} {su : Setup}
    {buffers : Table (List Stmt)} {H : Host} (hsetup : f.setup globals = .ok su)
    (hbuffers : phiBuffers su.scope f.body su.draft = (.ok buffers, D))
    (hnames : (f.body.map Block.name).Nodup)
    (hbindings : ∀ results, resultsOf f.body = .ok results → (results.map Prod.fst).Nodup)
    (hp : p ∈ f.body) (hunshadowed : p.Unshadowed su.scope D f.body) :
    ∃ ss as ts, buffers.get? p.name = some ss ∧
      List.Forall₂ (Phi.Given su.scope D p.name) (p.phisAhead f.body) as ∧
      (∀ t ∈ ts, D.names.Reserved t ∧ t ∉ su.draft.names.used) ∧
      ∀ σ : State H, (∀ x ∈ D.names.used, (σ.vars x).isSome = true) →
        (∀ φ, Runs (.stmts ss) σ φ → Together as ts σ φ) ∧
        ∀ r, Expr.evalAll H σ.vars (as.map Prod.snd) σ.world = some r →
          ∃ φ, Runs (.stmts ss) σ φ := by
  obtain ⟨⟨results, hresults⟩, hsound⟩ := Function.setup_ok hsetup
  have hle : su.draft ≤ D := (grows_phiBuffers _ _).apply hbuffers
  have hD : D.names.Sound := hle.sound hsound
  obtain ⟨copies, hof, hbuffered⟩ := phiBuffers_ok hnames hsound hbuffers
  obtain ⟨as, ss, hss, has⟩ := hbuffered p hp
  have hdests : ((p.copies f.body).map Copy.dest).Nodup :=
    (nodup_phiDests hresults (hbindings results hresults)).sublist (p.dests_copies f.body)
  obtain ⟨ts, hts, hruns⟩ := has.together (H := H) hD hdests hunshadowed
  refine ⟨ss, as, ts, hss, has.given fun φ hφ => hof.exists_value hp hφ,
    fun t ht => ⟨hts t ht, fun hused => ?_⟩, hruns⟩
  obtain ⟨raw, hraw⟩ := Function.setup_bound hsetup hused
  exact (hts t ht).unbound raw (hle.local? hraw)

/-! ### A loop that hands on its variable -/

namespace Leaving

/-- Every variable is false but for the two that the loop hands on. -/
def inLoop (i y : Bool) : Env Go.booleans := fun x =>
  if x ∈ drafted.names.used then some (if x = "i" then i else if x = "y" then y else false)
  else none

theorem loop_unshadowed : loop.Unshadowed named.scope drafted last.body := by
  intro c hc
  simp only [show loop.copies last.body = [⟨"i", bit, .localRef "y" bit⟩,
    ⟨"r", bit, .localRef "i" bit⟩] from rfl, List.mem_cons, List.not_mem_nil, or_false] at hc
  rcases hc with rfl | rfl <;> trivial

/-- The exit phi gets the value that the loop's variable had, and not the one that it is
given for the next turn. -/
theorem loop_hands_on :
    ∃ ss, buffers.get? "loop" = some ss ∧ ∀ i y,
      (∃ φ, Runs (.stmts ss) ⟨inLoop i y, ()⟩ φ) ∧
      ∀ σ, Runs (.stmts ss) ⟨inLoop i y, ()⟩ (.next σ) →
        σ.vars "i" = some y ∧ σ.vars "r" = some i ∧ σ.vars "x" = some false := by
  have hsetup : last.setup [] = .ok named := rfl
  have hbindings : ∀ results, resultsOf last.body = .ok results →
      (results.map Prod.fst).Nodup := by
    intro results h
    cases h
    decide
  obtain ⟨ss, as, ts, hss, has, hts, hruns⟩ :=
    Function.buffer_simultaneous (H := Go.booleans) hsetup buffers_eq (by decide) hbindings
      (.tail _ (.head _)) loop_unshadowed
  refine ⟨ss, hss, fun i y => ?_⟩
  obtain ⟨htogether, hruns⟩ :=
    hruns ⟨inLoop i y, ()⟩ fun x hx => by simp only [inLoop, if_pos hx, Option.isSome_some]
  -- The two phis ahead of the loop are given the variables `y` and `i`.
  obtain rfl : as = [("i", .ident "y"), ("r", .ident "i")] := by
    cases has with
    | cons hi has =>
      cases has with
      | cons hr has =>
        cases has
        rw [given_iff rfl rfl rfl] at hi hr
        rw [hi, hr]
  refine ⟨hruns _ rfl, fun σ hrun => ?_⟩
  cases htogether _ hrun with
  | next hvs hgiven hother =>
    cases hvs
    cases hgiven with
    | cons hi hgiven =>
      cases hgiven with
      | cons hr hgiven =>
        have hx : "x" ∉ ts := fun hx => (hts _ hx).2 (by decide)
        exact ⟨hi, hr, hother "x" (by decide) hx⟩

end Leaving

end GoLift
