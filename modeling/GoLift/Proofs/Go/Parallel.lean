import GoLift.Proofs.Go.Plain
import Mathlib.Data.List.Forall2
import Mathlib.Data.List.Nodup

/-!
# Assigning all at once

Assignments that are made one after the other amount to evaluating all their
values first and then assigning these at once, if no value reads what an earlier
assignment has written (`runs_sets`). Where some value does, every value can be put
into a temporary before any of the assignments is made (`runs_captured`); then
**nothing is asked of the values but that they read no temporary**.

Both say what a run of the statements comes to by one action, which evaluates the
values from left to right in the environment before the first assignment.
-/

set_option autoImplicit false

namespace GoLift.Go

variable {H : Host}

/-! ### Many variables -/

/-- Give variables values, one by one. -/
def Env.setAll (ρ : Env H) : List String → List H.Value → Env H
  | x :: xs, v :: vs => (ρ.set x v).setAll xs vs
  | _, _ => ρ

@[simp] theorem Env.setAll_nil (ρ : Env H) (vs : List H.Value) : ρ.setAll [] vs = ρ := by
  cases vs <;> rfl

@[simp] theorem Env.setAll_cons (ρ : Env H) (x : String) (xs : List String) (v : H.Value)
    (vs : List H.Value) : ρ.setAll (x :: xs) (v :: vs) = (ρ.set x v).setAll xs vs := rfl

theorem Env.setAll_of_not_mem {xs : List String} {x : String} (hx : x ∉ xs) (ρ : Env H)
    (vs : List H.Value) : ρ.setAll xs vs x = ρ x := by
  induction xs generalizing ρ vs with
  | nil => rw [setAll_nil]
  | cons y xs ih =>
    rw [List.mem_cons, not_or] at hx
    cases vs with
    | nil => rfl
    | cons v vs => rw [setAll_cons, ih hx.2, Env.set_ne ρ v hx.1]

/-- Different variables hold the values they were given. -/
theorem Env.setAll_holds {xs : List String} (hxs : xs.Nodup) {vs : List H.Value}
    (hlen : xs.length = vs.length) (ρ : Env H) :
    List.Forall₂ (fun x v => ρ.setAll xs vs x = some v) xs vs := by
  induction xs generalizing ρ vs with
  | nil =>
    cases vs with
    | nil => exact .nil
    | cons v vs => cases hlen
  | cons x xs ih =>
    cases vs with
    | nil => cases hlen
    | cons v vs =>
      rw [List.nodup_cons] at hxs
      refine .cons ?_ (ih hxs.2 (by simpa using hlen) _)
      rw [setAll_cons, setAll_of_not_mem hxs.1, Env.set_self]

/-- Setting variables that are there moves them and no others. -/
theorem Env.setAll_moves {xs : List String} {ρ : Env H} (hxs : ∀ x ∈ xs, (ρ x).isSome = true)
    (vs : List H.Value) : Env.Moves (· ∈ xs) ρ (ρ.setAll xs vs) := by
  induction xs generalizing ρ vs with
  | nil =>
    rw [setAll_nil]
    exact .refl _ ρ
  | cons x xs ih =>
    cases vs with
    | nil => exact .refl _ ρ
    | cons v vs =>
      have hfirst : Env.Moves (· ∈ x :: xs) ρ (ρ.set x v) := .set (by simp) (hxs x (by simp)) v
      have hrest := ih (ρ := ρ.set x v)
        (fun y hy => (hfirst.isSome y).trans (hxs y (List.mem_cons_of_mem _ hy))) vs
      refine hfirst.trans fun y => ?_
      exact (hrest y).imp id fun h => ⟨List.mem_cons_of_mem _ h.1, h.2⟩

/-- Environments that agree go on to agree. -/
theorem Env.AgreeOn.setAll {S : String → Prop} {ρ ρ' : Env H} (h : Env.AgreeOn S ρ ρ')
    (xs : List String) (vs : List H.Value) :
    Env.AgreeOn S (ρ.setAll xs vs) (ρ'.setAll xs vs) := by
  induction xs generalizing ρ ρ' vs with
  | nil =>
    rw [Env.setAll_nil, Env.setAll_nil]
    exact h
  | cons x xs ih =>
    cases vs with
    | nil => exact h
    | cons v vs => exact ih (h.set x v) vs

/-- Any two environments agree on what they are both given. -/
theorem Env.agreeOn_setAll {xs : List String} {vs : List H.Value} (hlen : xs.length = vs.length)
    (ρ ρ' : Env H) : Env.AgreeOn (· ∈ xs) (ρ.setAll xs vs) (ρ'.setAll xs vs) := by
  induction xs generalizing ρ ρ' vs with
  | nil => exact fun x hx => nomatch hx
  | cons x xs ih =>
    cases vs with
    | nil => cases hlen
    | cons v vs =>
      intro y hy
      by_cases hmem : y ∈ xs
      · exact ih (by simpa using hlen) (ρ.set x v) (ρ'.set x v) y hmem
      · have hyx : y = x := (List.mem_cons.1 hy).resolve_right hmem
        rw [Env.setAll_cons, Env.setAll_cons, Env.setAll_of_not_mem hmem,
          Env.setAll_of_not_mem hmem, hyx, Env.set_self, Env.set_self]

/-! ### Values of lists -/

theorem evalAll_length {ρ : Env H} {es : List Expr} {w w' : H.World} {vs : List H.Value}
    (h : Expr.evalAll H ρ es w = some (.ok vs, w')) : es.length = vs.length := by
  induction es generalizing w vs with
  | nil =>
    rw [Expr.evalAll] at h
    cases h
    rfl
  | cons e es ih =>
    rw [Expr.evalAll] at h
    obtain ⟨v, w₁, -, h⟩ := Action.bind_eq_ok.1 h
    obtain ⟨vs', w₂, hrest, h⟩ := Action.bind_eq_ok.1 h
    cases h
    rw [List.length_cons, List.length_cons, ih hrest]

/-- Variables have the values they hold. -/
theorem evalAll_idents {ρ : Env H} {xs : List String} {vs : List H.Value}
    (h : List.Forall₂ (fun x v => ρ x = some v) xs vs) :
    Expr.evalAll H ρ (xs.map Expr.ident) = pure vs := by
  induction h with
  | nil => rw [List.map_nil, Expr.evalAll]
  | cons hx _ ih =>
    rw [List.map_cons, Expr.evalAll, Expr.eval, Host.read, hx, ih]
    rfl

theorem mem_identsOf {x : String} {es : List Expr} :
    x ∈ Expr.identsOf es ↔ ∃ e ∈ es, x ∈ e.idents := by
  induction es with
  | nil => simp [Expr.identsOf]
  | cons e es ih => simp [Expr.identsOf, ih]

/-! ### What code acts like -/

/-- The end that an action on the variables comes to. -/
inductive Settles (x : Action H.World (Env H)) (w : H.World) : Flow H → Prop
  | next {ρ : Env H} {w' : H.World} : x w = some (.ok ρ, w') → Settles x w (.next ⟨ρ, w'⟩)
  | panic {w' : H.World} : x w = some (.error (), w') → Settles x w (.done (.panicked w'))

/-- From a state, the code does what an action does. -/
def Acts (c : Code) (σ : State H) (x : Action H.World (Env H)) : Prop :=
  ∀ φ, Runs c σ φ ↔ Settles x σ.world φ

theorem acts_nil {σ : State H} : Acts (.stmts []) σ (pure σ.vars) := by
  intro φ
  rw [runs_nil]
  constructor
  · rintro rfl
    exact .next rfl
  · intro h
    cases h with
    | next h =>
      cases h
      rfl
    | panic h => cases h

theorem Acts.of_eq {c : Code} {σ : State H} {x y : Action H.World (Env H)} (h : Acts c σ x)
    (hxy : x σ.world = y σ.world) : Acts c σ y := by
  intro φ
  rw [h φ]
  constructor <;> intro hset
  · cases hset with
    | next hx => exact .next (hxy ▸ hx)
    | panic hx => exact .panic (hxy ▸ hx)
  · cases hset with
    | next hy => exact .next (hxy.symm ▸ hy)
    | panic hy => exact .panic (hxy.symm ▸ hy)

/-- An assignment does what `Stmt.act` says. -/
theorem acts_set {lhs rhs : Expr} {σ : State H} :
    Acts (.stmt (.set lhs rhs)) σ (assignTo H σ.vars lhs rhs) := by
  intro φ
  constructor
  · intro h
    cases h with
    | act h => exact .next h
    | actPanic h => exact .panic h
  · intro h
    cases h with
    | next h => exact .act h
    | panic h => exact .actPanic h

theorem Acts.append {ss ts : List Stmt} {σ : State H} {x : Action H.World (Env H)}
    {f : Env H → Action H.World (Env H)} (hss : Acts (.stmts ss) σ x)
    (hts : ∀ ρ w, x σ.world = some (.ok ρ, w) → Acts (.stmts ts) ⟨ρ, w⟩ (f ρ)) :
    Acts (.stmts (ss ++ ts)) σ (x >>= f) := by
  intro φ
  constructor
  · intro h
    rcases runs_append_cases h with ⟨σ₁, h₁, h₂⟩ | ⟨h₁, hne⟩
    · cases (hss _).1 h₁ with
      | next hx =>
        cases (hts _ _ hx φ).1 h₂ with
        | next hf => exact .next (Action.bind_eq_ok.2 ⟨_, _, hx, hf⟩)
        | panic hf => exact .panic (Action.bind_eq_error.2 (.inr ⟨_, _, hx, hf⟩))
    · cases (hss _).1 h₁ with
      | next _ => exact absurd rfl (hne _)
      | panic hx => exact .panic (Action.bind_eq_error.2 (.inl hx))
  · intro h
    cases h with
    | next h =>
      obtain ⟨ρ, w, hx, hf⟩ := Action.bind_eq_ok.1 h
      exact runs_append ((hss _).2 (.next hx)) ((hts ρ w hx _).2 (.next hf))
    | panic h =>
      rcases Action.bind_eq_error.1 h with hx | ⟨ρ, w, hx, hf⟩
      · exact runs_append_stop ((hss _).2 (.panic hx)) (by simp)
      · exact runs_append ((hss _).2 (.next hx)) ((hts ρ w hx _).2 (.panic hf))

/-! ### Runs of assignments -/

/-- Assignments of expressions to variables. -/
def sets (as : List (String × Expr)) : List Stmt :=
  as.map fun a => .set (.ident a.1) a.2

/-- Evaluate expressions and give their values to variables, all at once. -/
def assignAll (ρ : Env H) (as : List (String × Expr)) : Action H.World (Env H) :=
  (fun vs => ρ.setAll (as.map Prod.fst) vs) <$> Expr.evalAll H ρ (as.map Prod.snd)

/-- **Assignments of which none writes what a later one reads, amount to assigning
all values at once.** -/
theorem acts_sets {as : List (String × Expr)}
    (hseq : as.Pairwise (fun a b => a.1 ∉ b.2.idents)) {σ : State H}
    (hsome : ∀ a ∈ as, (σ.vars a.1).isSome = true) :
    Acts (.stmts (sets as)) σ (assignAll σ.vars as) := by
  induction as generalizing σ with
  | nil =>
    have hnil : assignAll σ.vars [] = pure σ.vars := by simp [assignAll, Expr.evalAll]
    rw [hnil]
    exact acts_nil
  | cons a as ih =>
    obtain ⟨x, e⟩ := a
    rw [List.pairwise_cons] at hseq
    obtain ⟨old, hold⟩ : ∃ old, σ.vars x = some old :=
      Option.isSome_iff_exists.1 (hsome (x, e) (by simp))
    have hset : assignTo H σ.vars (.ident x) e = (fun v => σ.vars.set x v) <$> e.eval H σ.vars := by
      simp only [assignTo, hold]
      rfl
    -- The rest is evaluated as if the first assignment had not been made.
    have hcongr : ∀ v, Expr.evalAll H (σ.vars.set x v) (as.map Prod.snd) =
        Expr.evalAll H σ.vars (as.map Prod.snd) := by
      intro v
      refine evalAll_congr _ fun y hy => Env.set_ne _ v ?_
      rintro rfl
      obtain ⟨e', he', hy⟩ := mem_identsOf.1 hy
      obtain ⟨b, hb, rfl⟩ := List.mem_map.1 he'
      exact hseq.1 b hb hy
    have hsplit : assignAll σ.vars ((x, e) :: as) =
        assignTo H σ.vars (.ident x) e >>= fun ρ =>
          (fun vs => ρ.setAll (as.map Prod.fst) vs) <$>
            Expr.evalAll H σ.vars (as.map Prod.snd) := by
      simp [assignAll, Expr.evalAll, hset]
    rw [hsplit]
    have hone : Acts (.stmts [.set (.ident x) e]) σ (assignTo H σ.vars (.ident x) e) :=
      fun φ => runs_singleton.trans (acts_set φ)
    change Acts (.stmts ([.set (.ident x) e] ++ sets as)) σ _
    refine hone.append fun ρ w hρ => ?_
    obtain ⟨v, rfl⟩ : ∃ v, ρ = σ.vars.set x v := by
      rw [hset] at hρ
      obtain ⟨v, -, rfl⟩ := Action.map_eq_ok.1 hρ
      exact ⟨v, rfl⟩
    rw [← hcongr v]
    refine ih hseq.2 fun b hb => ?_
    have hx : (σ.vars x).isSome = true := by rw [hold]; rfl
    have hmoves := Env.Moves.set (S := (· = x)) rfl hx v
    exact (hmoves.isSome b.1).trans (hsome b (List.mem_cons_of_mem _ hb))

/-- An assignment by way of a temporary. -/
structure Capture where
  dest : String
  temporary : String
  value : Expr

/-- Put every value in its temporary, and then assign the temporaries. -/
def captured (cs : List Capture) : List Stmt :=
  sets (cs.map fun c => (c.temporary, c.value)) ++
    sets (cs.map fun c => (c.dest, .ident c.temporary))

/-- **Assigning by way of temporaries amounts to assigning all values at once**,
apart from the temporaries. -/
theorem acts_captured {cs : List Capture} (hnodup : (cs.map Capture.temporary).Nodup)
    (hvalues : ∀ c ∈ cs, ∀ c' ∈ cs, c.temporary ∉ c'.value.idents)
    (hdests : ∀ c ∈ cs, ∀ c' ∈ cs, c.temporary ≠ c'.dest) {σ : State H}
    (hsome : ∀ c ∈ cs, (σ.vars c.temporary).isSome = true ∧ (σ.vars c.dest).isSome = true) :
    Acts (.stmts (captured cs)) σ
      ((fun vs => (σ.vars.setAll (cs.map Capture.temporary) vs).setAll (cs.map Capture.dest) vs) <$>
        Expr.evalAll H σ.vars (cs.map Capture.value)) := by
  have htemps : (cs.map fun c => (c.temporary, c.value)).map Prod.fst =
      cs.map Capture.temporary := by simp
  have hreads : (cs.map fun c => (c.dest, Expr.ident c.temporary)).map Prod.snd =
      (cs.map Capture.temporary).map Expr.ident := by simp
  have hfirst : Acts (.stmts (sets (cs.map fun c => (c.temporary, c.value)))) σ
      (assignAll σ.vars (cs.map fun c => (c.temporary, c.value))) := by
    refine acts_sets (List.pairwise_of_forall_mem_list ?_) ?_
    · rintro a ha b hb
      obtain ⟨c, hc, rfl⟩ := List.mem_map.1 ha
      obtain ⟨c', hc', rfl⟩ := List.mem_map.1 hb
      exact hvalues c hc c' hc'
    · rintro a ha
      obtain ⟨c, hc, rfl⟩ := List.mem_map.1 ha
      exact (hsome c hc).1
  have hboth : Acts (.stmts (captured cs)) σ
      (assignAll σ.vars (cs.map fun c => (c.temporary, c.value)) >>= fun ρ =>
        assignAll ρ (cs.map fun c => (c.dest, Expr.ident c.temporary))) := by
    refine hfirst.append fun ρ w hρ => acts_sets (List.pairwise_of_forall_mem_list ?_) ?_
    · rintro a ha b hb
      obtain ⟨c, hc, rfl⟩ := List.mem_map.1 ha
      obtain ⟨c', hc', rfl⟩ := List.mem_map.1 hb
      simpa [Expr.idents] using (hdests c' hc' c hc).symm
    · rintro a ha
      obtain ⟨c, hc, rfl⟩ := List.mem_map.1 ha
      obtain ⟨vs, -, rfl⟩ := Action.map_eq_ok.1 hρ
      refine ((Env.setAll_moves ?_ vs).isSome _).trans (hsome c hc).2
      rw [htemps]
      rintro x hx
      obtain ⟨c', hc', rfl⟩ := List.mem_map.1 hx
      exact (hsome c' hc').1
  refine hboth.of_eq ?_
  -- Reading the temporaries gives the values that were put there.
  rw [Action.bind_apply, Action.map_apply, assignAll, Action.map_apply]
  have hvalues' : (cs.map fun c => (c.temporary, c.value)).map Prod.snd =
      cs.map Capture.value := by simp
  rw [hvalues', htemps]
  rcases hvs : Expr.evalAll H σ.vars (cs.map Capture.value) σ.world with _ | ⟨⟨⟩ | vs, w⟩
  · rfl
  · rfl
  · have hlen : (cs.map Capture.temporary).length = vs.length := by
      rw [← evalAll_length hvs, List.length_map, List.length_map]
    have hholds := Env.setAll_holds hnodup hlen σ.vars
    have hdests' : (cs.map fun c => (c.dest, Expr.ident c.temporary)).map Prod.fst =
        cs.map Capture.dest := by simp
    dsimp only
    rw [assignAll, hreads, evalAll_idents hholds, hdests']
    rfl

end GoLift.Go
