import GoLift.Proofs.Go.Eval

/-!
# What statements do

A run of statements starts in a `State`, the variables and the world, and comes
to one of four ends (`Flow`): it falls through, it breaks or continues the loop
around it, or it leaves the function with an `Outcome`. A run that never ends, or
that comes upon something without meaning, has no end and so no derivation.

Runs are derivations over a `Code`, a statement or a list of statements. The
append lemmas take a run of `ss ++ ts` apart and put it together again, and
`Contained` statements, which no `break` or `continue` can leave, are those a
structured statement can be built of without changing what they do.
-/

set_option autoImplicit false

namespace GoLift.Go

/-- The variables of a function and the world around it. -/
structure State (H : Host) where
  vars : Env H
  world : H.World

/-- How control leaves a function. -/
inductive Outcome (H : Host)
  | returned (results : List H.Value) (world : H.World)
  | panicked (world : H.World)

/-- How a run of statements ends. -/
inductive Flow (H : Host)
  /-- Control goes on behind the statements. -/
  | next (σ : State H)
  /-- The loop around the statements ends. -/
  | broke (σ : State H)
  /-- The loop around the statements goes on with its next turn. -/
  | continued (σ : State H)
  | done (o : Outcome H)

/-- A statement, or a list of them. -/
inductive Code
  | stmt (s : Stmt)
  | stmts (ss : List Stmt)

variable {H : Host}

/-! ### Simple statements -/

/-- Assign to a place. -/
def assignTo (H : Host) (ρ : Env H) (lhs rhs : Expr) : Action H.World (Env H) :=
  match lhs with
  | .ident x => do
    let v ← rhs.eval H ρ
    match ρ x with
    | some _ => return ρ.set x v
    | none => do
      H.setOuter x v
      return ρ
  | .star p => do
    let a ← p.eval H ρ
    H.store a (← rhs.eval H ρ)
    return ρ
  | _ => .stuck

/-- Declare variables with the zeros of their types. -/
def declare (H : Host) (ρ : Env H) : List Spec → Action H.World (Env H)
  | [] => return ρ
  | .value [name] (some type) [] :: specs => do
    let v ← H.zero (← type.eval H ρ)
    declare H (ρ.set name v) specs
  | _ => .stuck

/-- What a statement does that has no statements in it. -/
def Stmt.act (H : Host) (ρ : Env H) : Stmt → Action H.World (Env H)
  | .assign [lhs] "=" [rhs] => assignTo H ρ lhs rhs
  | .expr x => do
    let _ ← x.eval H ρ
    return ρ
  | .decl d => declare H ρ d.specs
  | _ => .stuck

/-- The outcome of a loop's condition; a loop without one goes on. -/
def loopTest (H : Host) (ρ : Env H) : Option Expr → Action H.World Bool
  | none => return true
  | some c => c.test H ρ

/-! ### Runs -/

/-- `Runs c σ φ`: from the state `σ`, the code `c` comes to the end `φ`. -/
inductive Runs : Code → State H → Flow H → Prop
  | act {s : Stmt} {σ : State H} {ρ w} :
      s.act H σ.vars σ.world = some (.ok ρ, w) → Runs (.stmt s) σ (.next ⟨ρ, w⟩)
  | actPanic {s : Stmt} {σ : State H} {w} :
      s.act H σ.vars σ.world = some (.error (), w) → Runs (.stmt s) σ (.done (.panicked w))
  | block {body : List Stmt} {σ : State H} {φ} :
      Runs (.stmts body) σ φ → Runs (.stmt (.block body)) σ φ
  | ifTrue {c : Expr} {body : List Stmt} {orElse : Option Stmt} {σ : State H} {w φ} :
      c.test H σ.vars σ.world = some (.ok true, w) →
      Runs (.stmts body) ⟨σ.vars, w⟩ φ → Runs (.stmt (.ifElse c body orElse)) σ φ
  | ifFalse {c : Expr} {body : List Stmt} {orElse : Option Stmt} {σ : State H} {w φ} :
      c.test H σ.vars σ.world = some (.ok false, w) →
      Runs (.stmts orElse.toList) ⟨σ.vars, w⟩ φ → Runs (.stmt (.ifElse c body orElse)) σ φ
  | ifPanic {c : Expr} {body : List Stmt} {orElse : Option Stmt} {σ : State H} {w} :
      c.test H σ.vars σ.world = some (.error (), w) →
      Runs (.stmt (.ifElse c body orElse)) σ (.done (.panicked w))
  | loopEnd {c : Option Expr} {body : List Stmt} {σ : State H} {w} :
      loopTest H σ.vars c σ.world = some (.ok false, w) →
      Runs (.stmt (.loop c body)) σ (.next ⟨σ.vars, w⟩)
  | loopPanic {c : Option Expr} {body : List Stmt} {σ : State H} {w} :
      loopTest H σ.vars c σ.world = some (.error (), w) →
      Runs (.stmt (.loop c body)) σ (.done (.panicked w))
  | loopNext {c : Option Expr} {body : List Stmt} {σ : State H} {w σ₁ φ} :
      loopTest H σ.vars c σ.world = some (.ok true, w) →
      Runs (.stmts body) ⟨σ.vars, w⟩ (.next σ₁) →
      Runs (.stmt (.loop c body)) σ₁ φ → Runs (.stmt (.loop c body)) σ φ
  | loopContinue {c : Option Expr} {body : List Stmt} {σ : State H} {w σ₁ φ} :
      loopTest H σ.vars c σ.world = some (.ok true, w) →
      Runs (.stmts body) ⟨σ.vars, w⟩ (.continued σ₁) →
      Runs (.stmt (.loop c body)) σ₁ φ → Runs (.stmt (.loop c body)) σ φ
  | loopBreak {c : Option Expr} {body : List Stmt} {σ : State H} {w σ₁} :
      loopTest H σ.vars c σ.world = some (.ok true, w) →
      Runs (.stmts body) ⟨σ.vars, w⟩ (.broke σ₁) → Runs (.stmt (.loop c body)) σ (.next σ₁)
  | loopDone {c : Option Expr} {body : List Stmt} {σ : State H} {w o} :
      loopTest H σ.vars c σ.world = some (.ok true, w) →
      Runs (.stmts body) ⟨σ.vars, w⟩ (.done o) → Runs (.stmt (.loop c body)) σ (.done o)
  | breakLoop {σ : State H} : Runs (.stmt (.branch "break")) σ (.broke σ)
  | continueLoop {σ : State H} : Runs (.stmt (.branch "continue")) σ (.continued σ)
  | ret {es : List Expr} {σ : State H} {vs w} :
      Expr.evalAll H σ.vars es σ.world = some (.ok vs, w) →
      Runs (.stmt (.ret es)) σ (.done (.returned vs w))
  | retPanic {es : List Expr} {σ : State H} {w} :
      Expr.evalAll H σ.vars es σ.world = some (.error (), w) →
      Runs (.stmt (.ret es)) σ (.done (.panicked w))
  | nil {σ : State H} : Runs (.stmts []) σ (.next σ)
  | cons {s : Stmt} {ss : List Stmt} {σ σ₁ : State H} {φ} :
      Runs (.stmt s) σ (.next σ₁) → Runs (.stmts ss) σ₁ φ → Runs (.stmts (s :: ss)) σ φ
  | stop {s : Stmt} {ss : List Stmt} {σ : State H} {φ} :
      Runs (.stmt s) σ φ → (∀ σ₁, φ ≠ .next σ₁) → Runs (.stmts (s :: ss)) σ φ

/-! ### Lists of statements -/

theorem runs_nil {σ : State H} {φ : Flow H} : Runs (.stmts []) σ φ ↔ φ = .next σ := by
  constructor
  · rintro ⟨⟩
    rfl
  · rintro rfl
    exact .nil

/-- A single statement runs as the list of it. -/
theorem runs_singleton {s : Stmt} {σ : State H} {φ : Flow H} :
    Runs (.stmts [s]) σ φ ↔ Runs (.stmt s) σ φ := by
  constructor
  · intro h
    cases h with
    | cons h₁ h₂ =>
      rw [runs_nil] at h₂
      exact h₂ ▸ h₁
    | stop h₁ _ => exact h₁
  · intro h
    cases φ with
    | next σ₁ => exact .cons h .nil
    | _ => exact .stop h (by simp)

/-- A run that falls through its first part goes on with the second. -/
theorem runs_append {ss ts : List Stmt} {σ σ₁ : State H} {φ : Flow H}
    (h₁ : Runs (.stmts ss) σ (.next σ₁)) (h₂ : Runs (.stmts ts) σ₁ φ) :
    Runs (.stmts (ss ++ ts)) σ φ := by
  induction ss generalizing σ with
  | nil =>
    rw [runs_nil] at h₁
    cases h₁
    exact h₂
  | cons s ss ih =>
    cases h₁ with
    | cons hs hss => exact .cons hs (ih hss)
    | stop _ hne => exact absurd rfl (hne σ₁)

/-- A run that leaves its first part never comes to the second. -/
theorem runs_append_stop {ss ts : List Stmt} {σ : State H} {φ : Flow H}
    (h : Runs (.stmts ss) σ φ) (hne : ∀ σ₁, φ ≠ .next σ₁) :
    Runs (.stmts (ss ++ ts)) σ φ := by
  induction ss generalizing σ with
  | nil =>
    rw [runs_nil] at h
    exact absurd h (hne σ)
  | cons s ss ih =>
    cases h with
    | cons hs hss => exact .cons hs (ih hss)
    | stop hs hne => exact .stop hs hne

/-- The two ways in which a run of two parts can go. -/
theorem runs_append_cases {ss ts : List Stmt} {σ : State H} {φ : Flow H}
    (h : Runs (.stmts (ss ++ ts)) σ φ) :
    (∃ σ₁, Runs (.stmts ss) σ (.next σ₁) ∧ Runs (.stmts ts) σ₁ φ) ∨
      (Runs (.stmts ss) σ φ ∧ ∀ σ₁, φ ≠ .next σ₁) := by
  induction ss generalizing σ with
  | nil => exact .inl ⟨σ, .nil, h⟩
  | cons s ss ih =>
    rw [List.cons_append] at h
    cases h with
    | cons hs hrest =>
      rcases ih hrest with ⟨σ₁, hss, hts⟩ | ⟨hss, hne⟩
      · exact .inl ⟨σ₁, .cons hs hss, hts⟩
      · exact .inr ⟨.cons hs hss, hne⟩
    | stop hs hne => exact .inr ⟨.stop hs hne, hne⟩

/-! ### Statements that no loop exit leaves -/

mutual

/-- Can neither a `break` nor a `continue` lead out of the statement? -/
def Stmt.contained : Stmt → Bool
  | .branch _ => false
  | .block body => Stmt.allContained body
  | .ifElse _ body orElse => Stmt.allContained body && Stmt.elseContained orElse
  | .assign .. | .expr _ | .loop .. | .ret _ | .decl _ | .foreign _ => true

/-- Can neither lead out of any of the statements? -/
def Stmt.allContained : List Stmt → Bool
  | [] => true
  | s :: ss => s.contained && Stmt.allContained ss

/-- Can neither lead out of an else-branch? -/
def Stmt.elseContained : Option Stmt → Bool
  | none => true
  | some s => s.contained

end

@[simp] theorem allContained_append (ss ts : List Stmt) :
    Stmt.allContained (ss ++ ts) = (Stmt.allContained ss && Stmt.allContained ts) := by
  induction ss with
  | nil => simp [Stmt.allContained]
  | cons s ss ih => simp [Stmt.allContained, ih, Bool.and_assoc]

/-- Is the code contained? -/
def Code.contained : Code → Bool
  | .stmt s => s.contained
  | .stmts ss => Stmt.allContained ss

/-- Does a run end behind the code or outside of the function? -/
def Flow.Settled (φ : Flow H) : Prop :=
  (∃ σ, φ = .next σ) ∨ ∃ o, φ = .done o

theorem Flow.settled_next (σ : State H) : (Flow.next σ).Settled := .inl ⟨σ, rfl⟩

theorem Flow.settled_done (o : Outcome H) : (Flow.done o).Settled := .inr ⟨o, rfl⟩

/-- **A run of contained code falls through or leaves the function.** -/
theorem Runs.settled {c : Code} {σ : State H} {φ : Flow H} (h : Runs c σ φ)
    (hc : c.contained = true) : φ.Settled := by
  induction h with
  | act _ | loopEnd _ | nil | loopBreak _ _ _ => exact Flow.settled_next _
  | actPanic _ | ifPanic _ | loopPanic _ | ret _ | retPanic _ | loopDone _ _ _ =>
    exact Flow.settled_done _
  | block _ ih => exact ih hc
  | ifTrue _ _ ih =>
    simp only [Code.contained, Stmt.contained, Bool.and_eq_true] at hc
    exact ih hc.1
  | @ifFalse _ _ orElse _ _ _ _ _ ih =>
    simp only [Code.contained, Stmt.contained, Bool.and_eq_true] at hc
    refine ih ?_
    cases orElse with
    | none => rfl
    | some s => simpa [Code.contained, Stmt.allContained, Stmt.elseContained] using hc.2
  | loopNext _ _ _ _ ih => exact ih hc
  | loopContinue _ _ _ _ ih => exact ih hc
  | breakLoop | continueLoop => simp [Code.contained, Stmt.contained] at hc
  | cons _ _ _ ih =>
    simp only [Code.contained, Stmt.allContained, Bool.and_eq_true] at hc
    exact ih hc.2
  | stop _ _ ih =>
    simp only [Code.contained, Stmt.allContained, Bool.and_eq_true] at hc
    exact ih hc.1

end GoLift.Go
