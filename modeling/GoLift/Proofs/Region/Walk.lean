import GoLift.Proofs.IR.Uses
import GoLift.Proofs.Region.Graph

/-!
# Walks from block to block

`Ends` asks what a run comes to in the end. A `Walk` also keeps the labels that control
passes on the way and may stop at any of them, so runs that never end have walks
too: one of each length. Walks are over any step from a label to the next, because the
blocks of a function and its working blocks walk alike but step differently.

* Steps that simulate each other make walks that do (`Walk.simulates`).
* The outcomes of walks are those of `Ends` (`ends_iff_walk`).
-/

set_option autoImplicit false

namespace GoLift

open Go (Expr Env Host State Runs Via runs_append runs_append_stop runs_append_cases)

variable {H : Host}

/-! ### Steps and walks -/

/-- A step from a label, in a state, to where control is next. -/
abbrev Step (H : Host) := String → State H → Next H → Prop

/-- `Walk step l σ trace n`: from the label `l` in the state `σ`, control passes the labels
of `trace` and is then at `n`. -/
inductive Walk (step : Step H) : String → State H → List String → Next H → Prop
  | here {l : String} {σ : State H} : Walk step l σ [] (.goto l σ)
  | out {l : String} {σ : State H} {o : Go.Outcome H} :
      step l σ (.out o) → Walk step l σ [l] (.out o)
  | goto {l l' : String} {σ σ' : State H} {trace : List String} {n : Next H} :
      step l σ (.goto l' σ') → Walk step l' σ' trace n → Walk step l σ (l :: trace) n

/-- Control is at the same place, in states that are related there. -/
inductive Next.Matches (R : String → State H → State H → Prop) : Next H → Next H → Prop
  | goto {l : String} {σ τ : State H} : R l σ τ → Matches R (.goto l σ) (.goto l τ)
  | out {o : Go.Outcome H} : Matches R (.out o) (.out o)

theorem Next.Matches.flip {R : String → State H → State H → Prop} {n m : Next H}
    (h : n.Matches R m) : m.Matches (fun l τ σ => R l σ τ) n := by
  cases h with
  | goto h => exact .goto h
  | out => exact .out

/-- One step does what the other does, from states that are related. -/
def Simulates (R : String → State H → State H → Prop) (step step' : Step H) : Prop :=
  ∀ l σ τ n, R l σ τ → step l σ n → ∃ m, step' l τ m ∧ n.Matches R m

/-- **A simulation of steps is one of walks**, along the same labels. -/
theorem Walk.simulates {R : String → State H → State H → Prop} {step step' : Step H}
    (hstep : Simulates R step step') {l : String} {σ τ : State H} {trace : List String}
    {n : Next H} (h : Walk step l σ trace n) (hR : R l σ τ) :
    ∃ m, Walk step' l τ trace m ∧ n.Matches R m := by
  induction h generalizing τ with
  | here => exact ⟨_, .here, .goto hR⟩
  | out hout =>
    obtain ⟨m, hm, hmatch⟩ := hstep _ _ _ _ hR hout
    cases hmatch with
    | out => exact ⟨_, .out hm, .out⟩
  | goto hgoto _ ih =>
    obtain ⟨m, hm, hmatch⟩ := hstep _ _ _ _ hR hgoto
    cases hmatch with
    | goto hR' =>
      obtain ⟨m', hwalk, hmatch'⟩ := ih hR'
      exact ⟨m', .goto hm hwalk, hmatch'⟩

/-- A terminator goes the same way from environments that agree on what it looks
at. -/
theorem Follows.agree {scope : Scope} {D : Draft} {t : Option Terminator} {σ : State H}
    {n : Next H} (h : Follows scope D t σ n) {S : String → Prop} {ρ : Env H}
    (hρ : Env.AgreeOn S σ.vars ρ)
    (hops : ∀ v ∈ (t.map Terminator.operands).getD [], ∀ e, (v.lower scope D).1 = .ok e →
      ∀ x ∈ e.idents, S x) :
    ∃ m, Follows scope D t ⟨ρ, σ.world⟩ m ∧
      n.Matches (fun _ σ₁ σ₂ => σ₁.vars = σ.vars ∧ σ₂ = ⟨ρ, σ₁.world⟩) m := by
  have htest : ∀ {c : Value} {x y : String} {e : Expr}, t = some (.condBr c x y) →
      (c.lower scope D).1 = .ok e → e.test H σ.vars = e.test H ρ := by
    rintro c x y e rfl he
    exact Go.test_congr (hρ.mono (hops c List.mem_cons_self e he))
  have heval : ∀ {v : Value} {e : Expr}, t = some (.ret (some v)) →
      (v.lower scope D).1 = .ok e → e.eval H σ.vars = e.eval H ρ := by
    rintro v e rfl he
    exact Go.eval_congr e (hρ.mono (hops v List.mem_cons_self e he))
  cases h with
  | br => exact ⟨_, .br, .goto ⟨rfl, rfl⟩⟩
  | condTrue he hrun => exact ⟨_, .condTrue he (htest rfl he ▸ hrun), .goto ⟨rfl, rfl⟩⟩
  | condFalse he hrun => exact ⟨_, .condFalse he (htest rfl he ▸ hrun), .goto ⟨rfl, rfl⟩⟩
  | condPanic he hrun => exact ⟨_, .condPanic he (htest rfl he ▸ hrun), .out⟩
  | ret => exact ⟨_, .ret, .out⟩
  | retValue he hrun => exact ⟨_, .retValue he (heval rfl he ▸ hrun), .out⟩
  | retPanic he hrun => exact ⟨_, .retPanic he (heval rfl he ▸ hrun), .out⟩
  | unreachable => exact ⟨_, .unreachable, .out⟩

/-! ### Working blocks -/

section

variable (scope : Scope) (D : Draft)

/-- `b.Passes scope D σ n`: control that enters the block in the state `σ` is at `n` when it
leaves. -/
inductive WorkBlock.Passes (b : WorkBlock) : State H → Next H → Prop
  | falls {σ σ₁ : State H} {n : Next H} :
      Runs (.stmts b.sequence) σ (.next σ₁) → Follows scope D b.terminator σ₁ n →
      b.Passes σ n
  | stops {σ : State H} {o : Go.Outcome H} :
      Runs (.stmts b.sequence) σ (.done o) → b.Passes σ (.out o)

/-- Control that has come to the end of a block, with its statements run, is at a next
place. The copies are made on the way. -/
inductive WorkBlock.Leaves (b : WorkBlock) (σ : State H) : Next H → Prop
  | falls {σ₁ : State H} {n : Next H} :
      Runs (.stmts b.phiOut) σ (.next σ₁) → Follows scope D b.terminator σ₁ n → b.Leaves σ n
  | stops {o : Go.Outcome H} : Runs (.stmts b.phiOut) σ (.done o) → b.Leaves σ (.out o)

/-- The step of working blocks. -/
def workStep (bs : List WorkBlock) : Step H := fun l σ n =>
  ∃ b ∈ bs, b.entry = l ∧ b.Passes scope D σ n

end

variable {scope : Scope} {D : Draft} {bs : List WorkBlock} {l : String} {σ : State H}
  {o : Go.Outcome H}

/-- A block is passed in two parts. -/
theorem WorkBlock.passes_iff {b : WorkBlock} {n : Next H} :
    b.Passes scope D σ n ↔
      (∃ o, Runs (.stmts b.stmts) σ (.done o) ∧ n = .out o) ∨
        ∃ σ₁, Runs (.stmts b.stmts) σ (.next σ₁) ∧ b.Leaves scope D σ₁ n := by
  constructor
  · intro h
    cases h with
    | falls hrun hfollows =>
      rcases runs_append_cases hrun with ⟨σ₁, h₁, h₂⟩ | ⟨-, hne⟩
      · exact .inr ⟨σ₁, h₁, .falls h₂ hfollows⟩
      · exact absurd rfl (hne _)
    | stops hrun =>
      rcases runs_append_cases hrun with ⟨σ₁, h₁, h₂⟩ | ⟨h₁, -⟩
      · exact .inr ⟨σ₁, h₁, .stops h₂⟩
      · exact .inl ⟨_, h₁, rfl⟩
  · rintro (⟨o, h₁, rfl⟩ | ⟨σ₁, h₁, h₂⟩)
    · exact .stops (runs_append_stop h₁ (by simp))
    · cases h₂ with
      | falls hrun hfollows => exact .falls (runs_append h₁ hrun) hfollows
      | stops hrun => exact .stops (runs_append h₁ hrun)

theorem enter_iff_passes {E : String → Go.Fate H} {b : WorkBlock} :
    Enter scope D E b σ o ↔ ∃ n, b.Passes scope D σ n ∧ n.Ends E o := by
  constructor
  · rintro (h | ⟨σ₁, h, n, hn, hends⟩)
    · exact ⟨.out o, .stops h, rfl⟩
    · exact ⟨n, .falls h hn, hends⟩
  · rintro ⟨n, hpass, hends⟩
    cases hpass with
    | falls h hn => exact .inr ⟨_, h, n, hn, hends⟩
    | stops h =>
      cases hends
      exact .inl h

/-- **The outcomes of a graph of blocks are those that walks come to.** -/
theorem ends_iff_walk :
    Ends scope D bs l σ o ↔ ∃ trace, Walk (workStep scope D bs) l σ trace (.out o) := by
  constructor
  · rintro ⟨k, h⟩
    induction k generalizing l σ with
    | zero => cases h
    | succ k ih =>
      obtain ⟨b, hb, hl, h⟩ := h
      obtain ⟨n, hpass, hends⟩ := enter_iff_passes.1 h
      cases n with
      | goto l' σ' =>
        obtain ⟨trace, hwalk⟩ := ih hends
        exact ⟨l :: trace, .goto ⟨b, hb, hl, hpass⟩ hwalk⟩
      | out o' =>
        cases hends
        exact ⟨[l], .out ⟨b, hb, hl, hpass⟩⟩
  · rintro ⟨trace, hwalk⟩
    generalize hn : Next.out o = n at hwalk
    induction hwalk with
    | here => cases hn
    | out hstep =>
      cases hn
      obtain ⟨b, hb, hl, hpass⟩ := hstep
      exact ⟨1, b, hb, hl, enter_iff_passes.2 ⟨_, hpass, rfl⟩⟩
    | goto hstep _ ih =>
      obtain ⟨k, hk⟩ := ih hn
      obtain ⟨b, hb, hl, hpass⟩ := hstep
      exact ⟨k + 1, b, hb, hl, enter_iff_passes.2 ⟨_, hpass, hk⟩⟩

end GoLift
