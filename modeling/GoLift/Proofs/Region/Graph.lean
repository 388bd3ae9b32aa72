import GoLift.Proofs.Go.Fate
import GoLift.Proofs.Region.Built

/-!
# Working blocks as a graph

Control enters a block by its entry, runs its statements, and follows its
terminator to the next entry or out of the function. Conditions and returned values
are lowered from a draft `D`, any one that is late enough: it does not matter
which, because lowering is steady.

`Ends bs l σ o` says that a run of the blocks `bs`, entered by the label `l` in the
state `σ`, has the outcome `o`. A run passes finitely many blocks, and `Within`
counts them. **`Ends` is a fixed point**: what a block's entry leads to is what its
statements and terminator lead to (`ends_entry`).
-/

set_option autoImplicit false

namespace GoLift

open Go (Expr Stmt Host Env Action State Runs Fate Via Branch via_append via_nil via_ifElse
  via_block branch_negate)
open DraftM

/-- Where control is after a block. -/
inductive Next (H : Host)
  | goto (label : String) (σ : State H)
  | out (o : Go.Outcome H)

section

variable {H : Host} (scope : Scope) (D : Draft)

/-- `Follows scope D t σ n`: control that comes to the terminator `t` in the state `σ`
is at `n` afterwards. Nothing follows the end of a block that has no terminator. -/
inductive Follows : Option Terminator → State H → Next H → Prop
  | br {l : String} {σ : State H} : Follows (some (.br l)) σ (.goto l σ)
  | condTrue {c : Value} {t f : String} {e : Expr} {σ : State H} {w} :
      (c.lower scope D).1 = .ok e → e.test H σ.vars σ.world = some (.ok true, w) →
      Follows (some (.condBr c t f)) σ (.goto t ⟨σ.vars, w⟩)
  | condFalse {c : Value} {t f : String} {e : Expr} {σ : State H} {w} :
      (c.lower scope D).1 = .ok e → e.test H σ.vars σ.world = some (.ok false, w) →
      Follows (some (.condBr c t f)) σ (.goto f ⟨σ.vars, w⟩)
  | condPanic {c : Value} {t f : String} {e : Expr} {σ : State H} {w} :
      (c.lower scope D).1 = .ok e → e.test H σ.vars σ.world = some (.error (), w) →
      Follows (some (.condBr c t f)) σ (.out (.panicked w))
  | ret {σ : State H} : Follows (some (.ret none)) σ (.out (.returned [] σ.world))
  | retValue {v : Value} {e : Expr} {σ : State H} {x w} :
      (v.lower scope D).1 = .ok e → e.eval H σ.vars σ.world = some (.ok x, w) →
      Follows (some (.ret (some v))) σ (.out (.returned [x] w))
  | retPanic {v : Value} {e : Expr} {σ : State H} {w} :
      (v.lower scope D).1 = .ok e → e.eval H σ.vars σ.world = some (.error (), w) →
      Follows (some (.ret (some v))) σ (.out (.panicked w))
  | unreachable {σ : State H} : Follows (some .unreachable) σ (.out (.panicked σ.world))

/-- The outcomes from a place, given what the labels lead to. -/
def Next.Ends (E : String → Fate H) (o : Go.Outcome H) : Next H → Prop
  | .goto l σ => E l σ o
  | .out o' => o' = o

/-- The fate of a terminator, given what the labels lead to. -/
def After (E : String → Fate H) (t : Option Terminator) : Fate H := fun σ o =>
  ∃ n, Follows scope D t σ n ∧ n.Ends E o

/-- The fate of a block that is entered, given what the labels lead to. -/
def Enter (E : String → Fate H) (b : WorkBlock) : Fate H :=
  Via b.sequence (After scope D E b.terminator)

variable (bs : List WorkBlock)

/-- The outcomes of runs that pass at most `n` blocks. -/
def Within : Nat → String → Fate H
  | 0, _, _, _ => False
  | n + 1, l, σ, o => ∃ b ∈ bs, b.entry = l ∧ Enter scope D (Within n) b σ o

/-- The outcomes of runs that are entered by a label. -/
def Ends (l : String) : Fate H := fun σ o => ∃ n, Within scope D bs n l σ o

end

variable {H : Host} {scope : Scope} {D : Draft} {bs : List WorkBlock} {b : WorkBlock}
  {E E' : String → Fate H} {P : Fate H} {l : String} {σ : State H} {o : Go.Outcome H}

/-! ### Terminators -/

theorem Follows.mem_targets {t : Option Terminator} {σ₁ : State H}
    (h : Follows scope D t σ (.goto l σ₁)) : l ∈ (t.map Terminator.targets).getD [] := by
  cases h <;> simp [Terminator.targets]

theorem After.mono {t : Option Terminator} (h : ∀ l σ o, E l σ o → E' l σ o)
    (ha : After scope D E t σ o) : After scope D E' t σ o := by
  obtain ⟨n, hn, hends⟩ := ha
  refine ⟨n, hn, ?_⟩
  cases n with
  | goto l σ₁ => exact h l σ₁ o hends
  | out o' => exact hends

theorem Enter.mono (h : ∀ l σ o, E l σ o → E' l σ o) (he : Enter scope D E b σ o) :
    Enter scope D E' b σ o :=
  Via.mono (fun _ _ => After.mono h) he

theorem after_br : After scope D E (some (.br l)) σ o ↔ E l σ o := by
  constructor
  · rintro ⟨n, ⟨⟩, h⟩
    exact h
  · exact fun h => ⟨_, .br, h⟩

/-- A conditional branch goes by its translated condition. -/
theorem after_condBr {c : Value} {t f : String} {e : Expr} (he : Gives (c.lower scope) D e) :
    After scope D E (some (.condBr c t f)) σ o ↔
      Branch (fun ρ => e.test H ρ) (E t) (E f) σ o := by
  have hnow := he.now (steady_lower scope c)
  have huniq : ∀ {e' : Expr}, (c.lower scope D).1 = .ok e' → e' = e := by
    intro e' he'
    rw [hnow] at he'
    exact (Except.ok.inj he').symm
  constructor
  · rintro ⟨n, hn, hends⟩
    cases hn with
    | condTrue hc ht =>
      cases huniq hc
      exact .yes ht hends
    | condFalse hc ht =>
      cases huniq hc
      exact .no ht hends
    | condPanic hc ht =>
      cases huniq hc
      cases hends
      exact .panic ht
  · rintro (⟨ht, h⟩ | ⟨ht, h⟩ | ht)
    · exact ⟨_, .condTrue hnow ht, h⟩
    · exact ⟨_, .condFalse hnow ht, h⟩
    · exact ⟨_, .condPanic hnow ht, rfl⟩

theorem runs_ret {es : List Expr} {φ : Go.Flow H} :
    Runs (.stmt (.ret es)) σ φ ↔
      (∃ vs w, Expr.evalAll H σ.vars es σ.world = some (.ok vs, w) ∧ φ = .done (.returned vs w)) ∨
        ∃ w, Expr.evalAll H σ.vars es σ.world = some (.error (), w) ∧ φ = .done (.panicked w) := by
  constructor
  · intro h
    cases h with
    | ret h => exact .inl ⟨_, _, h, rfl⟩
    | retPanic h => exact .inr ⟨_, h, rfl⟩
    | act ha => cases ha
    | actPanic ha => cases ha
  · rintro (⟨vs, w, h, rfl⟩ | ⟨w, h, rfl⟩)
    · exact .ret h
    · exact .retPanic h

theorem runs_panic {φ : Go.Flow H} :
    Runs (.stmt (.expr (callNamed "panic" [.lit .string "\"unreachable\""]))) σ φ ↔
      φ = .done (.panicked σ.world) := by
  have hact : Stmt.act H σ.vars (.expr (callNamed "panic" [.lit .string "\"unreachable\""]))
      σ.world = some (.error (), σ.world) := rfl
  constructor
  · intro h
    cases h with
    | act ha =>
      rw [hact] at ha
      cases ha
    | actPanic ha =>
      rw [hact] at ha
      cases ha
      rfl
  · rintro rfl
    exact .actPanic hact

/-- The values of a list of one expression. -/
theorem evalAll_singleton {ρ : Env H} {e : Expr} {w : H.World} :
    Expr.evalAll H ρ [e] w =
      match e.eval H ρ w with
      | none => none
      | some (.error u, w') => some (.error u, w')
      | some (.ok x, w') => some (.ok [x], w') := by
  rw [Expr.evalAll, Action.bind_apply]
  rcases e.eval H ρ w with _ | ⟨_ | x, w'⟩ <;> rfl

/-- The runs of the statement for a terminator that leaves the function. -/
theorem runs_exit {t : Terminator} {ending : List Stmt} (ht : t.leaves = true)
    (hend : Gives (Lower.exitStmts scope (some t)) D ending) {φ : Go.Flow H} :
    Runs (.stmts ending) σ φ ↔ ∃ o, φ = .done o ∧ Follows scope D (some t) σ (.out o) := by
  cases t with
  | ret value =>
    cases value with
    | none =>
      cases hend.pure
      rw [Go.runs_singleton, runs_ret]
      constructor
      · rintro (⟨vs, w, hev, rfl⟩ | ⟨w, hev, -⟩)
        · cases hev
          exact ⟨_, rfl, .ret⟩
        · cases hev
      · rintro ⟨o, rfl, ⟨⟩⟩
        exact .inl ⟨_, _, rfl, rfl⟩
    | some v =>
      obtain ⟨e, he, hend⟩ := hend.bind fun _ => .pure _
      cases hend.pure
      have hnow := he.now (steady_lower scope v)
      rw [Go.runs_singleton, runs_ret, evalAll_singleton]
      constructor
      · intro h
        rcases hev : e.eval H σ.vars σ.world with _ | ⟨⟨⟩ | x, w'⟩ <;> rw [hev] at h
        · rcases h with ⟨_, _, h, -⟩ | ⟨_, h, -⟩ <;> cases h
        · rcases h with ⟨_, _, h, -⟩ | ⟨_, h, rfl⟩ <;> cases h
          exact ⟨_, rfl, .retPanic hnow hev⟩
        · rcases h with ⟨_, _, h, rfl⟩ | ⟨_, h, -⟩ <;> cases h
          exact ⟨_, rfl, .retValue hnow hev⟩
      · rintro ⟨o, rfl, h⟩
        cases h with
        | retValue hv hev =>
          rw [hnow] at hv
          cases hv
          exact .inl ⟨_, _, by rw [hev], rfl⟩
        | retPanic hv hev =>
          rw [hnow] at hv
          cases hv
          exact .inr ⟨_, by rw [hev], rfl⟩
  | unreachable =>
    cases hend.pure
    rw [Go.runs_singleton, runs_panic]
    constructor
    · rintro rfl
      exact ⟨_, rfl, .unreachable⟩
    · rintro ⟨o, rfl, ⟨⟩⟩
      rfl
  | _ => cases ht

/-- **The statement for a terminator that leaves the function does what the
terminator does**, and nothing comes after it. -/
theorem via_exit {t : Terminator} {ending : List Stmt} (ht : t.leaves = true)
    (hend : Gives (Lower.exitStmts scope (some t)) D ending) :
    Via ending P σ o ↔ After scope D E (some t) σ o := by
  have hruns := fun φ => runs_exit (H := H) (σ := σ) (φ := φ) ht hend
  constructor
  · rintro (h | ⟨σ₁, h, -⟩)
    · obtain ⟨o', ho, hf⟩ := (hruns _).1 h
      exact ⟨_, hf, (Go.Flow.done.inj ho).symm⟩
    · obtain ⟨o', ho, -⟩ := (hruns _).1 h
      cases ho
  · rintro ⟨n, hn, hends⟩
    cases n with
    | goto l σ₁ => cases hn <;> cases ht
    | out o' =>
      cases hends
      exact .inl ((hruns _).2 ⟨_, rfl, hn⟩)

/-! ### Passing blocks -/

theorem Within.mono {m n : Nat} (hmn : m ≤ n) (h : Within scope D bs m l σ o) :
    Within scope D bs n l σ o := by
  induction m generalizing n l σ o with
  | zero => cases h
  | succ m ih =>
    obtain ⟨k, rfl⟩ : ∃ k, n = k + 1 := ⟨n - 1, by omega⟩
    obtain ⟨b, hb, hl, h⟩ := h
    exact ⟨b, hb, hl, h.mono fun _ _ _ => ih (by omega)⟩

theorem within_entry (hbs : (bs.map WorkBlock.entry).Nodup) (hb : b ∈ bs) {n : Nat} :
    Within scope D bs (n + 1) b.entry σ o ↔ Enter scope D (Within scope D bs n) b σ o := by
  constructor
  · rintro ⟨b', hb', hl, h⟩
    rwa [List.inj_on_of_nodup_map hbs hb' hb hl] at h
  · exact fun h => ⟨b, hb, rfl, h⟩

/-- Entering a block leads where its statements and its terminator lead. -/
theorem ends_entry (hbs : (bs.map WorkBlock.entry).Nodup) (hb : b ∈ bs) :
    Ends scope D bs b.entry σ o ↔ Enter scope D (Ends scope D bs) b σ o := by
  constructor
  · rintro ⟨_ | n, h⟩
    · cases h
    · exact ((within_entry hbs hb).1 h).mono fun _ _ _ h => ⟨n, h⟩
  · rintro (h | ⟨σ₁, h, n, hn, hends⟩)
    · exact ⟨1, b, hb, rfl, .inl h⟩
    · cases n with
      | goto l σ₂ =>
        obtain ⟨k, hk⟩ := hends
        exact ⟨k + 1, b, hb, rfl, .inr ⟨σ₁, h, _, hn, hk⟩⟩
      | out o' => exact ⟨1, b, hb, rfl, .inr ⟨σ₁, h, _, hn, hends⟩⟩

end GoLift
