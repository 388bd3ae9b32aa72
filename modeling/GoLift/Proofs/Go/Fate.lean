import GoLift.Proofs.Go.Run

/-!
# What becomes of a run

A `Fate` says which outcomes a state may come to. `Via ss P` is the fate of code whose
end, if it comes there, has the fate `P`, so a piece of code is described by what it
does to the fate of whatever follows. **Two pieces of code mean the same if they make
the same of every fate**, and a piece can be exchanged for a graph of blocks by
exchanging fates.

* `via_append` and `via_ifElse` describe sequences and conditions;
* a loop is described twice: it is its own first turn and then itself again
  (`Loops.unfold`), and it leads nowhere that its turns do not lead to
  (`Loops.least`). The first is what an induction on the length of a run of the graph
  needs, the second what an induction on the run of the loop gives.
-/

set_option autoImplicit false

namespace GoLift.Go

/-- The outcomes that a state may come to. -/
abbrev Fate (H : Host) := State H → Outcome H → Prop

variable {H : Host}

/-- The fate of statements before a fate. -/
def Via (ss : List Stmt) (P : Fate H) : Fate H := fun σ o =>
  Runs (.stmts ss) σ (.done o) ∨ ∃ σ₁, Runs (.stmts ss) σ (.next σ₁) ∧ P σ₁ o

/-- The fate of a test before the fates of its two answers. -/
inductive Branch (test : Env H → Action H.World Bool) (P Q : Fate H) : Fate H
  | yes {σ : State H} {w o} : test σ.vars σ.world = some (.ok true, w) → P ⟨σ.vars, w⟩ o →
      Branch test P Q σ o
  | no {σ : State H} {w o} : test σ.vars σ.world = some (.ok false, w) → Q ⟨σ.vars, w⟩ o →
      Branch test P Q σ o
  | panic {σ : State H} {w} : test σ.vars σ.world = some (.error (), w) →
      Branch test P Q σ (.panicked w)

variable {P P' Q Q' : Fate H} {σ : State H} {o : Outcome H}

/-! ### Sequences and conditions -/

theorem Via.mono {ss : List Stmt} (h : ∀ σ o, P σ o → P' σ o) (hv : Via ss P σ o) :
    Via ss P' σ o :=
  hv.imp_right fun ⟨σ₁, hrun, hp⟩ => ⟨σ₁, hrun, h σ₁ o hp⟩

theorem Branch.mono {test : Env H → Action H.World Bool} (hP : ∀ σ o, P σ o → P' σ o)
    (hQ : ∀ σ o, Q σ o → Q' σ o) (hb : Branch test P Q σ o) : Branch test P' Q' σ o := by
  cases hb with
  | yes ht hp => exact .yes ht (hP _ _ hp)
  | no ht hq => exact .no ht (hQ _ _ hq)
  | panic ht => exact .panic ht

theorem via_nil : Via [] P σ o ↔ P σ o := by
  constructor
  · rintro (h | ⟨σ₁, h, hp⟩)
    · cases runs_nil.1 h
    · cases runs_nil.1 h
      exact hp
  · exact fun hp => .inr ⟨σ, .nil, hp⟩

/-- Code in two parts goes through the first to the second. -/
theorem via_append {ss ts : List Stmt} : Via (ss ++ ts) P σ o ↔ Via ss (Via ts P) σ o := by
  constructor
  · rintro (h | ⟨σ₁, h, hp⟩)
    · rcases runs_append_cases h with ⟨σ₁, h₁, h₂⟩ | ⟨h₁, -⟩
      · exact .inr ⟨σ₁, h₁, .inl h₂⟩
      · exact .inl h₁
    · rcases runs_append_cases h with ⟨σ₂, h₁, h₂⟩ | ⟨-, hne⟩
      · exact .inr ⟨σ₂, h₁, .inr ⟨σ₁, h₂, hp⟩⟩
      · exact absurd rfl (hne σ₁)
  · rintro (h | ⟨σ₁, h₁, h₂ | ⟨σ₂, h₂, hp⟩⟩)
    · exact .inl (runs_append_stop h (by simp))
    · exact .inl (runs_append h₁ h₂)
    · exact .inr ⟨σ₂, runs_append h₁ h₂, hp⟩

/-- A condition goes through one of its bodies. -/
theorem via_ifElse {e : Expr} {body : List Stmt} {orElse : Option Stmt} :
    Via [.ifElse e body orElse] P σ o ↔
      Branch (fun ρ => e.test H ρ) (Via body P) (Via orElse.toList P) σ o := by
  simp only [Via, runs_singleton]
  constructor
  · rintro (h | ⟨σ₁, h, hp⟩)
    · cases h with
      | ifTrue ht hb => exact .yes ht (.inl hb)
      | ifFalse ht hb => exact .no ht (.inl hb)
      | ifPanic ht => exact .panic ht
      | actPanic ha => cases ha
    · cases h with
      | ifTrue ht hb => exact .yes ht (.inr ⟨σ₁, hb, hp⟩)
      | ifFalse ht hb => exact .no ht (.inr ⟨σ₁, hb, hp⟩)
      | act ha => cases ha
  · rintro (⟨ht, hb | ⟨σ₁, hb, hp⟩⟩ | ⟨ht, hb | ⟨σ₁, hb, hp⟩⟩ | ht)
    · exact .inl (.ifTrue ht hb)
    · exact .inr ⟨σ₁, .ifTrue ht hb, hp⟩
    · exact .inl (.ifFalse ht hb)
    · exact .inr ⟨σ₁, .ifFalse ht hb, hp⟩
    · exact .inl (.ifPanic ht)

theorem via_block {body : List Stmt} : Via [.block body] P σ o ↔ Via body P σ o := by
  have hblock : ∀ {φ : Flow H}, Runs (.stmt (.block body)) σ φ ↔ Runs (.stmts body) σ φ := by
    intro φ
    constructor
    · intro h
      cases h with
      | block hb => exact hb
      | act ha => cases ha
      | actPanic ha => cases ha
    · exact .block
  simp only [Via, runs_singleton, hblock]

/-- A negated test has its answers the other way round. -/
theorem branch_negate {e : Expr} :
    Branch (fun ρ => e.negate.test H ρ) P Q σ o ↔ Branch (fun ρ => e.test H ρ) Q P σ o := by
  have hok : ∀ {b : Bool} {w : H.World}, e.negate.test H σ.vars σ.world = some (.ok b, w) ↔
      e.test H σ.vars σ.world = some (.ok !b, w) := by
    intro b w
    rw [test_negate, Action.map_eq_ok]
    simp [Bool.not_eq_eq_eq_not]
  have herror : ∀ {w : H.World}, e.negate.test H σ.vars σ.world = some (.error (), w) ↔
      e.test H σ.vars σ.world = some (.error (), w) := by
    intro w
    rw [test_negate, Action.map_eq_error]
  constructor
  · rintro (⟨ht, hp⟩ | ⟨ht, hq⟩ | ht)
    · exact .no (hok.1 ht) hp
    · exact .yes (hok.1 ht) hq
    · exact .panic (herror.1 ht)
  · rintro (⟨ht, hq⟩ | ⟨ht, hp⟩ | ht)
    · exact .no (hok.2 ht) hq
    · exact .yes (hok.2 ht) hp
    · exact .panic (herror.2 ht)

/-! ### Loops -/

/-- `if !e { break }`. -/
abbrev Stmt.breakUnless (e : Expr) : Stmt :=
  .ifElse e.negate [.branch "break"] none

/-- The outcomes of an end of a loop's body, given the fates of the next turn and of
what comes after the loop. -/
def Flow.turn (again after : Fate H) (o : Outcome H) : Flow H → Prop
  | .next σ | .continued σ => again σ o
  | .broke σ => after σ o
  | .done o' => o' = o

/-- The fate of a loop's body. -/
def Turn (body : List Stmt) (again after : Fate H) : Fate H := fun σ o =>
  ∃ φ, Runs (.stmts body) σ φ ∧ φ.turn again after o

/-- A contained body always goes on with the next turn. -/
theorem turn_contained {body : List Stmt} (hbody : Stmt.allContained body = true) :
    Turn body P Q σ o ↔ Via body P σ o := by
  constructor
  · rintro ⟨φ, h, hφ⟩
    rcases h.settled hbody with ⟨σ₁, rfl⟩ | ⟨o', rfl⟩
    · exact .inr ⟨σ₁, h, hφ⟩
    · exact .inl (by rwa [← show o' = o from hφ])
  · rintro (h | ⟨σ₁, h, hp⟩)
    · exact ⟨_, h, rfl⟩
    · exact ⟨_, h, hp⟩

/-- The body of a loop in two parts of which the first is contained. -/
theorem turn_append {ss ts : List Stmt} (hss : Stmt.allContained ss = true) :
    Turn (ss ++ ts) P Q σ o ↔ Via ss (Turn ts P Q) σ o := by
  constructor
  · rintro ⟨φ, h, hφ⟩
    rcases runs_append_cases h with ⟨σ₁, h₁, h₂⟩ | ⟨h, hne⟩
    · exact .inr ⟨σ₁, h₁, φ, h₂, hφ⟩
    · rcases h.settled hss with ⟨σ₁, rfl⟩ | ⟨o', rfl⟩
      · exact absurd rfl (hne σ₁)
      · exact .inl (by rwa [← show o' = o from hφ])
  · rintro (h | ⟨σ₁, h₁, φ, h₂, hφ⟩)
    · exact ⟨_, runs_append_stop h (by simp), rfl⟩
    · exact ⟨φ, runs_append h₁ h₂, hφ⟩

theorem runs_break {φ : Flow H} : Runs (.stmt (.branch "break")) σ φ ↔ φ = .broke σ := by
  constructor
  · intro h
    generalize hcode : Code.stmt (.branch "break") = code at h
    cases h with
    | breakLoop => rfl
    | act ha | actPanic ha =>
      cases hcode
      cases ha
    | _ => simp at hcode
  · rintro rfl
    exact .breakLoop

/-- A test in the middle of a body ends the loop if it fails. -/
theorem turn_breakUnless {e : Expr} {ts : List Stmt} :
    Turn (.breakUnless e :: ts) P Q σ o ↔ Branch (fun ρ => e.test H ρ) (Turn ts P Q) Q σ o := by
  rw [← branch_negate]
  constructor
  · rintro ⟨φ, h, hφ⟩
    cases h with
    | cons h₁ h₂ =>
      cases h₁ with
      | ifTrue ht hb =>
        cases runs_break.1 (runs_singleton.1 hb)
      | ifFalse ht hb =>
        cases runs_nil.1 hb
        exact .no ht ⟨φ, h₂, hφ⟩
      | act ha => cases ha
    | stop h₁ hne =>
      cases h₁ with
      | ifTrue ht hb =>
        cases runs_break.1 (runs_singleton.1 hb)
        exact .yes ht hφ
      | ifFalse ht hb =>
        cases runs_nil.1 hb
        exact absurd rfl (hne _)
      | ifPanic ht =>
        cases hφ
        exact .panic ht
      | act ha => cases ha
      | actPanic ha => cases ha
  · rintro (⟨ht, hq⟩ | ⟨ht, φ, h, hφ⟩ | ht)
    · exact ⟨_, .stop (.ifTrue ht (runs_singleton.2 .breakLoop)) (by simp), hq⟩
    · exact ⟨φ, .cons (.ifFalse ht .nil) h, hφ⟩
    · exact ⟨_, .stop (.ifPanic ht) (by simp), rfl⟩

/-- A loop does its first turn and then what it does. -/
theorem loop_turn {c : Option Expr} {body : List Stmt}
    (h : Branch (fun ρ => loopTest H ρ c) (Turn body (Via [.loop c body] P) P) P σ o) :
    Via [.loop c body] P σ o := by
  simp only [Via, runs_singleton]
  rcases h with ⟨ht, φ, hb, hφ⟩ | ⟨ht, hp⟩ | ht
  · cases φ with
    | next σ₁ =>
      rcases hφ with h | ⟨σ₂, h, hp⟩
      · exact .inl (.loopNext ht hb (runs_singleton.1 h))
      · exact .inr ⟨σ₂, .loopNext ht hb (runs_singleton.1 h), hp⟩
    | continued σ₁ =>
      rcases hφ with h | ⟨σ₂, h, hp⟩
      · exact .inl (.loopContinue ht hb (runs_singleton.1 h))
      · exact .inr ⟨σ₂, .loopContinue ht hb (runs_singleton.1 h), hp⟩
    | broke σ₁ => exact .inr ⟨σ₁, .loopBreak ht hb, hφ⟩
    | done o' =>
      cases hφ
      exact .inl (.loopDone ht hb)
  · exact .inr ⟨_, .loopEnd ht, hp⟩
  · exact .inl (.loopPanic ht)

/-- A loop leads nowhere that its turns do not lead to. -/
theorem loop_least {c : Option Expr} {body : List Stmt}
    (hQ : ∀ σ o, Branch (fun ρ => loopTest H ρ c) (Turn body Q P) P σ o → Q σ o)
    (h : Via [.loop c body] P σ o) : Q σ o := by
  have hruns : ∀ {code : Code} {σ : State H} {φ : Flow H}, Runs code σ φ →
      code = .stmt (.loop c body) → (φ = .done o ∨ ∃ σ₁, φ = .next σ₁ ∧ P σ₁ o) → Q σ o := by
    intro code σ φ hrun
    induction hrun with
    | loopEnd ht =>
      rintro ⟨⟩ (hφ | ⟨σ₁, ⟨⟩, hp⟩)
      · cases hφ
      · exact hQ _ _ (.no ht hp)
    | loopPanic ht =>
      rintro ⟨⟩ (hφ | ⟨σ₁, hφ, -⟩)
      · cases hφ
        exact hQ _ _ (.panic ht)
      · cases hφ
    | loopNext ht hb _ _ ih =>
      rintro ⟨⟩ hφ
      exact hQ _ _ (.yes ht ⟨_, hb, ih rfl hφ⟩)
    | loopContinue ht hb _ _ ih =>
      rintro ⟨⟩ hφ
      exact hQ _ _ (.yes ht ⟨_, hb, ih rfl hφ⟩)
    | loopBreak ht hb _ =>
      rintro ⟨⟩ (hφ | ⟨σ₁, ⟨⟩, hp⟩)
      · cases hφ
      · exact hQ _ _ (.yes ht ⟨_, hb, hp⟩)
    | loopDone ht hb _ =>
      rintro ⟨⟩ (hφ | ⟨σ₁, hφ, -⟩)
      · cases hφ
        exact hQ _ _ (.yes ht ⟨_, hb, rfl⟩)
      · cases hφ
    | act ha | actPanic ha =>
      rintro ⟨⟩ _
      cases ha
    | _ => rintro ⟨⟩
  rcases h with h | ⟨σ₁, h, hp⟩
  · exact hruns (runs_singleton.1 h) rfl (.inl rfl)
  · exact hruns (runs_singleton.1 h) rfl (.inr ⟨σ₁, rfl, hp⟩)

/-- A statement that runs `head`, ends if the test fails, and otherwise runs `inner`
and starts over. -/
structure Loops (H : Host) (s : Stmt) (head : List Stmt) (test : Expr) (inner : List Stmt) :
    Prop where
  turn : ∀ {P : Fate H} {σ o},
    Via head (Branch (fun ρ => test.test H ρ) (Via inner (Via [s] P)) P) σ o → Via [s] P σ o
  least : ∀ {P Q : Fate H},
    (∀ σ o, Via head (Branch (fun ρ => test.test H ρ) (Via inner Q) P) σ o → Q σ o) →
      ∀ {σ o}, Via [s] P σ o → Q σ o

/-- A loop that tests where its condition stands. -/
theorem loops_cond {e : Expr} {inner : List Stmt} (hinner : Stmt.allContained inner = true) :
    Loops H (.loop (some e) inner) [] e inner where
  turn h := by
    rw [via_nil] at h
    exact loop_turn (h.mono (fun _ _ => (turn_contained hinner).2) fun _ _ => id)
  least hQ _ _ h := by
    refine loop_least (fun σ o hb => hQ σ o (via_nil.2 ?_)) h
    exact hb.mono (fun _ _ => (turn_contained hinner).1) fun _ _ => id

/-- A loop that tests inside. -/
theorem loops_breakUnless {head inner : List Stmt} {e : Expr}
    (hhead : Stmt.allContained head = true) (hinner : Stmt.allContained inner = true) :
    Loops H (.loop none (head ++ .breakUnless e :: inner)) head e inner := by
  have hbody : ∀ {P Q : Fate H} {σ o}, Turn (head ++ .breakUnless e :: inner) P Q σ o ↔
      Via head (Branch (fun ρ => e.test H ρ) (Via inner P) Q) σ o := by
    intro P Q σ o
    rw [turn_append hhead]
    constructor
    · exact Via.mono fun _ _ h =>
        (turn_breakUnless.1 h).mono (fun _ _ => (turn_contained hinner).1) fun _ _ => id
    · exact Via.mono fun _ _ h =>
        turn_breakUnless.2 (h.mono (fun _ _ => (turn_contained hinner).2) fun _ _ => id)
  constructor
  · exact fun h => loop_turn (.yes rfl (hbody.2 h))
  · intro P Q hQ σ o h
    refine loop_least (fun σ o hb => hQ σ o ?_) h
    rcases hb with ⟨ht, hb⟩ | ⟨ht, -⟩ | ht
    · cases ht
      exact hbody.1 hb
    · cases ht
    · cases ht

end GoLift.Go
