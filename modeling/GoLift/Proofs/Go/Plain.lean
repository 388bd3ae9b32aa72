import GoLift.Proofs.Go.Run

/-!
# Plain code

Code without loops, jumps and declarations is *plain*; lowered instructions are.
Two facts about a run of plain code let it be moved from one environment to
another:

* **it looks only at its identifiers** (`Runs.congr`), so environments that agree
  on these lead to the same end and still agree there;
* **it moves only variables that are there** (`Runs.moves`): what is no identifier
  of the code keeps its value, and no variable comes or goes.
-/

set_option autoImplicit false

namespace GoLift.Go

variable {H : Host}

/-! ### Work done alike -/

/-- Two results of work are alike: both are missing, both are panics, or both are
values that are related, and the world is the same. -/
inductive Action.Alike {World α : Type} (R : α → α → Prop) :
    Option (Except Unit α × World) → Option (Except Unit α × World) → Prop
  | stuck : Alike R none none
  | panic {w : World} : Alike R (some (.error (), w)) (some (.error (), w))
  | ok {a b : α} {w : World} : R a b → Alike R (some (.ok a, w)) (some (.ok b, w))

/-- Two actions are alike in every world. -/
def Action.Like {World α : Type} (R : α → α → Prop) (x y : Action World α) : Prop :=
  ∀ w, Action.Alike R (x w) (y w)

namespace Action.Like

variable {World α β : Type} {R : α → α → Prop} {Q : β → β → Prop} {x y : Action World α}

theorem pure {a b : α} (h : R a b) : Like R (Pure.pure a : Action World α) (Pure.pure b) :=
  fun _ => .ok h

theorem stuck : Like R (Action.stuck : Action World α) Action.stuck := fun _ => .stuck

/-- The same work, followed by work that is alike. -/
theorem after (z : Action World β) {f g : β → Action World α} (hf : ∀ b, Like R (f b) (g b)) :
    Like R (z >>= f) (z >>= g) := by
  intro w
  rw [bind_apply, bind_apply]
  rcases z w with _ | ⟨⟨⟩ | b, w'⟩
  · exact .stuck
  · exact .panic
  · exact hf b w'

end Action.Like

/-! ### Plain statements -/

mutual

/-- Is a statement an assignment, an expression, or made of such by blocks and
conditions? -/
def Stmt.plain : Stmt → Bool
  | .assign .. | .expr _ => true
  | .block body => Stmt.allPlain body
  | .ifElse _ body orElse => Stmt.allPlain body && Stmt.elsePlain orElse
  | .loop .. | .branch _ | .ret _ | .decl _ | .foreign _ => false

/-- Are all statements plain? -/
def Stmt.allPlain : List Stmt → Bool
  | [] => true
  | s :: ss => s.plain && Stmt.allPlain ss

/-- Is an else-branch plain? -/
def Stmt.elsePlain : Option Stmt → Bool
  | none => true
  | some s => s.plain

end

mutual

/-- The identifiers of a plain statement. -/
def Stmt.idents : Stmt → List String
  | .assign lhs _ rhs => Expr.identsOf lhs ++ Expr.identsOf rhs
  | .expr x => x.idents
  | .block body => Stmt.allIdents body
  | .ifElse c body orElse => c.idents ++ Stmt.allIdents body ++ Stmt.elseIdents orElse
  | .loop .. | .branch _ | .ret _ | .decl _ | .foreign _ => []

/-- The identifiers of a list of plain statements. -/
def Stmt.allIdents : List Stmt → List String
  | [] => []
  | s :: ss => s.idents ++ Stmt.allIdents ss

/-- The identifiers of a plain else-branch. -/
def Stmt.elseIdents : Option Stmt → List String
  | none => []
  | some s => s.idents

end

@[simp] theorem allPlain_append (ss ts : List Stmt) :
    Stmt.allPlain (ss ++ ts) = (Stmt.allPlain ss && Stmt.allPlain ts) := by
  induction ss with
  | nil => simp [Stmt.allPlain]
  | cons s ss ih => simp [Stmt.allPlain, ih, Bool.and_assoc]

mutual

/-- No jump leads out of a plain statement. -/
theorem contained_of_plain : ∀ {s : Stmt}, s.plain = true → s.contained = true
  | .assign .., _ | .expr _, _ => rfl
  | .block _, h => by
      rw [Stmt.plain] at h
      rw [Stmt.contained]
      exact allContained_of_allPlain h
  | .ifElse _ _ none, h => by
      rw [Stmt.plain, Bool.and_eq_true] at h
      rw [Stmt.contained, allContained_of_allPlain h.1]
      rfl
  | .ifElse _ _ (some _), h => by
      rw [Stmt.plain, Stmt.elsePlain, Bool.and_eq_true] at h
      rw [Stmt.contained, Stmt.elseContained, allContained_of_allPlain h.1,
        contained_of_plain h.2]
      rfl

theorem allContained_of_allPlain : ∀ {ss : List Stmt}, Stmt.allPlain ss = true →
    Stmt.allContained ss = true
  | [], _ => rfl
  | _ :: _, h => by
      rw [Stmt.allPlain, Bool.and_eq_true] at h
      rw [Stmt.allContained, contained_of_plain h.1, allContained_of_allPlain h.2]
      rfl

end

/-- Is the code plain? -/
def Code.plain : Code → Bool
  | .stmt s => s.plain
  | .stmts ss => Stmt.allPlain ss

/-- The identifiers of plain code. -/
def Code.idents : Code → List String
  | .stmt s => s.idents
  | .stmts ss => Stmt.allIdents ss

theorem plain_toList {orElse : Option Stmt} :
    (Code.stmts orElse.toList).plain = Stmt.elsePlain orElse := by
  cases orElse <;> simp [Code.plain, Stmt.allPlain, Stmt.elsePlain]

theorem idents_toList {orElse : Option Stmt} :
    (Code.stmts orElse.toList).idents = Stmt.elseIdents orElse := by
  cases orElse <;> simp [Code.idents, Stmt.allIdents, Stmt.elseIdents]

/-! ### Only identifiers matter -/

section

variable {S : String → Prop} {ρ ρ' : Env H}

theorem assignTo_like {lhs rhs : Expr} (h : Env.AgreeOn S ρ ρ') (hl : ∀ x ∈ lhs.idents, S x)
    (hr : ∀ x ∈ rhs.idents, S x) :
    Action.Like (Env.AgreeOn S) (assignTo H ρ lhs rhs) (assignTo H ρ' lhs rhs) := by
  have hrhs := eval_congr rhs (h.mono hr)
  cases lhs with
  | ident x =>
    have hx : ρ x = ρ' x := h x (hl x (by simp [Expr.idents]))
    simp only [assignTo, hrhs, hx]
    refine .after _ fun v => ?_
    cases ρ' x with
    | some _ => exact .pure (h.set x v)
    | none => exact .after _ fun _ => .pure h
  | star p =>
    have hp := eval_congr p (h.mono hl)
    simp only [assignTo, hrhs, hp]
    exact .after _ fun _ => .after _ fun _ => .after _ fun _ => .pure h
  | _ => exact .stuck

/-- What a plain statement without statements in it does, depends on its
identifiers. -/
theorem act_like {s : Stmt} (hs : s.plain = true) (h : Env.AgreeOn S ρ ρ')
    (hS : ∀ x ∈ s.idents, S x) :
    Action.Like (Env.AgreeOn S) (s.act H ρ) (s.act H ρ') := by
  unfold Stmt.act
  split
  · next lhs rhs =>
    exact assignTo_like h (fun x hx => hS x (by simp [Stmt.idents, Expr.identsOf, hx]))
      fun x hx => hS x (by simp [Stmt.idents, Expr.identsOf, hx])
  · next x =>
    rw [eval_congr x (h.mono hS)]
    exact .after _ fun _ => .pure h
  · cases hs
  · exact .stuck

/-- The ends of runs of plain code are alike. -/
inductive Flow.Alike (S : String → Prop) : Flow H → Flow H → Prop
  | next {σ : State H} {ρ : Env H} :
      Env.AgreeOn S σ.vars ρ → Flow.Alike S (.next σ) (.next ⟨ρ, σ.world⟩)
  | done {o : Outcome H} : Flow.Alike S (.done o) (.done o)

/-- **A run of plain code looks only at its identifiers.** -/
theorem Runs.congr {c : Code} {σ : State H} {φ : Flow H} (h : Runs c σ φ) (hc : c.plain = true)
    (hS : ∀ x ∈ c.idents, S x) (hρ : Env.AgreeOn S σ.vars ρ) :
    ∃ φ', Runs c ⟨ρ, σ.world⟩ φ' ∧ Flow.Alike S φ φ' := by
  induction h generalizing ρ with
  | @act s σ ρ₁ w ha =>
    have hlike := act_like hc hρ hS σ.world
    rw [ha] at hlike
    generalize hb : s.act H ρ σ.world = r at hlike
    cases hlike with
    | ok hagree => exact ⟨_, .act hb, .next hagree⟩
  | @actPanic s σ w ha =>
    have hlike := act_like hc hρ hS σ.world
    rw [ha] at hlike
    generalize hb : s.act H ρ σ.world = r at hlike
    cases hlike with
    | panic => exact ⟨_, .actPanic hb, .done⟩
  | block _ ih =>
    obtain ⟨φ', h', halike⟩ := ih hc hS hρ
    exact ⟨φ', .block h', halike⟩
  | @ifTrue c body orElse σ w φ ht _ ih =>
    simp only [Code.plain, Stmt.plain, Bool.and_eq_true] at hc
    simp only [Code.idents, Stmt.idents, List.mem_append] at hS
    rw [test_congr (hρ.mono fun x hx => hS x (.inl (.inl hx)))] at ht
    obtain ⟨φ', h', halike⟩ := ih hc.1 (fun x hx => hS x (.inl (.inr hx))) hρ
    exact ⟨φ', .ifTrue ht h', halike⟩
  | @ifFalse c body orElse σ w φ ht _ ih =>
    simp only [Code.plain, Stmt.plain, Bool.and_eq_true] at hc
    simp only [Code.idents, Stmt.idents, List.mem_append] at hS
    rw [test_congr (hρ.mono fun x hx => hS x (.inl (.inl hx)))] at ht
    obtain ⟨φ', h', halike⟩ := ih (plain_toList.trans hc.2)
      (fun x hx => hS x (.inr (idents_toList ▸ hx))) hρ
    exact ⟨φ', .ifFalse ht h', halike⟩
  | @ifPanic c body orElse σ w ht =>
    simp only [Code.idents, Stmt.idents, List.mem_append] at hS
    rw [test_congr (hρ.mono fun x hx => hS x (.inl (.inl hx)))] at ht
    exact ⟨_, .ifPanic ht, .done⟩
  | nil => exact ⟨_, .nil, .next hρ⟩
  | cons _ _ ih₁ ih₂ =>
    simp only [Code.plain, Stmt.allPlain, Bool.and_eq_true] at hc
    simp only [Code.idents, Stmt.allIdents, List.mem_append] at hS
    obtain ⟨φ₁, h₁, halike⟩ := ih₁ hc.1 (fun x hx => hS x (.inl hx)) hρ
    cases halike with
    | next hagree =>
      obtain ⟨φ₂, h₂, halike⟩ := ih₂ hc.2 (fun x hx => hS x (.inr hx)) hagree
      exact ⟨φ₂, .cons h₁ h₂, halike⟩
  | stop _ hne ih =>
    simp only [Code.plain, Stmt.allPlain, Bool.and_eq_true] at hc
    simp only [Code.idents, Stmt.allIdents, List.mem_append] at hS
    obtain ⟨φ₁, h₁, halike⟩ := ih hc.1 (fun x hx => hS x (.inl hx)) hρ
    refine ⟨φ₁, .stop h₁ ?_, halike⟩
    rintro σ₁ rfl
    cases halike with
    | next _ => exact hne _ rfl
  | _ => simp [Code.plain, Stmt.plain] at hc

end

/-! ### Only variables that are there move -/

/-- From one environment to the other, only variables under the given names change
their values, and no variable comes or goes. -/
def Env.Moves (S : String → Prop) (ρ ρ' : Env H) : Prop :=
  ∀ x, ρ' x = ρ x ∨ (S x ∧ (ρ x).isSome = true ∧ (ρ' x).isSome = true)

namespace Env.Moves

variable {S T : String → Prop} {ρ ρ' ρ'' : Env H}

theorem refl (S : String → Prop) (ρ : Env H) : Moves S ρ ρ := fun _ => .inl rfl

theorem trans (h : Moves S ρ ρ') (h' : Moves S ρ' ρ'') : Moves S ρ ρ'' := by
  intro x
  rcases h x with hx | ⟨hS, h₁, h₂⟩ <;> rcases h' x with hx' | ⟨hS', h₁', h₂'⟩
  · exact .inl (hx'.trans hx)
  · exact .inr ⟨hS', hx ▸ h₁', h₂'⟩
  · exact .inr ⟨hS, h₁, hx'.symm ▸ h₂⟩
  · exact .inr ⟨hS, h₁, h₂'⟩

theorem isSome (h : Moves S ρ ρ') (x : String) : (ρ' x).isSome = (ρ x).isSome := by
  rcases h x with hx | ⟨-, h₁, h₂⟩
  · rw [hx]
  · rw [h₁, h₂]

theorem set {x : String} (hS : S x) (hx : (ρ x).isSome = true) (v : H.Value) :
    Moves S ρ (ρ.set x v) := by
  intro y
  by_cases hy : y = x
  · subst hy
    exact .inr ⟨hS, hx, by simp⟩
  · exact .inl (Env.set_ne ρ v hy)

end Env.Moves

section

variable {S : String → Prop} {ρ ρ₁ : Env H} {w w₁ : H.World}

theorem assignTo_moves {lhs rhs : Expr} (hl : ∀ x ∈ lhs.idents, S x)
    (h : assignTo H ρ lhs rhs w = some (.ok ρ₁, w₁)) : Env.Moves S ρ ρ₁ := by
  cases lhs with
  | ident x =>
    obtain ⟨v, w', -, h⟩ := Action.bind_eq_ok.1 h
    rcases hx : ρ x with _ | v₀ <;> rw [hx] at h
    · obtain ⟨_, _, -, h⟩ := Action.bind_eq_ok.1 h
      cases h
      exact .refl S ρ
    · cases h
      exact .set (hl x (by simp [Expr.idents])) (by simp [hx]) v
  | star p =>
    obtain ⟨_, _, -, h⟩ := Action.bind_eq_ok.1 h
    obtain ⟨_, _, -, h⟩ := Action.bind_eq_ok.1 h
    obtain ⟨_, _, -, h⟩ := Action.bind_eq_ok.1 h
    cases h
    exact .refl S ρ
  | _ => cases h

theorem act_moves {s : Stmt} (hs : s.plain = true) (hS : ∀ x ∈ s.idents, S x)
    (h : s.act H ρ w = some (.ok ρ₁, w₁)) : Env.Moves S ρ ρ₁ := by
  unfold Stmt.act at h
  split at h
  · exact assignTo_moves (fun x hx => hS x (by simp [Stmt.idents, Expr.identsOf, hx])) h
  · next x =>
    obtain ⟨_, _, -, h⟩ := Action.bind_eq_ok.1 h
    cases h
    exact .refl S ρ
  · cases hs
  · cases h

/-- **A run of plain code moves only its identifiers**, and only those that are
variables. -/
theorem Runs.moves {c : Code} {σ σ' : State H} (h : Runs c σ (.next σ')) (hc : c.plain = true)
    (hS : ∀ x ∈ c.idents, S x) : Env.Moves S σ.vars σ'.vars := by
  generalize hφ : Flow.next σ' = φ at h
  induction h generalizing σ' with
  | act ha =>
    cases hφ
    exact act_moves hc hS ha
  | block _ ih => exact ih hc hS hφ
  | ifTrue _ _ ih =>
    simp only [Code.plain, Stmt.plain, Bool.and_eq_true] at hc
    simp only [Code.idents, Stmt.idents, List.mem_append] at hS
    exact ih hc.1 (fun x hx => hS x (.inl (.inr hx))) hφ
  | ifFalse _ _ ih =>
    simp only [Code.plain, Stmt.plain, Bool.and_eq_true] at hc
    simp only [Code.idents, Stmt.idents, List.mem_append] at hS
    exact ih (plain_toList.trans hc.2) (fun x hx => hS x (.inr (idents_toList ▸ hx))) hφ
  | nil =>
    cases hφ
    exact .refl S _
  | cons _ _ ih₁ ih₂ =>
    simp only [Code.plain, Stmt.allPlain, Bool.and_eq_true] at hc
    simp only [Code.idents, Stmt.allIdents, List.mem_append] at hS
    exact (ih₁ hc.1 (fun x hx => hS x (.inl hx)) rfl).trans
      (ih₂ hc.2 (fun x hx => hS x (.inr hx)) hφ)
  | stop _ hne _ => exact absurd hφ.symm (hne σ')
  | actPanic _ | ifPanic _ => cases hφ
  | _ => simp [Code.plain, Stmt.plain] at hc

end

end GoLift.Go
