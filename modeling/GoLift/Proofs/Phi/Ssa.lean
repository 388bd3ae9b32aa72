import GoLift.Proofs.Phi.Buffer
import GoLift.Proofs.Region.Walk

/-!
# Running a function in its own terms

Here a state holds a value for every binding, under the name the binding has in the
function, and phis are what they are meant to be: **on an edge, all phis of the block
it leads to take the values that they have for the edge, at once** (`Phi.take`).
Everything else runs as its translation, on variables that hold the values of the
bindings and nothing else: there are no temporaries.

`Holds` relates such a state to one of the variables of the emitted function. It survives
whatever does not look at temporaries.
-/

set_option autoImplicit false

namespace GoLift

open Go (Expr Stmt Host Env Action State Runs)
open DraftM

variable {H : Host}

/-! ### Values of bindings and of variables -/

namespace NameTable

/-- The binding that has an identifier. -/
def owner? (t : NameTable) (x : String) : Option String :=
  t.locals.keys.find? (fun raw => t.local? raw == some x)

theorem owner?_eq_some {t : NameTable} (ht : t.Sound) {x raw : String} :
    t.owner? x = some raw ↔ t.local? raw = some x := by
  constructor
  · intro h
    simpa using List.find?_some h
  · intro h
    have hkey : raw ∈ t.locals.keys := (Table.contains_iff _ _).1 (by
      rw [Table.contains, show t.locals.get? raw = some x from h]
      rfl)
    rcases hfind : t.owner? x with _ | raw'
    · have := List.find?_eq_none.1 hfind raw hkey
      simp [h] at this
    · have hraw' : t.local? raw' = some x := by simpa using List.find?_some hfind
      rw [ht.injective hraw' h]

/-- The variables of the bindings, given the values of these. -/
def varsOf (t : NameTable) (vals : Env H) : Env H := fun x =>
  (t.owner? x).bind vals

/-- The values of the bindings, given those of their variables. -/
def valuesOf (t : NameTable) (ρ : Env H) : Env H := fun raw =>
  (t.local? raw).bind ρ

end NameTable

/-! ### Phis -/

section

variable (scope : Scope) (D : Draft)

/-- The value of an operand. A constant means what it means outside of the
function, whatever the bindings are called. -/
def Value.read (vals : Env H) : Value → Action H.World H.Value
  | .localRef name _ =>
    match vals name with
    | some v => return v
    | none => .stuck
  | v =>
    match (v.lower scope D).1 with
    | .ok e => e.eval H (fun _ => none)
    | .error _ => .stuck

/-- The value that a phi takes on the edge from a block. -/
def Phi.read (pred : String) (vals : Env H) (φ : Phi) : Action H.World H.Value :=
  match φ.valueFrom pred with
  | some v => v.read scope D vals
  | none => .stuck

/-- The values that phis take. -/
def Phi.readAll (pred : String) (vals : Env H) : List Phi → Action H.World (List H.Value)
  | [] => return []
  | φ :: φs => do
    let v ← φ.read scope D pred vals
    return v :: (← Phi.readAll pred vals φs)

/-- All phis take their values at once. -/
def Phi.take (pred : String) (φs : List Phi) (vals : Env H) : Action H.World (Env H) :=
  (fun vs => vals.setAll (φs.map Phi.dest) vs) <$> Phi.readAll scope D pred vals φs

/-! ### Blocks -/

variable (blocks : List Block)

/-- Control that has come to the end of a block, with its code run, is at a next place.
The phis of the block it goes to are taken on the way. -/
inductive Block.Leaves (b : Block) (σ : State H) : Next H → Prop
  | out {o : Go.Outcome H} : Follows scope D b.terminator σ (.out o) → b.Leaves σ (.out o)
  | edge {σ' : State H} {s : Block} {vals : Env H} {w} :
      s ∈ blocks → Follows scope D b.terminator σ (.goto s.name σ') →
      Phi.take scope D b.name s.phis (D.names.valuesOf σ'.vars) σ'.world = some (.ok vals, w) →
      b.Leaves σ (.goto s.name ⟨vals, w⟩)
  | panic {σ' : State H} {s : Block} {w} :
      s ∈ blocks → Follows scope D b.terminator σ (.goto s.name σ') →
      Phi.take scope D b.name s.phis (D.names.valuesOf σ'.vars) σ'.world =
        some (.error (), w) → b.Leaves σ (.out (.panicked w))

/-- `b.Passes scope D blocks τ n`: control that enters the block of a function in the
state `τ` is at `n` when it has left. -/
inductive Block.Passes (b : Block) (τ : State H) : Next H → Prop
  | falls {ss : List Stmt} {σ : State H} {n : Next H} :
      (Lower.instrs scope b.instrs D).1 = .ok ss →
      Runs (.stmts ss) ⟨D.names.varsOf τ.vars, τ.world⟩ (.next σ) →
      b.Leaves scope D blocks σ n → b.Passes τ n
  | stops {ss : List Stmt} {o : Go.Outcome H} :
      (Lower.instrs scope b.instrs D).1 = .ok ss →
      Runs (.stmts ss) ⟨D.names.varsOf τ.vars, τ.world⟩ (.done o) → b.Passes τ (.out o)

/-- The step of the blocks of a function. -/
def ssaStep : Step H := fun l τ n =>
  ∃ b ∈ blocks, b.name = l ∧ b.Passes scope D blocks τ n

end

/-! ### Variables that hold the values of bindings -/

/-- The variable of every binding holds its value. Apart from these there are only
variables under identifiers that are in use. -/
structure Holds (t : NameTable) (σ τ : State H) : Prop where
  vars : ∀ {raw x : String}, t.local? raw = some x → σ.vars x = τ.vars raw
  dom : ∀ x, (σ.vars x).isSome = true ↔ x ∈ t.used
  world : σ.world = τ.world

/-- Environments agree on everything but temporaries. -/
abbrev NameTable.Agree (t : NameTable) (ρ ρ' : Env H) : Prop :=
  Env.AgreeOn (fun x => ¬ t.Reserved x) ρ ρ'

namespace Holds

variable {t : NameTable} {σ τ : State H}

/-- Every assignment of values to the variables holds some values of bindings. -/
theorem of_dom (ρ : Env H) (w : H.World) (hdom : ∀ x, (ρ x).isSome = true ↔ x ∈ t.used) :
    Holds t ⟨ρ, w⟩ ⟨t.valuesOf ρ, w⟩ where
  vars h := by simp [NameTable.valuesOf, h]
  dom := hdom
  world := rfl

theorem agree (ht : t.Sound) (h : Holds t σ τ) :
    t.Agree σ.vars (t.varsOf τ.vars) := by
  intro x hx
  rcases howner : t.owner? x with _ | raw
  · -- Nothing but a temporary is in use without being that of a binding.
    have hused : x ∉ t.used := fun hused => hx ⟨hused, fun raw hraw => by
      rw [(NameTable.owner?_eq_some ht).2 hraw] at howner
      cases howner⟩
    have hnone : σ.vars x = none := by
      rw [← Option.not_isSome_iff_eq_none, h.dom x]
      exact hused
    rw [NameTable.varsOf, howner, hnone, Option.bind_none]
  · rw [NameTable.varsOf, howner]
    exact h.vars ((NameTable.owner?_eq_some ht).1 howner)

theorem of_agree {ρ ρ' : Env H} (h : t.Agree ρ ρ')
    (hdom : ∀ x, (ρ x).isSome = true ↔ x ∈ t.used) (w : H.World) :
    Holds t ⟨ρ, w⟩ ⟨t.valuesOf ρ', w⟩ where
  vars {raw x} hraw := by
    have hx : ¬ t.Reserved x := fun hres => hres.unbound raw hraw
    simp [NameTable.valuesOf, hraw, h x hx]
  dom := hdom
  world := rfl

/-- The value of a binding is assigned to its variable. -/
theorem set (ht : t.Sound) {ρ vals : Env H} {w : H.World} (h : Holds t ⟨ρ, w⟩ ⟨vals, w⟩)
    {raw x : String} (hraw : t.local? raw = some x) (v : H.Value) :
    Holds t ⟨ρ.set x v, w⟩ ⟨vals.set raw v, w⟩ where
  vars {raw' x'} hraw' := by
    by_cases hx : x' = x
    · subst hx
      rw [ht.injective hraw' hraw]
      exact (Env.set_self ρ x' v).trans (Env.set_self vals raw v).symm
    · have hne : raw' ≠ raw := by
        rintro rfl
        rw [hraw'] at hraw
        exact hx (Option.some.inj hraw)
      exact (Env.set_ne ρ v hx).trans ((h.vars hraw').trans (Env.set_ne vals v hne).symm)
  dom y := by
    by_cases hy : y = x
    · subst hy
      simp [ht.mem_used hraw]
    · have hset : (ρ.set x v) y = ρ y := Env.set_ne ρ v hy
      exact (hset ▸ h.dom y : ((ρ.set x v) y).isSome = true ↔ y ∈ t.used)
  world := rfl

theorem setAll (ht : t.Sound) {raws xs : List String}
    (hraws : List.Forall₂ (fun raw x => t.local? raw = some x) raws xs) {ρ vals : Env H}
    {w : H.World} (h : Holds t ⟨ρ, w⟩ ⟨vals, w⟩) (vs : List H.Value) :
    Holds t ⟨ρ.setAll xs vs, w⟩ ⟨vals.setAll raws vs, w⟩ := by
  induction hraws generalizing ρ vals vs with
  | nil => simpa using h
  | cons hraw _ ih =>
    cases vs with
    | nil => exact h
    | cons v vs => exact ih (h.set ht hraw v) vs

/-- Temporaries hold nothing. -/
theorem setAll_reserved {ts : List String} (hts : ∀ x ∈ ts, t.Reserved x) {ρ vals : Env H}
    {w : H.World} (h : Holds t ⟨ρ, w⟩ ⟨vals, w⟩) (vs : List H.Value) :
    Holds t ⟨ρ.setAll ts vs, w⟩ ⟨vals, w⟩ where
  vars {raw x} hraw := by
    have hx : x ∉ ts := fun hmem => (hts x hmem).unbound raw hraw
    exact (Env.setAll_of_not_mem hx ρ vs).trans (h.vars hraw)
  dom x := by
    have hmoves := Env.setAll_moves (ρ := ρ) (fun y hy => (h.dom y).2 (hts y hy).used) vs
    rw [← h.dom x, ← hmoves.isSome x]
  world := rfl

end Holds

end GoLift
