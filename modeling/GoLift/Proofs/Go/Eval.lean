import GoLift.Go.Ast
import Mathlib.Logic.Basic

/-!
# What expressions mean

The meaning of an expression depends on three things: the variables of the
function it stands in (`Env`), the world outside of the function, and what the
language and its packages do with values. The last two are a `Host`: it fixes
the values, the memory and the operations on them, and nothing here looks inside.

**An identifier means a local variable if there is one of that name, and
otherwise whatever the host has under it**, be it a global variable, a function,
a type, a package or a predeclared constant. Emitted code never takes the
address of a local variable, so the variables of a function are a plain map and
nothing outside can change them.

Evaluation may change the world, may panic, and may have no meaning at all (a
condition that is no truth value, a type that a variable hides). `Action` has a
place for each.
-/

set_option autoImplicit false

namespace GoLift.Go

/-- Work that may change the world and then gives a value or panics; `none` if it
means nothing. -/
abbrev Action (World α : Type) := ExceptT Unit (StateT World Option) α

/-- Work that means nothing. -/
def Action.stuck {World α : Type} : Action World α :=
  ExceptT.mk (fun _ => none)

/-- End in a panic. -/
def Action.panic {World α : Type} : Action World α :=
  throw ()

/-- Sequencing, world by world. -/
theorem Action.bind_apply {World α β : Type} (x : Action World α) (f : α → Action World β)
    (w : World) :
    (x >>= f) w =
      match x w with
      | none => none
      | some (.error u, w') => some (.error u, w')
      | some (.ok a, w') => f a w' := by
  change Option.bind (x w) _ = _
  rcases x w with _ | ⟨_ | a, w'⟩ <;> rfl

theorem Action.map_apply {World α β : Type} (f : α → β) (x : Action World α) (w : World) :
    (f <$> x) w =
      match x w with
      | none => none
      | some (.error u, w') => some (.error u, w')
      | some (.ok a, w') => some (.ok (f a), w') := by
  change Option.bind (x w) _ = _
  rcases x w with _ | ⟨_ | a, w'⟩ <;> rfl

/-! The ends of a sequence, and those of work whose value is changed. -/

section

variable {World α β : Type} {x : Action World α} {f : α → Action World β} {g : α → β}
  {w w' : World} {b : β}

theorem Action.bind_eq_ok :
    (x >>= f) w = some (.ok b, w') ↔
      ∃ a w₁, x w = some (.ok a, w₁) ∧ f a w₁ = some (.ok b, w') := by
  rw [bind_apply]
  rcases x w with _ | ⟨_ | a, w₁⟩ <;> simp [and_assoc]

theorem Action.bind_eq_error :
    (x >>= f) w = some (.error (), w') ↔
      x w = some (.error (), w') ∨
        ∃ a w₁, x w = some (.ok a, w₁) ∧ f a w₁ = some (.error (), w') := by
  rw [bind_apply]
  rcases x w with _ | ⟨_ | a, w₁⟩ <;> simp [and_assoc]

theorem Action.map_eq_ok :
    (g <$> x) w = some (.ok b, w') ↔ ∃ a, x w = some (.ok a, w') ∧ g a = b := by
  rw [map_apply]
  rcases x w with _ | ⟨_ | a, w₁⟩ <;> simp [and_assoc, and_comm]

theorem Action.map_eq_error :
    (g <$> x) w = some (.error (), w') ↔ x w = some (.error (), w') := by
  rw [map_apply]
  rcases x w with _ | ⟨_ | a, w₁⟩ <;> simp

end

/-- The values that code computes with, and what lies outside of a function. -/
structure Host where
  Value : Type
  /-- Memory, global variables, and all the rest. -/
  World : Type
  ofBool : Bool → Value
  /-- The truth value that a value is, if it is one. -/
  truth? : Value → Option Bool
  truth_ofBool : ∀ b, truth? (ofBool b) = some b
  /-- The value of a literal. -/
  literal : LitKind → String → Value
  /-- What an identifier means that is no local variable. -/
  outer : String → Action World Value
  /-- Assign to a variable outside of the function. -/
  setOuter : String → Value → Action World Unit
  /-- The address of a variable outside of the function. -/
  address : String → Action World Value
  unary : String → Value → Action World Value
  binary : BinaryOp → Value → Value → Action World Value
  /-- What a pointer points to, or the type of pointers to a type. -/
  star : Value → Action World Value
  /-- Store a value where a pointer points to. -/
  store : Value → Value → Action World Unit
  select : Value → String → Action World Value
  /-- The value of a type with the given elements. -/
  composite : Value → List Value → Action World Value
  /-- Call a function, or convert to a type. -/
  call : Value → List Value → Action World Value
  /-- An array, function or struct type. -/
  type : Expr → Action World Value
  /-- The zero of a type. -/
  zero : Value → Action World Value

/-- A host that has truth values and nothing else. -/
def booleans : Host where
  Value := Bool
  World := Unit
  ofBool := id
  truth? := some
  truth_ofBool _ := rfl
  literal _ _ := false
  outer _ := .stuck
  setOuter _ _ := .stuck
  address _ := .stuck
  unary _ _ := .stuck
  binary _ _ _ := .stuck
  star _ := .stuck
  store _ _ := .stuck
  select _ _ := .stuck
  composite _ _ := .stuck
  call _ _ := .stuck
  type _ := .stuck
  zero _ := .stuck

/-- The local variables of a function with their values. -/
abbrev Env (H : Host) := String → Option H.Value

/-- Change the value of a variable. -/
def Env.set {H : Host} (ρ : Env H) (x : String) (v : H.Value) : Env H :=
  fun y => if y = x then some v else ρ y

@[simp] theorem Env.set_self {H : Host} (ρ : Env H) (x : String) (v : H.Value) :
    ρ.set x v x = some v := by
  simp [Env.set]

theorem Env.set_ne {H : Host} (ρ : Env H) {x y : String} (v : H.Value) (h : y ≠ x) :
    ρ.set x v y = ρ y := by
  simp [Env.set, h]

/-! ### Identifiers -/

mutual

/-- The identifiers of an expression that a local variable could hide. -/
def Expr.idents : Expr → List String
  | .ident name => [name]
  | .lit .. | .foreign _ => []
  | .composite type elts => type.idents ++ Expr.identsOf elts
  | .paren x | .selector x _ | .star x | .unary _ x | .ellipsis x => x.idents
  | .binary x _ y => x.idents ++ y.idents
  | .call fn args => fn.idents ++ Expr.identsOf args
  | .array len elt => len.idents ++ elt.idents
  | .func params results => FieldDecl.identsOf params ++ FieldDecl.identsOf results
  | .struct fields => FieldDecl.identsOf fields

/-- The identifiers of a list of expressions. -/
def Expr.identsOf : List Expr → List String
  | [] => []
  | e :: es => e.idents ++ Expr.identsOf es

/-- The identifiers of a field's type. -/
def FieldDecl.idents : FieldDecl → List String
  | .mk _ type => type.idents

/-- The identifiers of the types of a list of fields. -/
def FieldDecl.identsOf : List FieldDecl → List String
  | [] => []
  | f :: fs => f.idents ++ FieldDecl.identsOf fs

end

/-! ### Evaluation -/

section

variable (H : Host) (ρ : Env H)

/-- The truth value of a value. -/
def Host.truth (v : H.Value) : Action H.World Bool :=
  match H.truth? v with
  | some b => return b
  | none => .stuck

/-- The value of an identifier. -/
def Host.read (x : String) : Action H.World H.Value :=
  match ρ x with
  | some v => return v
  | none => H.outer x

/-- The address of an identifier. -/
def Host.addressOf (x : String) : Action H.World H.Value :=
  match ρ x with
  | some _ => .stuck
  | none => H.address x

/-- A type that is written out. It means nothing if a local variable hides one of
its names. -/
def Host.typeOf (e : Expr) : Action H.World H.Value :=
  if e.idents.all (fun x => (ρ x).isNone) then H.type e else .stuck

/-- Is a call one of the predeclared function that never returns? -/
def Expr.isPanic : Expr → Bool
  | .ident name => name == "panic"
  | _ => false

mutual

/-- The value of an expression. The right operand of `&&` and `||` is looked at
only if the left one does not decide. -/
def Expr.eval : Expr → Action H.World H.Value
  | .ident x => H.read ρ x
  | .lit kind text => return H.literal kind text
  | .composite type elts => do
    let t ← type.eval
    H.composite t (← Expr.evalAll elts)
  | .paren x => x.eval
  | .selector x sel => do H.select (← x.eval) sel
  | .star x => do H.star (← x.eval)
  | .unary .not x => do
    let b ← H.truth (← x.eval)
    return H.ofBool !b
  | .unary .addr (.ident x) => H.addressOf ρ x
  | .unary .addr _ => .stuck
  | .unary (.other symbol) x => do H.unary symbol (← x.eval)
  | .binary x op y =>
    match op with
    | .land => do
      if ← H.truth (← x.eval) then return H.ofBool (← H.truth (← y.eval))
      else return H.ofBool false
    | .lor => do
      if ← H.truth (← x.eval) then return H.ofBool true
      else return H.ofBool (← H.truth (← y.eval))
    | op => do
      let v ← x.eval
      H.binary op v (← y.eval)
  | .call fn args =>
    if fn.isPanic then do
      let _ ← Expr.evalAll args
      .panic
    else do
      let f ← fn.eval
      H.call f (← Expr.evalAll args)
  | .ellipsis elt => H.typeOf ρ (.ellipsis elt)
  | .array len elt => H.typeOf ρ (.array len elt)
  | .func params results => H.typeOf ρ (.func params results)
  | .struct fields => H.typeOf ρ (.struct fields)
  | .foreign _ => .stuck

/-- The values of a list of expressions, from left to right. -/
def Expr.evalAll : List Expr → Action H.World (List H.Value)
  | [] => return []
  | e :: es => do
    let v ← e.eval
    return v :: (← Expr.evalAll es)

end

/-- The outcome of a condition. -/
def Expr.test (e : Expr) : Action H.World Bool := do
  H.truth (← e.eval H ρ)

end

/-! ### Negation -/

variable {H : Host}

@[simp] theorem truth_ofBool (b : Bool) : H.truth (H.ofBool b) = pure b := by
  simp [Host.truth, H.truth_ofBool]

theorem test_not (ρ : Env H) (x : Expr) :
    Expr.test H ρ (.unary .not x) = (! ·) <$> Expr.test H ρ x := by
  simp [Expr.test, Expr.eval]

theorem test_paren (ρ : Env H) (x : Expr) : Expr.test H ρ (.paren x) = Expr.test H ρ x := by
  simp [Expr.test, Expr.eval]

/-- The negation of a condition holds exactly when the condition does not, and
does the same work. -/
theorem test_negate (ρ : Env H) (x : Expr) :
    Expr.test H ρ x.negate = (! ·) <$> Expr.test H ρ x := by
  unfold Expr.negate
  split <;> simp [test_not, test_paren]

/-! ### Hidden and unhidden identifiers -/

/-- Two environments have the same variables with the same values under some
names. -/
def Env.AgreeOn (S : String → Prop) (ρ ρ' : Env H) : Prop :=
  ∀ x, S x → ρ x = ρ' x

namespace Env.AgreeOn

variable {S T : String → Prop} {ρ ρ' : Env H}

theorem mono (h : AgreeOn T ρ ρ') (hST : ∀ x, S x → T x) : AgreeOn S ρ ρ' :=
  fun x hx => h x (hST x hx)

theorem symm (h : AgreeOn S ρ ρ') : AgreeOn S ρ' ρ :=
  fun x hx => (h x hx).symm

theorem set (h : AgreeOn S ρ ρ') (x : String) (v : H.Value) :
    AgreeOn S (ρ.set x v) (ρ'.set x v) := by
  intro y hy
  simp only [Env.set, h y hy]

end Env.AgreeOn

theorem typeOf_congr {ρ ρ' : Env H} {e : Expr} (h : Env.AgreeOn (· ∈ e.idents) ρ ρ') :
    H.typeOf ρ e = H.typeOf ρ' e := by
  have hall : e.idents.all (fun x => (ρ x).isNone) = e.idents.all (fun x => (ρ' x).isNone) := by
    rw [Bool.eq_iff_iff, List.all_eq_true, List.all_eq_true]
    exact forall₂_congr fun x hx => by rw [h x hx]
  simp only [Host.typeOf, hall]

mutual

/-- **Evaluation looks only at the identifiers of the expression.** -/
theorem eval_congr {ρ ρ' : Env H} :
    ∀ (e : Expr), Env.AgreeOn (· ∈ e.idents) ρ ρ' → e.eval H ρ = e.eval H ρ'
  | .ident x, h => by simp only [Expr.eval, Host.read, h x (by simp [Expr.idents])]
  | .lit .., _ => by simp only [Expr.eval]
  | .composite type elts, h => by
      have h₁ := eval_congr type (h.mono (by simp +contextual [Expr.idents]))
      have h₂ := evalAll_congr elts (h.mono (by simp +contextual [Expr.idents]))
      simp only [Expr.eval, h₁, h₂]
  | .paren x, h => by simp only [Expr.eval, eval_congr x h]
  | .selector x _, h => by simp only [Expr.eval, eval_congr x h]
  | .star x, h => by simp only [Expr.eval, eval_congr x h]
  | .unary .not x, h => by simp only [Expr.eval, eval_congr x h]
  | .unary .addr x, h => by
      cases x with
      | ident x => simp only [Expr.eval, Host.addressOf, h x (by simp [Expr.idents])]
      | _ => simp only [Expr.eval]
  | .unary (.other _) x, h => by simp only [Expr.eval, eval_congr x h]
  | .binary x op y, h => by
      have h₁ := eval_congr x (h.mono (by simp +contextual [Expr.idents]))
      have h₂ := eval_congr y (h.mono (by simp +contextual [Expr.idents]))
      cases op <;> simp only [Expr.eval, h₁, h₂]
  | .call fn args, h => by
      have h₁ := eval_congr fn (h.mono (by simp +contextual [Expr.idents]))
      have h₂ := evalAll_congr args (h.mono (by simp +contextual [Expr.idents]))
      simp only [Expr.eval, h₁, h₂]
  | .ellipsis _, h => by simp only [Expr.eval, typeOf_congr h]
  | .array .., h => by simp only [Expr.eval, typeOf_congr h]
  | .func .., h => by simp only [Expr.eval, typeOf_congr h]
  | .struct _, h => by simp only [Expr.eval, typeOf_congr h]
  | .foreign _, _ => by simp only [Expr.eval]

theorem evalAll_congr {ρ ρ' : Env H} :
    ∀ (es : List Expr), Env.AgreeOn (· ∈ Expr.identsOf es) ρ ρ' →
      Expr.evalAll H ρ es = Expr.evalAll H ρ' es
  | [], _ => by simp only [Expr.evalAll]
  | e :: es, h => by
      have h₁ := eval_congr e (h.mono (by simp +contextual [Expr.identsOf]))
      have h₂ := evalAll_congr es (h.mono (by simp +contextual [Expr.identsOf]))
      simp only [Expr.evalAll, h₁, h₂]

end

theorem test_congr {ρ ρ' : Env H} {e : Expr} (h : Env.AgreeOn (· ∈ e.idents) ρ ρ') :
    e.test H ρ = e.test H ρ' := by
  simp only [Expr.test, eval_congr e h]

end GoLift.Go
