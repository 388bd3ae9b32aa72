import GoLift.Proofs.Lower.Steady

/-!
# Types without records

What a type becomes does not depend on what has been recorded before (`TypeM.Steady`), so it is
a function of the type: `goType? t` is the Go type of a type, if it has one, with one equation
for each form of a type, and `zeroValue? t` is its zero.
-/

set_option autoImplicit false

namespace GoLift

open Go (Expr FieldDecl)

/-! ### Results of steady work -/

namespace TypeM

variable {α β : Type}

/-- What some work comes to, unless it fails. -/
def value? (x : TypeM α) : Option α := (x {}).1.toOption

@[simp] theorem value?_pure (a : α) : (Pure.pure a : TypeM α).value? = some a := rfl

@[simp] theorem value?_refuse (c : Cause) : (TypeM.refuse c : TypeM α).value? = none := rfl

@[simp] theorem value?_useImport (package : String) : (useImport package).value? = some () := rfl

@[simp] theorem value?_useNamed (name : String) : (useNamed name).value? = some () := rfl

/-- Steady work comes to the same from every record. -/
theorem Steady.value?_eq_some {x : TypeM α} (hx : x.Steady) {a : α} :
    x.value? = some a ↔ ∀ r, (x r).1 = .ok a := by
  have hoption (e : Except Fault α) : e.toOption = some a ↔ e = .ok a := by
    cases e <;> simp [Except.toOption]
  rw [value?, hoption]
  exact ⟨fun h r => (hx r {}).trans h, fun h => h {}⟩

/-- Steady work that comes to nothing fails from every record. -/
theorem Steady.value?_eq_none {x : TypeM α} (hx : x.Steady) (h : x.value? = none) (r : Records) :
    ∃ f, (x r).1 = .error f := by
  cases hr : (x r).1 with
  | error f => exact ⟨f, rfl⟩
  | ok a =>
    rw [hx.value?_eq_some.2 fun r' => (hx r' r).trans hr] at h
    cases h

theorem value?_bind (x : TypeM α) {f : α → TypeM β} (hf : ∀ a, (f a).Steady) :
    (x >>= f).value? = x.value?.bind fun a => (f a).value? := by
  unfold value?
  rw [bind_apply]
  rcases x {} with ⟨_ | a, r⟩
  · rfl
  · exact congrArg Except.toOption (hf a r {})

theorem value?_map (x : TypeM α) (g : α → β) :
    (do return g (← x)).value? = x.value?.map g := by
  rw [value?_bind _ fun _ => .pure _]
  cases x.value? <;> rfl

end TypeM

open TypeM

/-! ### Go types -/

/-- The Go type of a type, if it has one. -/
def goType? (t : Ty) : Option Expr := (goType false t).value?

/-- The Go types of a list of types, if all have one. -/
def goTypes? (ts : List Ty) : Option (List Expr) := (goTypes ts).value?

/-- The results of a function, if their types have Go types. -/
def goResults? (t : Ty) : Option (List FieldDecl) := (goResults t).value?

section

variable {t : Ty} {ts : List Ty}

theorem goType?_eq_some {x : Expr} : goType? t = some x ↔ ∀ r, (goType false t r).1 = .ok x :=
  (steady_goType false t).value?_eq_some

/-- A type that was lowered has the Go type that came of it. -/
theorem goType?_of_ok {d d' : Draft} {x : Expr} (h : DraftM.goType t d = (.ok x, d')) :
    goType? t = some x := by
  refine goType?_eq_some.2 fun r => ?_
  rw [TypeM.steady_goType false t r d.records]
  exact congrArg Prod.fst h

@[simp] theorem goType?_int (w : Nat) :
    goType? (.int w) =
      if w = 1 then some (.ident "bool")
      else if w ∈ goWidths then some (.ident ("int" ++ toString w)) else none := by
  rw [goType?, goType, goIntType]
  simp only [List.contains_iff_mem, Bool.false_eq_true, if_false]
  split
  · rfl
  · split <;> rfl

@[simp] theorem goType?_double : goType? .double = some (.ident "float64") := by
  rw [goType?, goType, value?_pure]

@[simp] theorem goType?_float : goType? .float = some (.ident "float32") := by
  rw [goType?, goType, value?_pure]

@[simp] theorem goType?_opaquePtr : goType? .opaquePtr = some unsafePointer := by
  rw [goType?, goType, value?_bind _ fun _ => .pure _]
  rfl

@[simp] theorem goType?_ptr : goType? (.ptr t) = (goType? t).map .star := by
  rw [goType?, goType]
  exact value?_map _ _

@[simp] theorem goType?_named (name : String) :
    goType? (.named name) = some (.ident (goName name)) := by
  rw [goType?, goType, value?_bind _ fun _ => .pure _]
  rfl

@[simp] theorem goType?_struct :
    goType? (.struct ts) = (goTypes? ts).map fun xs => .struct (numberedFields xs) := by
  rw [goType?, goType]
  exact value?_map _ _

@[simp] theorem goType?_array (count : Int) :
    goType? (.array count t) = (goType? t).map (goArray count) := by
  rw [goType?, goType]
  exact value?_map _ _

@[simp] theorem goType?_func (ret : Ty) (varArg : Bool) :
    goType? (.func ret ts varArg) = (goTypes? ts).bind fun xs => (goResults? ret).map fun rs =>
      .func (namelessFields xs ++ if varArg then [.mk [] variadicType] else []) rs := by
  have hresults := steady_goResults (steady_goType false ret)
  rw [goType?, goType, value?_bind _ fun _ => hresults.bind fun _ => .pure _]
  refine congrArg _ (funext fun xs => ?_)
  exact value?_map _ _

@[simp] theorem goType?_void : goType? .void = none := by
  rw [goType?, goType, value?_refuse] <;> simp

@[simp] theorem goType?_half : goType? .half = none := by
  rw [goType?, goType, value?_refuse] <;> simp

@[simp] theorem goType?_label : goType? .label = none := by
  rw [goType?, goType, value?_refuse] <;> simp

@[simp] theorem goType?_metadata : goType? .metadata = none := by
  rw [goType?, goType, value?_refuse] <;> simp

@[simp] theorem goType?_vector (count : Int) : goType? (.vector count t) = none := by
  rw [goType?, goType, value?_refuse] <;> simp

@[simp] theorem goTypes?_nil : goTypes? [] = some [] := by rw [goTypes?, goTypes, value?_pure]

@[simp] theorem goTypes?_cons :
    goTypes? (t :: ts) = (goType? t).bind fun x => (goTypes? ts).map (x :: ·) := by
  rw [goTypes?, goTypes, value?_bind _ fun _ => (steady_goTypes ts).bind fun _ => .pure _]
  refine congrArg _ (funext fun xs => ?_)
  exact value?_map _ _

@[simp] theorem goResults?_void : goResults? .void = some [] := by
  rw [goResults?, goResults, value?_pure]

theorem goResults?_of_ne (h : t ≠ .void) :
    goResults? t = (goType? t).map fun x => [.mk [] x] := by
  rw [goResults?, goResults]
  · exact value?_map _ _
  · exact h

/-- All of some types have Go types if each has one. -/
theorem goTypes?_eq_some {xs : List Expr} :
    goTypes? ts = some xs ↔ List.Forall₂ (fun t x => goType? t = some x) ts xs := by
  induction ts generalizing xs with
  | nil => cases xs <;> simp
  | cons t ts ih =>
    cases xs with
    | nil => simp [Option.bind_eq_some_iff]
    | cons x xs => simp [Option.bind_eq_some_iff, ih]

/-- **Only a pointer type becomes a pointer type of Go.** -/
theorem goType?_eq_star {x : Expr} :
    goType? t = some (.star x) ↔ ∃ π, t = .ptr π ∧ goType? π = some x := by
  cases t with
  | int w =>
    simp only [goType?_int, reduceCtorEq, false_and, exists_false, iff_false]
    split
    · simp
    · split <;> simp
  | func ret ts varArg => simp [Option.bind_eq_some_iff]
  | _ => simp [unsafePointer, goArray]

/-! ### Zeros -/

/-- The zero of a type, if it has one. -/
def zeroValue? (t : Ty) : Option Expr := (zeroValue t).value?

@[simp] theorem zeroValue?_int (w : Nat) :
    zeroValue? (.int w) =
      if w = 1 then some (.ident "false")
      else if w ∈ goWidths then some (.lit .int "0") else none := by
  rw [zeroValue?, zeroValue]
  split
  · rfl
  · next hw =>
    rw [goIntType, if_neg hw]
    simp only [List.contains_iff_mem]
    split <;> rfl

@[simp] theorem zeroValue?_opaquePtr : zeroValue? .opaquePtr = some (.ident "nil") := rfl

@[simp] theorem zeroValue?_ptr : zeroValue? (.ptr t) = some (.ident "nil") := rfl

/-- The zero of an aggregate has no elements. -/
theorem zeroValue?_composite (h : t.isComposite = true) :
    zeroValue? t = (goType? t).map (.composite · []) := by
  cases t with
  | struct | named | array =>
    rw [zeroValue?, zeroValue]
    exact value?_map _ _
  | _ => cases h

end

end GoLift
