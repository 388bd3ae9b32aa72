import GoLift.Proofs.Go.Integers
import GoLift.Proofs.IR.Bits
import GoLift.Proofs.Lower.Forms

/-!
# Values of constant expressions

What a constant expression of the emitted language stands for, as a value of a type: the bits of
an integer, a null pointer, or the values of the parts of a struct or an array. Identifiers of
types mean what is declared, and the words of the language have their own meaning.

* An integer literal is a value of an integer type **only if it is in the range of the type**.
* **A composite literal without elements is the zero of its type.** One of a struct with elements
  has one for every field; one of an array may have fewer than the array, and the rest is zero.

If no declaration hides another one or a word, an expression has at most one value
(`Evaluates.unique`).
-/

set_option autoImplicit false

namespace GoLift

/-- The value of a constant. A truth value is a single bit. -/
inductive Content
  | bits (b : Bits)
  | nil
  /-- The parts of a struct or of an array, in order. -/
  | parts (cs : List Content)

namespace Go

/-! ### Types -/

/-- What the values of a type are made of. -/
inductive Shape
  | bool
  | int (width : Nat)
  | pointer
  | struct (fields : List Expr)
  | array (length : Nat) (element : Expr)

/-- The shape of a type. `Δ` gives the types of the fields of declared structs. -/
inductive HasShape (Δ : String → List Expr → Prop) : Expr → Shape → Prop
  | bool : HasShape Δ (.ident "bool") .bool
  | int {w : Nat} (hw : w ∈ goWidths) : HasShape Δ (.ident (IntType.mk false w).name) (.int w)
  | pointer {t : Expr} : HasShape Δ (.star t) .pointer
  | unsafePointer : HasShape Δ unsafePointer .pointer
  | struct {fs : List FieldDecl} : HasShape Δ (.struct fs) (.struct (fs.map fieldType))
  | declared {x : String} {ts : List Expr} (h : Δ x ts) : HasShape Δ (.ident x) (.struct ts)
  | array {text : String} {n : Nat} {t : Expr} (hn : text.toInt? = some (n : Int)) :
    HasShape Δ (.array (.lit .int text) t) (.array n t)

/-- No declaration hides another one or an integer type or `bool`. -/
structure Apart (Δ : String → List Expr → Prop) : Prop where
  unique : ∀ {x : String} {ts ts' : List Expr}, Δ x ts → Δ x ts' → ts = ts'
  bool : ∀ {ts : List Expr}, ¬Δ "bool" ts
  int : ∀ {w : Nat} {ts : List Expr}, w ∈ goWidths → ¬Δ (IntType.mk false w).name ts

theorem name_ne_bool {w : Nat} (hw : w ∈ goWidths) : (IntType.mk false w).name ≠ "bool" := by
  revert w
  decide

theorem name_injective {w w' : Nat} (hw : w ∈ goWidths) (hw' : w' ∈ goWidths)
    (h : (IntType.mk false w).name = (IntType.mk false w').name) : w = w' := by
  have hall : ∀ w ∈ goWidths, ∀ w' ∈ goWidths,
      (IntType.mk false w).name = (IntType.mk false w').name → w = w' := by decide
  exact hall w hw w' hw' h

section

variable {Δ : String → List Expr → Prop}

theorem HasShape.unique (hΔ : Apart Δ) {t : Expr} {s s' : Shape} (h : HasShape Δ t s)
    (h' : HasShape Δ t s') : s = s' := by
  cases h with
  | bool =>
    generalize hx : Expr.ident "bool" = t at h'
    cases h' with
    | bool => rfl
    | int hw => exact absurd (Expr.ident.inj hx).symm (name_ne_bool hw)
    | declared h => exact absurd (Expr.ident.inj hx ▸ h) hΔ.bool
    | _ => cases hx
  | @int w hw =>
    generalize hx : Expr.ident (IntType.mk false w).name = t at h'
    cases h' with
    | bool => exact absurd (Expr.ident.inj hx) (name_ne_bool hw)
    | int hw' => rw [name_injective hw hw' (Expr.ident.inj hx)]
    | declared h => exact absurd (Expr.ident.inj hx ▸ h) (hΔ.int hw)
    | _ => cases hx
  | pointer =>
    cases h'
    rfl
  | unsafePointer =>
    cases h'
    rfl
  | struct =>
    cases h'
    rfl
  | @declared x ts h =>
    generalize hx : Expr.ident x = t at h'
    cases h' with
    | bool => exact absurd (Expr.ident.inj hx ▸ h) hΔ.bool
    | int hw => exact absurd (Expr.ident.inj hx ▸ h) (hΔ.int hw)
    | declared h' =>
      cases hx
      rw [hΔ.unique h h']
    | _ => cases hx
  | array hn =>
    cases h' with
    | array hn' =>
      rw [hn] at hn'
      rw [Int.ofNat.inj (Option.some.inj hn')]

/-! ### Zeros -/

mutual

/-- The zero of a type. -/
inductive IsZero (Δ : String → List Expr → Prop) : Expr → Content → Prop
  | bool {t : Expr} (ht : HasShape Δ t .bool) : IsZero Δ t (.bits ⟨1, 0#1⟩)
  | int {t : Expr} {w : Nat} (ht : HasShape Δ t (.int w)) : IsZero Δ t (.bits ⟨w, 0#w⟩)
  | pointer {t : Expr} (ht : HasShape Δ t .pointer) : IsZero Δ t .nil
  | struct {t : Expr} {ts : List Expr} {cs : List Content} (ht : HasShape Δ t (.struct ts))
      (hcs : AreZero Δ ts cs) : IsZero Δ t (.parts cs)
  | array {t u : Expr} {n : Nat} {c : Content} (ht : HasShape Δ t (.array n u))
      (hc : IsZero Δ u c) : IsZero Δ t (.parts (List.replicate n c))

/-- The zeros of some types. -/
inductive AreZero (Δ : String → List Expr → Prop) : List Expr → List Content → Prop
  | nil : AreZero Δ [] []
  | cons {t : Expr} {ts : List Expr} {c : Content} {cs : List Content} (hc : IsZero Δ t c)
      (hcs : AreZero Δ ts cs) : AreZero Δ (t :: ts) (c :: cs)

end

mutual

theorem IsZero.unique (hΔ : Apart Δ) : ∀ {t : Expr} {c c' : Content},
    IsZero Δ t c → IsZero Δ t c' → c = c'
  | _, _, _, .bool ht, h' => by
    cases h' with
    | bool => rfl
    | _ ht' => cases ht.unique hΔ ht'
  | _, _, _, .int ht, h' => by
    cases h' with
    | int ht' =>
      cases ht.unique hΔ ht'
      rfl
    | _ ht' => cases ht.unique hΔ ht'
  | _, _, _, .pointer ht, h' => by
    cases h' with
    | pointer => rfl
    | _ ht' => cases ht.unique hΔ ht'
  | _, _, _, .struct ht hcs, h' => by
    cases h' with
    | struct ht' hcs' =>
      cases ht.unique hΔ ht'
      rw [hcs.unique hΔ hcs']
    | _ ht' => cases ht.unique hΔ ht'
  | _, _, _, .array ht hc, h' => by
    cases h' with
    | array ht' hc' =>
      cases ht.unique hΔ ht'
      rw [hc.unique hΔ hc']
    | _ ht' => cases ht.unique hΔ ht'

theorem AreZero.unique (hΔ : Apart Δ) : ∀ {ts : List Expr} {cs cs' : List Content},
    AreZero Δ ts cs → AreZero Δ ts cs' → cs = cs'
  | _, _, _, .nil, h' => by
    cases h'
    rfl
  | _, _, _, .cons hc hcs, h' => by
    cases h' with
    | cons hc' hcs' => rw [hc.unique hΔ hc', hcs.unique hΔ hcs']

end

/-! ### Expressions -/

mutual

/-- The value of a constant expression as one of a type. -/
inductive Evaluates (Δ : String → List Expr → Prop) : Expr → Expr → Content → Prop
  | truth {t : Expr} (b : Bool) (ht : HasShape Δ t .bool) :
    Evaluates Δ t (.ident (if b then "true" else "false")) (.bits ⟨1, BitVec.ofBool b⟩)
  | int {t : Expr} {w : Nat} {text : String} {n : Int} (ht : HasShape Δ t (.int w))
      (htext : text.toInt? = some n) (hn : IntType.Has ⟨false, w⟩ n) :
    Evaluates Δ t (.lit .int text) (.bits ⟨w, BitVec.ofInt w n⟩)
  | nil {t : Expr} (ht : HasShape Δ t .pointer) : Evaluates Δ t (.ident "nil") .nil
  | empty {t : Expr} {ts : List Expr} {cs : List Content} (ht : HasShape Δ t (.struct ts))
      (hcs : AreZero Δ ts cs) : Evaluates Δ t (.composite t []) (.parts cs)
  | struct {t : Expr} {ts es : List Expr} {cs : List Content} (ht : HasShape Δ t (.struct ts))
      (hcs : EvaluateTo Δ ts es cs) : Evaluates Δ t (.composite t es) (.parts cs)
  | array {t u : Expr} {n : Nat} {es : List Expr} {cs : List Content} {zero : Content}
      (ht : HasShape Δ t (.array n u)) (hcs : EvaluateTo Δ (List.replicate es.length u) es cs)
      (hes : es.length ≤ n) (hzero : IsZero Δ u zero) :
    Evaluates Δ t (.composite t es) (.parts (cs ++ List.replicate (n - es.length) zero))

/-- The values of some constant expressions, one by one, as some of types. -/
inductive EvaluateTo (Δ : String → List Expr → Prop) :
    List Expr → List Expr → List Content → Prop
  | nil : EvaluateTo Δ [] [] []
  | cons {t e : Expr} {ts es : List Expr} {c : Content} {cs : List Content}
      (hc : Evaluates Δ t e c) (hcs : EvaluateTo Δ ts es cs) :
    EvaluateTo Δ (t :: ts) (e :: es) (c :: cs)

end

theorem EvaluateTo.length_eq : ∀ {ts es : List Expr} {cs : List Content},
    EvaluateTo Δ ts es cs → es.length = ts.length
  | _, _, _, .nil => rfl
  | _, _, _, .cons _ hcs => congrArg Nat.succ hcs.length_eq

/-- The zero of a struct or an array is written without elements. -/
theorem IsZero.empty {t : Expr} {cs : List Content} (h : IsZero Δ t (.parts cs)) :
    Evaluates Δ t (.composite t []) (.parts cs) := by
  cases h with
  | struct ht hcs => exact .empty ht hcs
  | @array _ u _ _ ht hc =>
    have hnone : EvaluateTo Δ (List.replicate ([] : List Expr).length u) [] [] := .nil
    exact .array ht hnone (Nat.zero_le _) hc

/-- All elements of an array. -/
theorem EvaluateTo.array {t u : Expr} {n : Nat} {es : List Expr} {cs : List Content}
    {zero : Content} (ht : HasShape Δ t (.array n u)) (hzero : IsZero Δ u zero)
    (hcs : EvaluateTo Δ (List.replicate n u) es cs) :
    Evaluates Δ t (.composite t es) (.parts cs) := by
  have hlength : es.length = n := by
    rw [← List.length_replicate (n := n) (a := u)]
    exact hcs.length_eq
  subst hlength
  have harray := Evaluates.array ht hcs (le_refl _) hzero
  rwa [Nat.sub_self, List.replicate_zero, List.append_nil] at harray

mutual

/-- **An expression has at most one value of a type.** -/
theorem Evaluates.unique (hΔ : Apart Δ) : ∀ {t e : Expr} {c c' : Content},
    Evaluates Δ t e c → Evaluates Δ t e c' → c = c'
  | _, _, _, _, .truth b ht, h' => by
    generalize he : Expr.ident (if b then "true" else "false") = e at h'
    cases h' with
    | truth b' =>
      cases b <;> cases b' <;> first | rfl | simp at he
    | nil ht' => cases ht.unique hΔ ht'
    | _ => cases he
  | _, _, _, _, .int ht htext hn, h' => by
    cases h' with
    | int ht' htext' hn' =>
      cases ht.unique hΔ ht'
      rw [htext] at htext'
      cases htext'
      rfl
  | _, _, _, _, .nil ht, h' => by
    generalize he : Expr.ident "nil" = e at h'
    cases h' with
    | truth b ht' => cases ht.unique hΔ ht'
    | nil => rfl
    | _ => cases he
  | _, _, _, _, .empty ht hcs, h' => by
    cases h' with
    | empty ht' hcs' =>
      cases ht.unique hΔ ht'
      rw [hcs.unique hΔ hcs']
    | struct ht' hcs' =>
      cases ht.unique hΔ ht'
      cases hcs'
      cases hcs
      rfl
    | array ht' => cases ht.unique hΔ ht'
  | _, _, _, _, .struct ht hcs, h' => by
    cases h' with
    | empty ht' hcs' =>
      cases ht.unique hΔ ht'
      cases hcs
      cases hcs'
      rfl
    | struct ht' hcs' =>
      cases ht.unique hΔ ht'
      rw [hcs.unique hΔ hcs']
    | array ht' => cases ht.unique hΔ ht'
  | _, _, _, _, .array ht hcs hes hzero, h' => by
    cases h' with
    | array ht' hcs' hes' hzero' =>
      cases ht.unique hΔ ht'
      rw [hcs.unique hΔ hcs', hzero.unique hΔ hzero']
    | empty ht' => cases ht.unique hΔ ht'
    | struct ht' => cases ht.unique hΔ ht'

theorem EvaluateTo.unique (hΔ : Apart Δ) : ∀ {ts es : List Expr} {cs cs' : List Content},
    EvaluateTo Δ ts es cs → EvaluateTo Δ ts es cs' → cs = cs'
  | _, _, _, _, .nil, h' => by
    cases h'
    rfl
  | _, _, _, _, .cons hc hcs, h' => by
    cases h' with
    | cons hc' hcs' => rw [hc.unique hΔ hc', hcs.unique hΔ hcs']

end

end

end Go

end GoLift
