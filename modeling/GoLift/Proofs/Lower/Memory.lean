import GoLift.Proofs.Function.Names
import GoLift.Proofs.Lower.Types

/-!
# What a location holds

A load or a store says what type it accesses, and a pointer need not say what it points to, so
the location of an access has to come out at the type of the access. `Expr.typeIn` is the type
of the expressions that locations are made of: an identifier has the type that it is declared
with, `*p` is what the type of `p` points to, and a conversion has the type that it names.

**Only an opaque pointer is converted.** A pointer with a type of its own is followed whatever
is accessed, and a global variable is accessed as it is declared. `Value.PointsTo` says when the
type that comes out is that of the access, and `Lower.access_typed_iff` that it is exact.
-/

set_option autoImplicit false

namespace GoLift

open Go (Expr Stmt)
open DraftM

/-! ### Types of locations -/

/-- The type of an expression that a location is made of, with the types of identifiers. -/
def Go.Expr.typeIn (Γ : String → Option Expr) : Expr → Option Expr
  | .ident x => Γ x
  | .star x =>
    match x.typeIn Γ with
    | some (.star t) => some t
    | _ => none
  | .call (.paren (.star t)) [_] => some (.star t)
  | _ => none

theorem Go.typeIn_star {Γ : String → Option Expr} {x t : Expr} :
    (Expr.star x).typeIn Γ = some t ↔ x.typeIn Γ = some (.star t) := by
  rw [Expr.typeIn]
  split
  · next h => simp [h]
  · next h => simpa using h t

/-- Have two types one Go type? -/
def Ty.SameGo (t t' : Ty) : Prop :=
  ∃ x, goType? t = some x ∧ goType? t' = some x

/-! ### Declarations -/

namespace Table

variable {α : Type}

theorem mem_keys_ofList {es : List (String × α)} {k : String} :
    k ∈ (ofList es).keys ↔ k ∈ es.map Prod.fst := by
  suffices h : ∀ t : Table α, k ∈ (es.foldl (fun t e => t.put e.1 e.2) t).keys ↔
      k ∈ t.keys ∨ k ∈ es.map Prod.fst by exact (h empty).trans (by simp)
  intro t
  induction es generalizing t with
  | nil => simp
  | cons e es ih =>
    rw [List.foldl_cons, ih, keys_put, List.map_cons, List.mem_cons, ← or_assoc]
    refine or_congr_left ?_
    split
    · next h => exact ⟨.inl, fun hk => hk.elim id (· ▸ h)⟩
    · simp

theorem mem_keys_of_get? {t : Table α} {k : String} {a : α} (h : t.get? k = some a) :
    k ∈ t.keys := by
  by_contra hk
  rw [(t.get?_eq_none_iff k).2 hk] at h
  cases h

end Table

namespace Setup

variable {su : Setup} {globals : List GlobalVar}

/-- The type that an identifier is declared with in a function: that of a binding, or else that
of a global variable, which a binding with its identifier hides. -/
def declared? (su : Setup) (globals : List GlobalVar) (x : String) : Option Ty :=
  match su.scope.bindings.keys.find? (su.draft.names.local? · == some x) with
  | some raw => su.scope.bindings.get? raw
  | none => (globals.find? (goName ·.name == x)).map GlobalVar.type

/-- The Go types of identifiers. -/
def types (su : Setup) (globals : List GlobalVar) (x : String) : Option Expr :=
  (su.declared? globals x).bind goType?

/-- The identifier of a binding is declared with the type of the binding. -/
theorem declared?_binding (hsu : su.draft.names.Sound) {raw x : String} {t : Ty}
    (ht : su.scope.bindings.get? raw = some t) (hx : su.draft.names.local? raw = some x) :
    su.declared? globals x = some t := by
  rw [declared?]
  split
  · next raw' h =>
    have hraw' := List.find?_some h
    rw [hsu.injective (beq_iff_eq.1 hraw') hx, ht]
  · next h =>
    refine absurd ?_ (List.find?_eq_none.1 h raw (Table.mem_keys_of_get? ht))
    exact beq_iff_eq.2 hx

/-- A global variable is declared with its type, if nothing else has its identifier. -/
theorem declared?_global {g : GlobalVar} (hg : g ∈ globals)
    (hlocal : ∀ raw, su.draft.names.local? raw ≠ some (goName g.name))
    (hglobal : ∀ g' ∈ globals, goName g'.name = goName g.name → g' = g) :
    su.declared? globals (goName g.name) = some g.type := by
  rw [declared?]
  split
  · next raw h =>
    have hraw := List.find?_some h
    exact absurd (beq_iff_eq.1 hraw) (hlocal raw)
  · obtain ⟨g', hfind⟩ : ∃ g', globals.find? (goName ·.name == goName g.name) = some g' := by
      rw [← Option.isSome_iff_exists, List.find?_isSome]
      exact ⟨g, hg, beq_self_eq_true _⟩
    have hname := List.find?_some hfind
    rw [hfind, hglobal g' (List.mem_of_find?_eq_some hfind) (beq_iff_eq.1 hname)]
    rfl

end Setup

/-! ### Locations -/

/-- The values that point somewhere: a local with a binding, a global, and the constants of a
pointer type. -/
inductive Value.Address (scope : Scope) : Value → Prop
  | bound {name : String} {type t : Ty} (h : scope.bindings.get? name = some t) :
      Address scope (.localRef name type)
  | global {name : String} {type : Ty} : Address scope (.globalRef name type)
  | null {type : Ty} {p : Payload} (htype : type = .opaquePtr ∨ ∃ π, type = .ptr π)
      (hp : p = .null ∨ p = .undef) : Address scope (.const type p)

/-- Does a type, if there is one, point to values of the access type? -/
def LeadsTo (declared : Option Ty) (access : Ty) : Prop :=
  ∃ π, declared = some (.ptr π) ∧ π.SameGo access

/-- Does an address hold values of the access type in the emitted code? A global variable does if
it is declared with such a type. Any other address does if it is opaque, and so is converted, or
if what it is lowered to points to such a type. -/
def Value.PointsTo (su : Setup) (globals : List GlobalVar) (access : Ty) : Value → Prop
  | .localRef name _ =>
    su.scope.bindings.get? name = some .opaquePtr ∨
      LeadsTo (su.scope.bindings.get? name) access
  | .globalRef name type =>
    if su.scope.globals.contains name then
      ∃ t, su.declared? globals (goName name) = some t ∧ t.SameGo access
    else type = .opaquePtr ∨ LeadsTo (su.declared? globals (goName name)) access
  | .const type _ => type = .opaquePtr ∨ LeadsTo (su.declared? globals "nil") access

/-- The access of an instruction, its type and its address. -/
def Instr.access? : Instr → Option (Ty × Value)
  | .load _ type ptr => some (type, ptr)
  | .store type _ ptr => some (type, ptr)
  | _ => none

/-- The statements of an access: a load reads a location, and a store writes it. -/
def Instr.accessStmts (place value : Expr) : Instr → List Stmt
  | .load .. => [.set value place]
  | .store .. => [.set place value]
  | _ => []

section

variable {f : Function} {globals : List String} {su : Setup} {vars : List GlobalVar}
  {D D' : Draft} {t : Ty} {e : Expr}

/-- Every binding has its identifier before anything is lowered. -/
theorem Function.local?_of_binding (hsetup : f.setup globals = .ok su) {raw : String} {t : Ty}
    (h : su.scope.bindings.get? raw = some t) : ∃ x, su.draft.names.local? raw = some x := by
  obtain ⟨results, hresults, hsu⟩ := except_bind_ok hsetup
  have hnamed := Function.named_of_setup hsetup hresults
  have hbindings : su.scope.bindings =
      Table.ofList (f.params.map (fun p => (p.name, p.type)) ++ results) := by
    cases hsu
    rfl
  have hraw : raw ∈ f.bindings results := by
    have hmem := Table.mem_keys_of_get? h
    rw [hbindings, Table.mem_keys_ofList] at hmem
    simpa [Function.bindings, List.map_map] using hmem
  obtain ⟨x, -, hx⟩ := mem_of_forall₂ hnamed.bound hraw
  exact ⟨x, hx⟩

/-- Following an identifier comes to the access type if it is declared as a pointer to such. -/
theorem typeIn_follow {x : String} :
    (∃ T, goType? t = some T ∧ (Expr.star (.ident x)).typeIn (su.types vars) = some T) ↔
      LeadsTo (su.declared? vars x) t := by
  have hfollow (T : Expr) : (Expr.star (.ident x)).typeIn (su.types vars) = some T ↔
      ∃ π, su.declared? vars x = some (.ptr π) ∧ goType? π = some T := by
    rw [Go.typeIn_star, Expr.typeIn, Setup.types, Option.bind_eq_some_iff]
    simp only [goType?_eq_star]
    constructor
    · rintro ⟨_, hτ, π, rfl, hπ⟩
      exact ⟨π, hτ, hπ⟩
    · rintro ⟨π, hτ, hπ⟩
      exact ⟨_, hτ, π, rfl, hπ⟩
  simp only [hfollow]
  constructor
  · rintro ⟨T, hT, π, hx, hπ⟩
    exact ⟨π, hx, T, hπ, hT⟩
  · rintro ⟨π, hx, T, hπ, hT⟩
    exact ⟨T, hT, π, hx, hπ⟩

/-- The location behind an address that is lowered to an identifier. -/
theorem typeIn_deref {ptr : Value} {x : String}
    (h : (do
      if (ptr.declaredType su.scope).isOpaquePtr then
        return Expr.star (.call (.paren (.star (← DraftM.goType t))) [.ident x])
      else return .star (.ident x) : DraftM Expr) D = (.ok e, D')) :
    (∃ T, goType? t = some T ∧ e.typeIn (su.types vars) = some T) ↔
      ptr.declaredType su.scope = .opaquePtr ∨ LeadsTo (su.declared? vars x) t := by
  have hisOpaquePtr : (ptr.declaredType su.scope).isOpaquePtr = true ↔
      ptr.declaredType su.scope = .opaquePtr := by
    cases ptr.declaredType su.scope <;> simp [Ty.isOpaquePtr]
  split at h
  · next hptr =>
    obtain ⟨T, D₁, hT, h⟩ := bind_ok h
    cases h
    exact iff_of_true ⟨T, goType?_of_ok hT, by rw [Go.typeIn_star, Expr.typeIn]⟩
      (.inl (hisOpaquePtr.1 hptr))
  · next hptr =>
    cases h
    rw [typeIn_follow, or_iff_right (mt hisOpaquePtr.2 hptr)]

theorem Value.location_of_ne {ptr : Value}
    (h : ∀ name type, ptr = .globalRef name type → su.scope.globals.contains name = false) :
    ptr.location su.scope t = do
      let target ← ptr.lower su.scope
      if (ptr.declaredType su.scope).isOpaquePtr then
        return Expr.star (.call (.paren (.star (← DraftM.goType t))) [target])
      else return .star target := by
  cases ptr with
  | globalRef name type =>
    unfold Value.location
    simp only [h name type rfl]
    rfl
  | localRef name type => rfl
  | const type p => rfl

theorem DraftM.localVar_of_local? {raw x : String} (h : D.names.local? raw = some x) :
    DraftM.localVar raw D = (.ok (.ident x), D) := by
  have hbind := NameTable.bind_of_local? h
  show (Except.ok (Expr.ident (D.names.bind raw).1), { D with names := (D.names.bind raw).2 }) = _
  rw [hbind]

theorem Value.lower_null {ptrType : Ty} {p : Payload}
    (htype : ptrType = .opaquePtr ∨ ∃ π, ptrType = .ptr π) (hp : p = .null ∨ p = .undef) :
    (Value.const ptrType p).lower su.scope = pure (.ident "nil") := by
  have hzero : DraftM.zeroValue ptrType = pure (.ident "nil") := by
    obtain rfl | ⟨π, rfl⟩ := htype <;> rfl
  rw [Value.lower]
  obtain rfl | rfl := hp <;> rw [Payload.lower, hzero]

/-- **A location has the type of the access exactly if the address points to such values.** -/
theorem Value.location_typed_iff {ptr : Value} (hsetup : f.setup (vars.map GlobalVar.name) = .ok su)
    (hD : su.draft ≤ D) (hptr : ptr.Address su.scope)
    (h : ptr.location su.scope t D = (.ok e, D')) :
    (∃ T, goType? t = some T ∧ e.typeIn (su.types vars) = some T) ↔ ptr.PointsTo su vars t := by
  cases hptr with
  | @bound name type τ hτ =>
    obtain ⟨x, hx⟩ := Function.local?_of_binding hsetup hτ
    obtain ⟨results, hresults, -⟩ := except_bind_ok hsetup
    have hsound := (Function.named_of_setup hsetup hresults).names.sound
    have hlocal := DraftM.localVar_of_local? (hD.local? hx)
    rw [location_of_ne (by simp), Value.lower, bind_of_ok hlocal] at h
    rw [typeIn_deref h, Setup.declared?_binding hsound hτ hx, Value.PointsTo, hτ]
    simp [Value.declaredType, hτ]
  | @global name type =>
    rw [Value.PointsTo]
    split
    · next hvar =>
      unfold Value.location at h
      simp only [hvar] at h
      cases h
      simp only [Expr.typeIn, Setup.types, Option.bind_eq_some_iff, Ty.SameGo]
      constructor
      · rintro ⟨T, hT, τ, hτ, hdeclared⟩
        exact ⟨τ, hτ, T, hdeclared, hT⟩
      · rintro ⟨τ, hτ, T, hdeclared, hT⟩
        exact ⟨T, hT, τ, hτ, hdeclared⟩
    · next hvar =>
      have hfun : su.scope.globals.contains name = false := Bool.eq_false_iff.2 hvar
      rw [location_of_ne (by rintro _ _ ⟨⟩; exact hfun), Value.lower, pure_bind] at h
      rw [globalExpr, if_neg hvar] at h
      exact typeIn_deref h
  | @null type p htype hp =>
    rw [location_of_ne (by simp), Value.lower_null htype hp, pure_bind] at h
    exact typeIn_deref h

/-- **Memory is accessed at the type of the access exactly if the address points to such values.** A
load or a store of a function that is set up, with an address, is lowered to an assignment of or
to a location. The type of the location, with all identifiers as they are declared, is the Go type
of the access exactly if the address is opaque, is a global variable that is declared with such a
type, or has a binding that points to such a type. -/
theorem Lower.access_typed_iff {m : Module} {i : Instr} {ptr : Value} {ss : List Stmt}
    (hsetup : f.setup m.globalNames = .ok su) (hD : su.draft ≤ D) (hi : i.access? = some (t, ptr))
    (hptr : ptr.Address su.scope) (h : Lower.instr su.scope i D = (.ok ss, D')) :
    ∃ place value, ss = i.accessStmts place value ∧
      ((∃ T, goType? t = some T ∧ place.typeIn (su.types m.globals) = some T) ↔
        ptr.PointsTo su m.globals t) := by
  cases i with
  | load dest type address =>
    cases hi
    obtain ⟨d, D₁, hd, h⟩ := bind_ok h
    obtain ⟨place, D₂, hplace, h⟩ := bind_ok h
    cases h
    have hle : D ≤ D₁ := (steady_localVar dest).grows.apply hd
    exact ⟨place, d, rfl, Value.location_typed_iff hsetup (hD.trans hle) hptr hplace⟩
  | store type value address =>
    cases hi
    obtain ⟨place, D₁, hplace, h⟩ := bind_ok h
    obtain ⟨v, D₂, -, h⟩ := bind_ok h
    cases h
    exact ⟨place, v, rfl, Value.location_typed_iff hsetup hD hptr hplace⟩
  | _ => cases hi

end

/-! ### A slot that is read at two widths -/

namespace Slot

/-- `%p = alloca i64`, and then a load of some width from it. -/
def load (w : Nat) : Instr := .load "v" (.int w) (.localRef "p" .opaquePtr)

def reader (w : Nat) : Function where
  name := "f"
  ret := .void
  blocks := some [{ name := "entry", instrs := [.alloca "p" (.int 64) none, load w],
                    terminator := some (.ret none) }]

theorem setup_reader (w : Nat) : ∃ su, (reader w).setup [] = .ok su ∧
    su.scope.bindings.get? "p" = some (.ptr (.int 64)) := ⟨_, rfl, rfl⟩

theorem succeeds_load {su : Setup} (h : su.scope.bindings.get? "p" = some (.ptr (.int 64)))
    (w : Nat) : Succeeds (Lower.instr su.scope (load w)) := by
  refine .bind (succeeds_localVar _) fun _ => .bind ?_ fun _ => .pure _
  rw [Value.location_of_ne (by simp), Value.lower]
  refine .bind (succeeds_localVar _) fun _ => ?_
  rw [Value.declaredType, h]
  exact .pure _

/-- The load is lowered, and its statements read a location. -/
def Reads (w : Nat) (su : Setup) (place : Expr) : Prop :=
  ∃ ss D' value, (reader w).setup [] = .ok su ∧
    Lower.instr su.scope (load w) su.draft = (.ok ss, D') ∧ ss = (load w).accessStmts place value

/-- All 64 bits of the slot can be read. A load of 32 bits from it is lowered as well, and its
location does not have the type of 32 bits. -/
theorem reads_whole_slot :
    (∃ su place, Reads 64 su place ∧
      ∃ T, goType? (.int 64) = some T ∧ place.typeIn (su.types []) = some T) ∧
    ∃ su place, Reads 32 su place ∧
      ¬∃ T, goType? (.int 32) = some T ∧ place.typeIn (su.types []) = some T := by
  have hreads (w : Nat) : ∃ su place, Reads w su place ∧
      ((∃ T, goType? (.int w) = some T ∧ place.typeIn (su.types []) = some T) ↔
        (Ty.int 64).SameGo (.int w)) := by
    obtain ⟨su, hsu, hp⟩ := setup_reader w
    obtain ⟨ss, D', h⟩ := succeeds_load hp w su.draft
    obtain ⟨place, value, hss, hiff⟩ := Lower.access_typed_iff (m := { name := "m" }) hsu
      (le_refl _) rfl (.bound hp) h
    refine ⟨su, place, ⟨ss, D', value, hsu, h, hss⟩, hiff.trans ?_⟩
    simp [Value.PointsTo, LeadsTo, hp]
  obtain ⟨su, place, hwhole, hsame⟩ := hreads 64
  obtain ⟨su', place', hpart, hother⟩ := hreads 32
  refine ⟨⟨su, place, hwhole, hsame.2 ?_⟩, su', place', hpart, mt hother.1 ?_⟩
  · simp [Ty.SameGo, goWidths]
  · have hne : Nat.repr 32 ≠ Nat.repr 64 := by decide
    simpa [Ty.SameGo, goWidths] using hne

end Slot

end GoLift
