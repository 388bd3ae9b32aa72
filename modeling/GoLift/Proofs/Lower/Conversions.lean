import GoLift.Proofs.Go.Parts
import GoLift.Proofs.Lower.Integers

/-!
# Conversions of constants

A conversion `T(5)` of an integer literal is checked when the code is compiled: **it is refused
if `T` does not have the number.** A conversion of a variable never is.

Integer constants become literals in the signed range of their width, whatever the operation that
they are an operand of; what an operation converts is decided apart from that. `Instr.converted`
lists the operands that an instruction converts, with the types that it converts them to, and
`Lower.representable_iff` says that exactly the constants among them decide whether the emitted
statements compile.
-/

set_option autoImplicit false

namespace GoLift

open Go (Expr Stmt BinaryOp IntType)
open DraftM

/-! ### Conversions that compile -/

namespace Go

namespace IntType

/-- The integer type of an identifier. An integer that holds a pointer has 64 bits. -/
def named? (x : String) : Option IntType :=
  if x = "uintptr" then some ⟨true, 64⟩ else all.find? (·.name == x)

theorem named?_name {t : IntType} (h : t ∈ all) : named? t.name = some t := by
  revert t
  decide

end IntType

/-- If the expression converts an integer literal to an integer type, the type has the number. -/
def Expr.Representable : Expr → Prop
  | .call (.ident x) [.lit .int text] =>
    ∀ t, IntType.named? x = some t → ∃ n, text.toInt? = some n ∧ t.Has n
  | _ => True

/-- All conversions of literals in an expression are representable. -/
def Expr.Fits (e : Expr) : Prop := ∀ y ∈ e.parts, y.Representable

section

variable {x y : Expr} {name : String}

theorem fits_ident : (Expr.ident name).Fits := by
  simp [Expr.Fits, Expr.parts, Expr.Representable]

theorem fits_lit {kind : LitKind} {text : String} : (Expr.lit kind text).Fits := by
  simp [Expr.Fits, Expr.parts, Expr.Representable]

theorem fits_selector {sel : String} : (Expr.selector x sel).Fits ↔ x.Fits := by
  simp [Expr.Fits, Expr.parts, Expr.Representable]

theorem fits_binary {op : BinaryOp} : (Expr.binary x op y).Fits ↔ x.Fits ∧ y.Fits := by
  simp [Expr.Fits, Expr.parts, Expr.Representable, or_imp, forall_and]

/-- A conversion is representable itself, and whatever is in its parts. -/
theorem fits_convert {type : Expr} :
    (convert type x).Fits ↔ (convert type x).Representable ∧ type.Fits ∧ x.Fits := by
  simp [convert, Expr.Fits, Expr.parts, Expr.partsOf, or_imp, forall_and]

end

end Go

open Go

/-! ### Constants among the operands -/

/-- The operands of an integer instruction: locals, and integer constants of its type. -/
def Value.OverInteger (w : Nat) (v : Value) : Prop :=
  (∃ name type, v = .localRef name type) ∨ ∃ n, v = .const (.int w) (.int n)

/-- If the value is an integer constant, a type has the number in the signed range of the
constant's width. -/
def Value.Within (t : IntType) (v : Value) : Prop :=
  ∀ w n, v = .const (.int w) (.int n) → t.Has (signedOf w n)

/-- An unsigned type has exactly the constants whose top bit is not set. -/
theorem has_signedOf {w : Nat} (hw : w ∈ goWidths) (n : Int) :
    IntType.Has ⟨true, w⟩ (signedOf w n) ↔ n % 2 ^ w < 2 ^ (w - 1) := by
  rw [IntType.has_unsigned]
  simp only [goWidths, List.mem_cons, List.not_mem_nil, or_false] at hw
  rcases hw with rfl | rfl | rfl | rfl <;> (unfold signedOf; simp [Int.bmod]; omega)

/-- What an operand is lowered to. -/
def Value.Operand (w : Nat) (v : Value) (e : Expr) : Prop :=
  (∃ name type x, v = .localRef name type ∧ e = .ident x) ∨
    ∃ n, v = .const (.int w) (.int n) ∧ e = .lit .int (toString (signedOf w n))

namespace Value.Operand

variable {w : Nat} {v : Value} {e : Expr}

theorem fits (h : v.Operand w e) : e.Fits := by
  obtain ⟨_, _, _, _, rfl⟩ | ⟨_, _, rfl⟩ := h
  · exact fits_ident
  · exact fits_lit

/-- Converting an operand to an integer type. -/
theorem convert_fits (h : v.Operand w e) {x : String} {t : IntType}
    (hx : IntType.named? x = some t) : (convert (.ident x) e).Fits ↔ v.Within t := by
  rw [fits_convert, and_iff_left ⟨fits_ident, h.fits⟩]
  obtain ⟨name, type, y, rfl, rfl⟩ | ⟨n, rfl, rfl⟩ := h
  · simp [Value.Within, convert, Expr.Representable]
  · simp [Value.Within, convert, Expr.Representable, hx]

/-- Converting an operand to a fixed-width type. -/
theorem convert_name_fits (h : v.Operand w e) {t : IntType} (ht : t ∈ IntType.all) :
    (convert (.ident t.name) e).Fits ↔ v.Within t :=
  h.convert_fits (IntType.named?_name ht)

/-- Converting an operand to a pointer. -/
theorem convert_pointer_fits (h : v.Operand w e) : (convert unsafePointer e).Fits := by
  refine fits_convert.2 ⟨?_, fits_selector.2 fits_ident, h.fits⟩
  simp [convert, unsafePointer, Expr.Representable]

end Value.Operand

/-- Converting what is no literal. -/
theorem fits_convert_call {type type' e : Expr} (ht : type.Fits) :
    (convert type (convert type' e)).Fits ↔ (convert type' e).Fits := by
  rw [fits_convert, and_iff_right ht, and_iff_right]
  simp [convert, Expr.Representable]

theorem fits_convert_binary {type x y : Expr} {op : BinaryOp} (ht : type.Fits) :
    (convert type (.binary x op y)).Fits ↔ x.Fits ∧ y.Fits := by
  rw [fits_convert, and_iff_right ht, and_iff_right, fits_binary]
  simp [convert, Expr.Representable]

/-! ### Instructions -/

/-- The operands that a binary operation converts, with the types. -/
def binaryConverted (op : String) (w : Nat) (left right : Value) : List (IntType × Value) :=
  if (plainOps.lookup op).isNone && (unsignedOps.lookup op).isSome then
    [(⟨true, w⟩, left), (⟨true, w⟩, right)]
  else []

/-- The operands that a comparison converts, with the types. -/
def icmpConverted (pred : String) (w : Nat) (left right : Value) : List (IntType × Value) :=
  if (signedPreds.lookup pred).isNone then [(⟨true, w⟩, left), (⟨true, w⟩, right)] else []

/-- The type that a cast between integer types converts its operand to first. -/
def castConverted? (op : String) (w w' : Nat) : Option IntType :=
  match op with
  | "zext" | "uitofp" => some ⟨true, w⟩
  | "fptoui" => some ⟨true, w'⟩
  | "inttoptr" => some ⟨true, 64⟩
  | "ptrtoint" => none
  | _ => some ⟨false, w'⟩

/-- The operands that an integer instruction converts, with the types. -/
def Instr.converted (scope : Scope) : Instr → List (IntType × Value)
  | .binary _ op (.int w) left right => binaryConverted op w left right
  | .icmp _ pred (.int w) left right => icmpConverted pred w left right
  | .cast _ op value (.int w') =>
    match value.declaredType scope with
    | .int w => ((castConverted? op w w').map (·, value)).toList
    | _ => []
  | _ => []

/-- An integer instruction: all its types are integer types that the emitted language has, and
its operands are locals and integer constants. -/
inductive Instr.OverIntegers (scope : Scope) : Instr → Prop
  | binary {dest op : String} {w : Nat} {left right : Value} (hw : w ∈ goWidths)
      (hleft : left.OverInteger w) (hright : right.OverInteger w) :
      OverIntegers scope (.binary dest op (.int w) left right)
  | icmp {dest pred : String} {w : Nat} {left right : Value} (hw : w ∈ goWidths)
      (hleft : left.OverInteger w) (hright : right.OverInteger w) :
      OverIntegers scope (.icmp dest pred (.int w) left right)
  | cast {dest op : String} {w w' : Nat} {value : Value} (hw : w ∈ goWidths) (hw' : w' ∈ goWidths)
      (hvalue : value.OverInteger w) (htype : value.declaredType scope = .int w) :
      OverIntegers scope (.cast dest op value (.int w'))

/-- The conversions in some code are representable exactly if those of some operands are. -/
def FitsIff (ps : List (IntType × Value)) (e : Expr) : Prop :=
  e.Fits ↔ ∀ p ∈ ps, p.2.Within p.1

theorem FitsIff.nil {e : Expr} (h : e.Fits) : FitsIff [] e := by
  simp [FitsIff, h]

theorem FitsIff.pair {e : Expr} {t : IntType} {left right : Value}
    (h : e.Fits ↔ left.Within t ∧ right.Within t) : FitsIff [(t, left), (t, right)] e := by
  simp [FitsIff, h]

theorem FitsIff.single {e : Expr} {t : IntType} {v : Value} (h : e.Fits ↔ v.Within t) :
    FitsIff [(t, v)] e := by
  simp [FitsIff, h]

theorem DraftM.Yields.succeeds {α : Type} {x : DraftM α} {P : Draft → α → Prop}
    (hx : Yields x P) : Succeeds x := fun d =>
  let ⟨a, d', h, _⟩ := hx d
  ⟨a, d', h⟩

namespace Lower

variable {scope : Scope} {w : Nat} {v left right : Value}

theorem lower_int (type : Ty) (n : Int) :
    (Payload.int n).lower scope type = scalarExpr type (.int n) := by
  rw [Payload.lower] <;> simp

theorem scalarExpr_int (hw : w ∈ goWidths) (n : Int) :
    scalarExpr (.int w) (.int n) =
      (do let _ ← DraftM.goType (.int w)
          return .lit .int (toString (signedOf w n))) := by
  rw [scalarExpr]
  · rfl
  · exact fun h => ne_one_of_mem hw h

theorem ensures_operand (hw : w ∈ goWidths) (hv : v.OverInteger w) :
    Ensures (v.lower scope) (v.Operand w) := by
  rcases hv with ⟨name, type, rfl⟩ | ⟨n, rfl⟩
  · intro d d' e h
    cases h
    exact .inl ⟨name, type, _, rfl, rfl⟩
  · rw [Value.lower, lower_int, scalarExpr_int hw]
    exact .after fun _ => .pure (.inr ⟨n, rfl, rfl⟩)

theorem succeeds_operand (hw : w ∈ goWidths) (hv : v.OverInteger w) :
    Succeeds (v.lower scope) := by
  rcases hv with ⟨name, type, rfl⟩ | ⟨n, rfl⟩
  · rw [Value.lower]
    exact succeeds_localVar name
  · rw [Value.lower, lower_int, scalarExpr_int hw]
    exact .bind (yields_goType hw).succeeds fun _ => .pure _

theorem ensures_ofTypeM {α : Type} {x : TypeM α} {a : α} (h : ∀ r, (x r).1 = .ok a) :
    Ensures (ofTypeM x) (· = a) := by
  intro d d' b hb
  obtain ⟨a', d₁, h₁, -, h₂⟩ := yields_ofTypeM h d
  rw [h₁] at hb
  cases hb
  exact h₂ d' (le_refl d')

theorem ensures_goType (hw : w ∈ goWidths) :
    Ensures (DraftM.goType (.int w)) (· = .ident (IntType.mk false w).name) :=
  ensures_ofTypeM fun r => by
    rw [GoLift.goType, goIntType_eq hw]
    rfl

theorem ensures_goUnsigned (hw : w ∈ goWidths) :
    Ensures (DraftM.goUnsigned (.int w)) (· = .ident (IntType.mk true w).name) :=
  ensures_ofTypeM fun r => by
    rw [GoLift.goType, goIntType_eq hw]
    rfl

/-- An operand that is converted to unsigned. -/
theorem ensures_unsignedValue (hw : w ∈ goWidths) (hv : v.OverInteger w) :
    Ensures (unsignedValue scope (.int w) v) fun e =>
      (e.Fits ↔ v.Within ⟨true, w⟩) := by
  refine (ensures_goUnsigned hw).bind ?_
  rintro _ rfl
  refine (ensures_operand hw hv).bind fun e he => .pure ?_
  exact he.convert_name_fits (mem_all true hw)

/-- The code of a binary operation. -/
theorem ensures_binaryExpr {op : String} (hw : w ∈ goWidths) (hleft : left.OverInteger w)
    (hright : right.OverInteger w) :
    Ensures (binaryExpr scope op (.int w) left right)
      (FitsIff (binaryConverted op w left right)) := by
  refine (ensures_operand hw hleft).bind fun l hl => (ensures_operand hw hright).bind fun r hr => ?_
  rw [isBool_of_mem hw, if_neg Bool.false_ne_true, Option.none_or]
  cases hplain : plainOps.lookup op with
  | some o =>
    rw [binaryConverted, hplain]
    exact .pure (.nil (fits_binary.2 ⟨hl.fits, hr.fits⟩))
  | none =>
    cases hunsigned : unsignedOps.lookup op with
    | some o =>
      rw [binaryConverted, hplain, hunsigned]
      refine (ensures_unsignedValue hw hleft).bind fun l hl =>
        (ensures_unsignedValue hw hright).bind fun r hr => (ensures_goType hw).bind ?_
      rintro _ rfl
      refine .pure (.pair ?_)
      rw [fits_convert_binary fits_ident, hl, hr]
    | none =>
      rw [binaryConverted, hplain, hunsigned]
      show Ensures (if op == "frem" then _ else _) _
      split
      · refine .after fun _ => .pure (.nil ?_)
        simpa [Expr.Fits, Expr.parts, Expr.partsOf, Expr.Representable, or_imp, forall_and]
          using ⟨hl.fits, hr.fits⟩
      · exact .refuse _ _

/-- The code of a comparison. -/
theorem ensures_icmpExpr {pred : String} (hw : w ∈ goWidths) (hleft : left.OverInteger w)
    (hright : right.OverInteger w) :
    Ensures (icmpExpr scope pred (.int w) left right)
      (FitsIff (icmpConverted pred w left right)) := by
  unfold icmpExpr
  cases hsigned : signedPreds.lookup pred with
  | some o =>
    rw [icmpConverted, hsigned]
    refine (ensures_operand hw hleft).bind fun l hl =>
      (ensures_operand hw hright).bind fun r hr => .pure (.nil ?_)
    exact fits_binary.2 ⟨hl.fits, hr.fits⟩
  | none =>
    rw [icmpConverted, hsigned]
    cases unsignedPreds.lookup pred with
    | some o =>
      refine (ensures_unsignedValue hw hleft).bind fun l hl =>
        (ensures_unsignedValue hw hright).bind fun r hr => .pure (.pair ?_)
      rw [fits_binary, hl, hr]
    | none => exact .refuse _ _

theorem ensures_asUnsafePointer {e : Expr} (htype : v.declaredType scope = .int w) :
    Ensures (asUnsafePointer scope v e) (· = convert unsafePointer e) := by
  refine .after fun _ => ?_
  rw [htype]
  exact .pure rfl

/-- The expression of a cast. -/
theorem ensures_castExpr {op : String} {w' : Nat} {e : Expr} (hw : w ∈ goWidths)
    (hw' : w' ∈ goWidths) (htype : v.declaredType scope = .int w) (he : v.Operand w e) :
    Ensures (castExpr scope op v (.int w') e (.ident (IntType.mk false w').name))
      (FitsIff ((castConverted? op w w').map (·, v)).toList) := by
  have hnamed (unsigned : Bool) {u : Nat} (hu : u ∈ goWidths) :
      (convert (.ident (IntType.mk unsigned u).name) e).Fits ↔ v.Within ⟨unsigned, u⟩ :=
    he.convert_name_fits (mem_all unsigned hu)
  unfold castExpr
  -- The first three operations convert to unsigned before they convert to the target type, and
  -- the next six convert to the target type only.
  split
  iterate 2
    rw [htype]
    refine (ensures_goUnsigned hw).bind ?_
    rintro _ rfl
    exact .pure (.single ((fits_convert_call fits_ident).trans (hnamed true hw)))
  · refine (ensures_goUnsigned hw').bind ?_
    rintro _ rfl
    exact .pure (.single ((fits_convert_call fits_ident).trans (hnamed true hw')))
  iterate 6
    exact .pure (.single (hnamed false hw'))
  · exact .pure (.single (hnamed false hw'))
  · refine (ensures_asUnsafePointer htype).bind ?_
    rintro _ rfl
    refine .pure (.nil ?_)
    rw [callNamed, ← convert, fits_convert_call fits_ident, fits_convert_call fits_ident]
    exact he.convert_pointer_fits
  · refine .after fun _ => .pure (.single ?_)
    show (convert _ (convert unsafePointer (convert (.ident "uintptr") e))).Fits ↔ _
    rw [fits_convert_call fits_ident, unsafePointer, fits_convert_call (fits_selector.2 fits_ident)]
    exact he.convert_fits (if_pos rfl)
  · exact .refuse _ _

/-- What the statements of an integer instruction are: they assign one expression. -/
def SetsFitting (ps : List (IntType × Value)) (ss : List Stmt) : Prop :=
  ∃ x e, ss = [.set (.ident x) e] ∧ FitsIff ps e

theorem SetsFitting.iff {ps : List (IntType × Value)} {ss : List Stmt} (h : SetsFitting ps ss) :
    (∀ y ∈ Stmt.partsOf ss, y.Representable) ↔ ∀ p ∈ ps, p.2.Within p.1 := by
  obtain ⟨x, e, rfl, he⟩ := h
  refine Iff.trans ?_ he
  simp [Expr.Fits, Stmt.set, Stmt.partsOf, Stmt.parts, Expr.partsOf, Expr.parts,
    Expr.Representable]

theorem ensures_assignTo {ps : List (IntType × Value)} {x : DraftM Expr} {dest : String}
    (hx : Ensures x (FitsIff ps)) : Ensures (x >>= assignTo dest) (SetsFitting ps) := by
  refine hx.bind fun e he => ?_
  intro d d' ss h
  cases h
  exact ⟨_, e, rfl, he⟩

theorem ensures_castStmts {dest op : String} {w' : Nat} (hw : w ∈ goWidths) (hw' : w' ∈ goWidths)
    (htype : v.declaredType scope = .int w) (hv : v.OverInteger w) :
    Ensures (castStmts scope dest op v (.int w'))
      (SetsFitting ((castConverted? op w w').map (·, v)).toList) := by
  have hlocal : Ensures (localVar dest) fun d => ∃ x, d = .ident x := by
    intro d d' e h
    cases h
    exact ⟨_, rfl⟩
  refine hlocal.bind ?_
  rintro _ ⟨x, rfl⟩
  refine (ensures_operand hw hv).bind fun e he => ?_
  rw [htype, isBool_of_mem hw, isBool_of_mem hw', Bool.and_false]
  split
  · next hbool => cases hbool
  rw [if_neg Bool.false_ne_true]
  refine (ensures_goType hw').bind ?_
  rintro _ rfl
  exact (ensures_castExpr hw hw' htype he).bind fun e he => .pure ⟨x, e, rfl, he⟩

/-- **The emitted conversions of literals are representable exactly if the converted constants
are.** A constant is converted as the number in the signed range of its width, so what is
converted to unsigned must not have its top bit set (`has_signedOf`), and what is converted to
fewer bits must be a number of so many bits. -/
theorem representable_iff {i : Instr} {D D' : Draft} {ss : List Stmt}
    (hi : i.OverIntegers scope) (h : Lower.instr scope i D = (.ok ss, D')) :
    (∀ y ∈ Stmt.partsOf ss, y.Representable) ↔ ∀ p ∈ i.converted scope, p.2.Within p.1 := by
  cases hi with
  | binary hw hleft hright =>
    exact (ensures_assignTo (ensures_binaryExpr hw hleft hright) _ _ _ h).iff
  | icmp hw hleft hright => exact (ensures_assignTo (ensures_icmpExpr hw hleft hright) _ _ _ h).iff
  | cast hw hw' hvalue htype =>
    rw [Instr.converted, htype]
    exact (ensures_castStmts hw hw' htype hvalue _ _ _ h).iff

end Lower

/-! ### Division by a constant -/

namespace Divisor

/-- `%q = udiv i32 %x, c`. -/
def quotient (c : Int) : Instr :=
  .binary "q" "udiv" (.int 32) (.localRef "x" (.int 32)) (.const (.int 32) (.int c))

theorem overIntegers (c : Int) : (quotient c).OverIntegers {} :=
  .binary (by decide) (.inl ⟨"x", .int 32, rfl⟩) (.inr ⟨c, rfl⟩)

theorem succeeds_quotient (c : Int) : Succeeds (Lower.instr {} (quotient c)) := by
  have hw : 32 ∈ goWidths := by decide
  have hx : Succeeds ((Value.localRef "x" (.int 32)).lower {}) :=
    Lower.succeeds_operand hw (.inl ⟨_, _, rfl⟩)
  have hc : Succeeds ((Value.const (.int 32) (.int c)).lower {}) :=
    Lower.succeeds_operand hw (.inr ⟨_, rfl⟩)
  have hunsigned := (yields_goUnsigned hw).succeeds
  refine .bind (.bind hx fun _ => .bind hc fun _ => ?_) fun _ =>
    .bind (succeeds_localVar _) fun _ => .pure _
  refine .bind (hunsigned.bind fun _ => hx.bind fun _ => .pure _) fun _ => ?_
  refine .bind (hunsigned.bind fun _ => hc.bind fun _ => .pure _) fun _ => ?_
  exact .bind (yields_goType hw).succeeds fun _ => .pure _

/-- A quotient by 7 compiles. A quotient by minus 7, which is a large unsigned number, has a
conversion that does not. -/
theorem divides_by_small :
    (∃ ss D', Lower.instr {} (quotient 7) {} = (.ok ss, D') ∧
      ∀ y ∈ Stmt.partsOf ss, y.Representable) ∧
    ∃ ss D', Lower.instr {} (quotient (-7)) {} = (.ok ss, D') ∧
      ¬∀ y ∈ Stmt.partsOf ss, y.Representable := by
  have hlower (c : Int) : ∃ ss D', Lower.instr {} (quotient c) {} = (.ok ss, D') ∧
      ((∀ y ∈ Stmt.partsOf ss, y.Representable) ↔ IntType.Has ⟨true, 32⟩ (signedOf 32 c)) := by
    obtain ⟨ss, D', h⟩ := succeeds_quotient c {}
    refine ⟨ss, D', h, (Lower.representable_iff (overIntegers c) h).trans ?_⟩
    have hconverted : (quotient c).converted {} =
        [(⟨true, 32⟩, .localRef "x" (.int 32)), (⟨true, 32⟩, .const (.int 32) (.int c))] := rfl
    simp [hconverted, Value.Within]
  obtain ⟨ss, D, hss, hsmall⟩ := hlower 7
  obtain ⟨ss', D', hss', hlarge⟩ := hlower (-7)
  exact ⟨⟨ss, D, hss, hsmall.2 (by decide)⟩, ss', D', hss', mt hlarge.1 (by decide)⟩

end Divisor

end GoLift
