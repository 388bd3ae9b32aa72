import GoLift.Proofs.Go.Integers
import GoLift.Proofs.IR.Bits
import GoLift.Proofs.IR.Uses
import GoLift.Proofs.Lower.Code

/-!
# Integer instructions keep their meaning

The code of an integer instruction is run on the host of fixed-width integers, from a state
in which variables hold the operands, and the outcome is compared with the instruction's own
meaning (`Instr.bits?`). A variable holds bits as the signed number that they stand for, and
a single bit as a truth value (`Bits.datum`).

Signedness lives in the operation on the one side and in the type on the other, so an
unsigned operation has to convert. **These conversions are the only thing that can go wrong**
(`Instr.leaves_result_iff`): bindings are kept from keywords only, and one that is called as
an integer type hides it.

`DraftM.Yields` says what a step comes to together with what holds of its result from then on,
so that success, identifiers and meaning are read off in one walk.
-/

set_option autoImplicit false

namespace GoLift

open Go (Expr Stmt BinaryOp IntType Datum Env State Denotes Unhidden Leaves Does integers)
open DraftM

/-! ### Bits in variables -/

namespace Bits

/-- The value of a variable that holds bits: a truth value for a single bit, and otherwise
the signed number. -/
def datum (b : Bits) : Datum :=
  if b.width = 1 then .bool (b.value.getLsbD 0) else .int ⟨false, b.width⟩ b.value.toInt

/-- A value with which a variable of the type holds bits. -/
def Stored (b : Bits) (d : Datum) : Prop :=
  d = b.datum ∨ d.as ⟨false, b.width⟩ = some b.datum

theorem datum_bit (a : BitVec 1) : (Bits.mk 1 a).datum = .bool (a.getLsbD 0) := rfl

/-- An outcome as a single bit is a truth value. -/
theorem datum_ofBool (t : Bool) : (Bits.mk 1 (BitVec.ofBool t)).datum = .bool t := by
  cases t <;> rfl

theorem datum_word {w : Nat} (hw : w ∈ goWidths) (a : BitVec w) :
    (Bits.mk w a).datum = .int ⟨false, w⟩ a.toInt := by
  refine if_neg ?_
  rintro rfl
  revert hw
  decide

end Bits

/-! ### Operations -/

section

variable {w : Nat} {op : String} {o : BinaryOp} {a b r : BitVec w}

/-- An operation with an operator of its own is that operator on signed numbers. -/
theorem binary_plain (ho : plainOps.lookup op = some o) (hr : binaryBits? op a b = some r) :
    (o ≠ .land ∧ o ≠ .lor) ∧
      Datum.binary o (.int ⟨false, w⟩ a.toInt) (.int ⟨false, w⟩ b.toInt) =
        pure (.int ⟨false, w⟩ r.toInt) := by
  unfold binaryBits? at hr
  split at hr <;> first | cases ho | skip
  · cases hr
    exact ⟨by decide, Go.binary_add a b⟩
  · cases hr
    exact ⟨by decide, Go.binary_sub a b⟩
  · cases hr
    exact ⟨by decide, Go.binary_mul a b⟩
  · obtain ⟨hb, ⟨⟩⟩ := Option.ite_none_left_eq_some.1 hr
    exact ⟨by decide, Go.binary_sdiv a b (not_or.1 hb).1⟩
  · obtain ⟨hb, ⟨⟩⟩ := Option.ite_none_left_eq_some.1 hr
    exact ⟨by decide, Go.binary_srem a b (not_or.1 hb).1⟩
  · obtain ⟨hb, ⟨⟩⟩ := Option.ite_none_right_eq_some.1 hr
    exact ⟨by decide, Go.binary_shl a b hb⟩
  · obtain ⟨hb, ⟨⟩⟩ := Option.ite_none_right_eq_some.1 hr
    exact ⟨by decide, Go.binary_ashr a b hb⟩
  · cases hr
    exact ⟨by decide, Go.binary_and a b⟩
  · cases hr
    exact ⟨by decide, Go.binary_or a b⟩
  · cases hr
    exact ⟨by decide, Go.binary_xor a b⟩
  · cases hr

/-- An unsigned operation is its operator on unsigned numbers. -/
theorem binary_unsigned (ho : unsignedOps.lookup op = some o) (hr : binaryBits? op a b = some r) :
    (o ≠ .land ∧ o ≠ .lor) ∧
      Datum.binary o (.int ⟨true, w⟩ a.toNat) (.int ⟨true, w⟩ b.toNat) =
        pure (.int ⟨true, w⟩ r.toNat) := by
  unfold binaryBits? at hr
  split at hr <;> first | cases ho | skip
  · obtain ⟨hb, ⟨⟩⟩ := Option.ite_none_left_eq_some.1 hr
    exact ⟨by decide, Go.binary_udiv a b hb⟩
  · obtain ⟨hb, ⟨⟩⟩ := Option.ite_none_left_eq_some.1 hr
    exact ⟨by decide, Go.binary_urem a b hb⟩
  · obtain ⟨-, ⟨⟩⟩ := Option.ite_none_right_eq_some.1 hr
    exact ⟨by decide, Go.binary_lshr a b⟩
  · cases hr

variable {t : Bool}

/-- A comparison that is one of signed numbers. -/
theorem compare_signed (ho : signedPreds.lookup op = some o) (ht : icmpOutcome? op a b = some t) :
    (o ≠ .land ∧ o ≠ .lor) ∧
      Datum.binary o (.int ⟨false, w⟩ a.toInt) (.int ⟨false, w⟩ b.toInt) = pure (.bool t) := by
  have heq : (a.toInt == b.toInt) = (a == b) := by
    rw [Bool.eq_iff_iff, beq_iff_eq, beq_iff_eq, BitVec.toInt_inj]
  unfold icmpOutcome? at ht
  split at ht <;> first | cases ho | skip
  · cases ht
    rw [← heq]
    exact ⟨by decide, Go.binary_compare rfl _⟩
  · cases ht
    rw [bne, ← heq]
    exact ⟨by decide, Go.binary_compare rfl _⟩
  · cases ht
    exact ⟨by decide, Go.binary_compare rfl _⟩
  · cases ht
    exact ⟨by decide, Go.binary_compare rfl _⟩
  · cases ht
    exact ⟨by decide, Go.binary_compare rfl _⟩
  · cases ht
    exact ⟨by decide, Go.binary_compare rfl _⟩
  · cases ht

/-- A comparison that is one of unsigned numbers. -/
theorem compare_unsigned (ho : unsignedPreds.lookup op = some o)
    (ht : icmpOutcome? op a b = some t) :
    (o ≠ .land ∧ o ≠ .lor) ∧
      Datum.binary o (.int ⟨true, w⟩ a.toNat) (.int ⟨true, w⟩ b.toNat) = pure (.bool t) := by
  have hlt (a b : BitVec w) : decide ((a.toNat : Int) < b.toNat) = a.ult b :=
    decide_eq_decide.2 Int.ofNat_lt
  have hle (a b : BitVec w) : decide ((a.toNat : Int) ≤ b.toNat) = a.ule b :=
    decide_eq_decide.2 Int.ofNat_le
  unfold icmpOutcome? at ht
  split at ht <;> first | cases ho | skip
  · cases ht
    exact ⟨by decide, hlt b a ▸ Go.binary_compare rfl _⟩
  · cases ht
    exact ⟨by decide, hle b a ▸ Go.binary_compare rfl _⟩
  · cases ht
    exact ⟨by decide, hlt a b ▸ Go.binary_compare rfl _⟩
  · cases ht
    exact ⟨by decide, hle a b ▸ Go.binary_compare rfl _⟩
  · cases ht

end

/-! ### Steps and what holds after them -/

namespace DraftM

variable {α γ : Type}

/-- From every draft, a step comes to a result, of which something holds from then on. -/
def Yields (x : DraftM α) (P : Draft → α → Prop) : Prop :=
  ∀ d, ∃ a d', x d = (.ok a, d') ∧ d ≤ d' ∧ ∀ D, d' ≤ D → P D a

theorem Yields.pure {a : α} {P : Draft → α → Prop} (h : ∀ D, P D a) : Yields (Pure.pure a) P :=
  fun d => ⟨a, d, rfl, le_refl d, fun D _ => h D⟩

theorem Yields.imp {x : DraftM α} {P Q : Draft → α → Prop} (hx : Yields x P)
    (h : ∀ D a, P D a → Q D a) : Yields x Q :=
  fun d =>
    let ⟨a, d', ha, hle, hP⟩ := hx d
    ⟨a, d', ha, hle, fun D hD => h D a (hP D hD)⟩

/-- What holds after the first part may be used for what holds after the second. -/
theorem Yields.bind {x : DraftM α} {f : α → DraftM γ} {P : Draft → α → Prop}
    {Q : Draft → γ → Prop} (hx : Yields x P) (hf : ∀ a, Yields (f a) fun D b => P D a → Q D b) :
    Yields (x >>= f) Q := by
  intro d
  obtain ⟨a, d₁, ha, hle, hP⟩ := hx d
  obtain ⟨b, d₂, hb, hle', hQ⟩ := hf a d₁
  refine ⟨b, d₂, ?_, hle.trans hle', fun D hD => hQ D hD (hP D (hle'.trans hD))⟩
  rw [bind_of_ok ha, hb]

/-- A first part of which the result is known. -/
theorem Yields.bind_eq {x : DraftM α} {f : α → DraftM γ} {a : α} {Q : Draft → γ → Prop}
    (hx : Yields x fun _ b => b = a) (hf : Yields (f a) Q) : Yields (x >>= f) Q := by
  intro d
  obtain ⟨a', d₁, ha, hle, heq⟩ := hx d
  obtain rfl := heq d₁ (le_refl d₁)
  obtain ⟨b, d₂, hb, hle', hQ⟩ := hf d₁
  refine ⟨b, d₂, ?_, hle.trans hle', hQ⟩
  rw [bind_of_ok ha, hb]

theorem yields_localVar (raw : String) :
    Yields (localVar raw) fun D e => ∃ x, D.names.local? raw = some x ∧ e = .ident x :=
  fun d => ⟨_, _, rfl, d.names.le_bind raw, fun _ hD =>
    ⟨_, hD.local? (d.names.local?_bind raw), rfl⟩⟩

/-- Work on the records that comes to a result. -/
theorem yields_ofTypeM {x : TypeM α} {a : α} (h : ∀ r, (x r).1 = .ok a) :
    Yields (ofTypeM x) fun _ b => b = a := by
  intro d
  refine ⟨a, { d with records := (x d.records).2 }, ?_, NameTable.Le.refl d.names, fun _ _ => rfl⟩
  rw [← h d.records]
  rfl

end DraftM

/-! ### Operands -/

/-- A binding has an identifier, whose variable holds bits. -/
def Held (D : Draft) (ρ : Env integers) (x : String) (b : Bits) : Prop :=
  ∃ g, D.names.local? x = some g ∧ ρ g = some b.datum

/-- Every local of a value is held by its variable. -/
def Value.HeldIn (v : Value) (β : String → Option Bits) (D : Draft) (ρ : Env integers) : Prop :=
  ∀ x ∈ v.locals, ∀ b, β x = some b → Held D ρ x b

section

variable {scope : Scope} {β : String → Option Bits} {w : Nat} {v : Value} {a : BitVec w}

/-- A local operand stands for its bits. -/
theorem yields_operand (hv : v.bits? β w = some a) :
    Yields (v.lower scope) fun D e =>
      ∀ ρ, v.HeldIn β D ρ → Denotes ρ e [] (Bits.mk w a).datum := by
  obtain ⟨x, t, rfl, hx⟩ := Value.bits?_eq_some.1 hv
  rw [Value.lower]
  intro d
  obtain ⟨e, d', he, hle, hlocal⟩ := yields_localVar x d
  refine ⟨e, d', he, hle, fun D hD ρ hheld => ?_⟩
  obtain ⟨g, hg, rfl⟩ := hlocal D hD
  obtain ⟨g', hg', hheld⟩ := hheld x (by simp [Value.locals]) _ hx
  rw [hg] at hg'
  cases hg'
  exact Go.denotes_ident hheld

theorem mem_all (unsigned : Bool) (hw : w ∈ goWidths) : IntType.mk unsigned w ∈ IntType.all := by
  revert w
  cases unsigned <;> decide

theorem ne_one_of_mem (hw : w ∈ goWidths) : w ≠ 1 := by
  revert w
  decide

theorem isBool_of_mem (hw : w ∈ goWidths) : (Ty.int w).isBool = false := by
  revert w
  decide

/-- The Go type of an integer type, signed or unsigned. -/
theorem goIntType_eq {unsigned : Bool} (hw : w ∈ goWidths) :
    goIntType unsigned w = pure (.ident (IntType.mk unsigned w).name) := by
  rw [goIntType, if_neg (ne_one_of_mem hw), if_pos (List.contains_iff_mem.2 hw)]
  rfl

theorem yields_goType (hw : w ∈ goWidths) :
    Yields (DraftM.goType (.int w)) fun _ e => e = .ident (IntType.mk false w).name :=
  yields_ofTypeM fun r => by
    rw [GoLift.goType, goIntType_eq hw]
    rfl

theorem yields_goUnsigned (hw : w ∈ goWidths) :
    Yields (DraftM.goUnsigned (.int w)) fun _ e => e = .ident (IntType.mk true w).name :=
  yields_ofTypeM fun r => by
    rw [GoLift.goType, goIntType_eq hw]
    rfl

/-- An operand that is converted to unsigned stands for the unsigned number. -/
theorem denotes_unsigned {ρ : Env integers} {e : Expr} (hw : w ∈ goWidths) (hρ : ρ.Typeless)
    (h : Denotes ρ e [] (Bits.mk w a).datum) :
    Denotes ρ (convert (.ident (IntType.mk true w).name) e) [⟨true, w⟩]
      (.int ⟨true, w⟩ a.toNat) := by
  rw [Bits.datum_word hw] at h
  have hconvert := h.convert hρ (mem_all true hw)
  rw [Go.wrap_eq, BitVec.ofInt_toInt] at hconvert
  exact hconvert

theorem yields_unsignedValue (hw : w ∈ goWidths) (hv : v.bits? β w = some a) :
    Yields (Lower.unsignedValue scope (.int w) v) fun D e =>
      ∀ ρ, ρ.Typeless → v.HeldIn β D ρ → Denotes ρ e [⟨true, w⟩] (.int ⟨true, w⟩ a.toNat) := by
  refine (yields_goUnsigned hw).bind_eq ((yields_operand hv).bind fun e => ?_)
  exact .pure fun D he ρ hρ hheld => denotes_unsigned hw hρ (he ρ hheld)

/-- A number that is converted to a signed type stands for the bits that it is congruent
to. -/
theorem denotes_signed {ρ : Env integers} {e : Expr} {w' : Nat} {r : BitVec w'} {t : IntType}
    {ts : List IntType} {n : Int} (hw : w' ∈ goWidths) (hρ : ρ.Typeless)
    (h : Denotes ρ e ts (.int t n)) (hr : n.bmod (2 ^ w') = r.toInt) :
    Denotes ρ (convert (.ident (IntType.mk false w').name) e) (⟨false, w'⟩ :: ts)
      (Bits.mk w' r).datum := by
  have hconvert := h.convert hρ (mem_all false hw)
  rw [Bits.datum_word hw, ← hr]
  exact hconvert

/-! ### Expressions -/

/-- Every operation with a result has an operator. -/
theorem exists_operator {op : String} {a b r : BitVec w} (hr : binaryBits? op a b = some r) :
    (∃ o, plainOps.lookup op = some o) ∨
      plainOps.lookup op = none ∧ ∃ o, unsignedOps.lookup op = some o := by
  unfold binaryBits? at hr
  split at hr <;> first | exact .inl ⟨_, rfl⟩ | exact .inr ⟨rfl, _, rfl⟩ | cases hr

/-- Every comparison with an outcome has an operator. -/
theorem exists_comparison {pred : String} {a b : BitVec w} {t : Bool}
    (ht : icmpOutcome? pred a b = some t) :
    (∃ o, signedPreds.lookup pred = some o) ∨
      signedPreds.lookup pred = none ∧ ∃ o, unsignedPreds.lookup pred = some o := by
  unfold icmpOutcome? at ht
  split at ht <;> first | exact .inl ⟨_, rfl⟩ | exact .inr ⟨rfl, _, rfl⟩ | cases ht

/-- The types that the code of a binary operation converts to, once for each conversion. -/
def binaryConversions (op : String) (w : Nat) : List IntType :=
  if (plainOps.lookup op).isSome then [] else [⟨false, w⟩, ⟨true, w⟩, ⟨true, w⟩]

/-- The types that the code of a comparison converts to. -/
def icmpConversions (pred : String) (w : Nat) : List IntType :=
  if (signedPreds.lookup pred).isSome then [] else [⟨true, w⟩, ⟨true, w⟩]

/-! Code for truth values converts nothing. -/

theorem binaryConversions_bool {op : String} (hop : op ∈ ["and", "or", "xor"]) :
    binaryConversions op 1 = [] := by
  simp only [List.mem_cons, List.not_mem_nil, or_false] at hop
  rcases hop with rfl | rfl | rfl <;> rfl

theorem icmpConversions_bool {pred : String} (hpred : pred ∈ ["eq", "ne"]) :
    icmpConversions pred 1 = [] := by
  simp only [List.mem_cons, List.not_mem_nil, or_false] at hpred
  rcases hpred with rfl | rfl <;> rfl

/-- Where two operands are held, an expression of them has a value. -/
def Computes (β : String → Option Bits) (left right : Value) (ts : List IntType) (d : Datum)
    (D : Draft) (e : Expr) : Prop :=
  ∀ ρ, ρ.Typeless → left.HeldIn β D ρ → right.HeldIn β D ρ → Denotes ρ e ts d

variable {left right : Value} {b : BitVec w}

theorem yields_binaryExpr {op : String} {r : BitVec w} (hw : w ∈ goWidths)
    (ha : left.bits? β w = some a) (hb : right.bits? β w = some b)
    (hr : binaryBits? op a b = some r) :
    Yields (Lower.binaryExpr scope op (.int w) left right)
      (Computes β left right (binaryConversions op w) (Bits.mk w r).datum) := by
  refine (yields_operand ha).bind fun l => (yields_operand hb).bind fun y => ?_
  rw [isBool_of_mem hw, if_neg Bool.false_ne_true, Option.none_or]
  rcases exists_operator hr with ⟨o, ho⟩ | ⟨hnone, o, ho⟩
  · rw [ho]
    obtain ⟨hstrict, hresult⟩ := binary_plain ho hr
    rw [binaryConversions, ho]
    refine .pure fun D hy hl ρ _ hleft hright => ?_
    have hl := hl ρ hleft
    have hy := hy ρ hright
    rw [Bits.datum_word hw] at hl hy ⊢
    exact hl.binary hstrict hy hresult
  · rw [hnone, ho]
    obtain ⟨hstrict, hresult⟩ := binary_unsigned ho hr
    rw [binaryConversions, hnone]
    refine (yields_unsignedValue hw ha).bind fun l => (yields_unsignedValue hw hb).bind fun y => ?_
    refine (yields_goType hw).bind_eq (.pure fun D hy hl _ _ ρ hρ hleft hright => ?_)
    exact denotes_signed hw hρ ((hl ρ hρ hleft).binary hstrict (hy ρ hρ hright) hresult)
      (BitVec.toInt_eq_toNat_bmod r).symm

/-- Operations on truth values. -/
theorem yields_boolExpr {op : String} {a b r : BitVec 1} (hop : op ∈ ["and", "or", "xor"])
    (ha : left.bits? β 1 = some a) (hb : right.bits? β 1 = some b)
    (hr : binaryBits? op a b = some r) :
    Yields (Lower.binaryExpr scope op (.int 1) left right)
      (Computes β left right [] (Bits.mk 1 r).datum) := by
  refine (yields_operand ha).bind fun l => (yields_operand hb).bind fun y => ?_
  simp only [List.mem_cons, List.not_mem_nil, or_false] at hop
  rcases hop with rfl | rfl | rfl
  · cases hr
    rw [Bits.datum_bit (a &&& b), BitVec.getLsbD_and]
    exact .pure fun D hy hl ρ _ hleft hright => (hl ρ hleft).land (hy ρ hright)
  · cases hr
    rw [Bits.datum_bit (a ||| b), BitVec.getLsbD_or]
    exact .pure fun D hy hl ρ _ hleft hright => (hl ρ hleft).lor (hy ρ hright)
  · cases hr
    rw [Bits.datum_bit (a ^^^ b), BitVec.getLsbD_xor]
    exact .pure fun D hy hl ρ _ hleft hright => (hl ρ hleft).binary (by decide) (hy ρ hright) rfl

theorem yields_icmpExpr {pred : String} {t : Bool} (hw : w ∈ goWidths)
    (ha : left.bits? β w = some a) (hb : right.bits? β w = some b)
    (ht : icmpOutcome? pred a b = some t) :
    Yields (Lower.icmpExpr scope pred (.int w) left right)
      (Computes β left right (icmpConversions pred w) (.bool t)) := by
  unfold Lower.icmpExpr
  rcases exists_comparison ht with ⟨o, ho⟩ | ⟨hnone, o, ho⟩
  · rw [ho, icmpConversions, ho]
    obtain ⟨hstrict, hresult⟩ := compare_signed ho ht
    refine (yields_operand ha).bind fun l => (yields_operand hb).bind fun y => ?_
    refine .pure fun D hy hl ρ _ hleft hright => ?_
    have hl := hl ρ hleft
    have hy := hy ρ hright
    rw [Bits.datum_word hw] at hl hy
    exact hl.binary hstrict hy hresult
  · rw [hnone, ho, icmpConversions, hnone]
    obtain ⟨hstrict, hresult⟩ := compare_unsigned ho ht
    refine (yields_unsignedValue hw ha).bind fun l => (yields_unsignedValue hw hb).bind fun y => ?_
    exact .pure fun D hy hl ρ hρ hleft hright =>
      (hl ρ hρ hleft).binary hstrict (hy ρ hρ hright) hresult

/-- Comparisons of truth values. -/
theorem yields_boolIcmp {pred : String} {a b : BitVec 1} {t : Bool} (hpred : pred ∈ ["eq", "ne"])
    (ha : left.bits? β 1 = some a) (hb : right.bits? β 1 = some b)
    (ht : icmpOutcome? pred a b = some t) :
    Yields (Lower.icmpExpr scope pred (.int 1) left right)
      (Computes β left right [] (.bool t)) := by
  have heq (a b : BitVec 1) : (a.getLsbD 0 == b.getLsbD 0) = (a == b) := by
    revert a b
    decide
  unfold Lower.icmpExpr
  simp only [List.mem_cons, List.not_mem_nil, or_false] at hpred
  rcases hpred with rfl | rfl
  · cases ht
    refine (yields_operand ha).bind fun l => (yields_operand hb).bind fun y => ?_
    rw [← heq]
    exact .pure fun D hy hl ρ _ hleft hright => (hl ρ hleft).binary (by decide) (hy ρ hright) rfl
  · cases ht
    refine (yields_operand ha).bind fun l => (yields_operand hb).bind fun y => ?_
    rw [bne, ← heq]
    exact .pure fun D hy hl ρ _ hleft hright => (hl ρ hleft).binary (by decide) (hy ρ hright) rfl

/-! ### Statements -/

/-- Statements give a binding's variable bits, and change nothing else, from every state in
which the operands are held: exactly if there is such a variable and no variable hides a
type that they convert to. -/
def Assigns (β : String → Option Bits) (operands : List Value) (dest : String)
    (ts : List IntType) (r : Bits) (D : Draft) (ss : List Stmt) : Prop :=
  ∃ x, D.names.local? dest = some x ∧
    ∀ σ : State integers, σ.vars.Typeless → (∀ v ∈ operands, v.HeldIn β D σ.vars) →
      (Leaves ss σ x r.Stored ↔ (σ.vars x).isSome = true ∧ Unhidden σ.vars ts)

/-- The types that the code of a cast between integer types converts to. -/
def castConversions (op : String) (w w' : Nat) : List IntType :=
  if w = 1 ∨ w' = 1 then [] else if op = "zext" then [⟨false, w'⟩, ⟨true, w⟩] else [⟨false, w'⟩]

variable {dest : String} {w' : Nat}

/-- Assigning an expression of two operands to a binding. -/
theorem yields_assignTo {x : DraftM Expr} {ts : List IntType} {r : Bits}
    (hx : Yields x (Computes β left right ts r.datum)) :
    Yields (x >>= Lower.assignTo dest) (Assigns β [left, right] dest ts r) := by
  refine hx.bind fun e => (yields_localVar dest).bind fun t => ?_
  rintro d
  refine ⟨_, d, rfl, le_refl d, fun D _ ht he => ?_⟩
  obtain ⟨x, hx, rfl⟩ := ht
  refine ⟨x, hx, fun σ hσ hheld => ?_⟩
  exact Go.leaves_set (he σ.vars hσ (hheld left (by simp)) (hheld right (by simp))) (.inl rfl)

theorem castBits?_widths {op : String} {r : BitVec w'} (h : castBits? op w' a = some r) :
    op = "trunc" ∧ w' < w ∨ (op = "zext" ∨ op = "sext") ∧ w < w' := by
  unfold castBits? at h
  split at h
  · exact .inl ⟨rfl, (Option.ite_none_right_eq_some.1 h).1⟩
  · exact .inr ⟨.inl rfl, (Option.ite_none_right_eq_some.1 h).1⟩
  · exact .inr ⟨.inr rfl, (Option.ite_none_right_eq_some.1 h).1⟩
  · cases h

/-- Reading as a signed number and wrapping truncates. -/
theorem bmod_toInt_of_le (h : w' ≤ w) : a.toInt.bmod (2 ^ w') = (a.setWidth w').toInt := by
  rw [BitVec.toInt_eq_toNat_bmod a, Int.bmod_bmod_of_dvd (Nat.pow_dvd_pow 2 h),
    BitVec.toInt_setWidth]

/-- A conversion between integer types of the emitted language. -/
theorem yields_intCast {op : String} {r : BitVec w'} (hw : w ∈ goWidths) (hw' : w' ∈ goWidths)
    (hsource : v.declaredType scope = .int w) (hv : v.bits? β w = some a)
    (hr : castBits? op w' a = some r) :
    Yields (Lower.castStmts scope dest op v (.int w'))
      (Assigns β [v] dest (castConversions op w w') ⟨w', r⟩) := by
  refine (yields_localVar dest).bind fun t => (yields_operand hv).bind fun e => ?_
  rw [hsource, isBool_of_mem hw, isBool_of_mem hw', castConversions,
    if_neg (not_or.2 ⟨ne_one_of_mem hw, ne_one_of_mem hw'⟩)]
  -- What is left is a conversion of a kind that depends on the operation.
  have hcast : Yields (Lower.castExpr scope op v (.int w') e (.ident (IntType.mk false w').name))
      fun D y => (∀ ρ, v.HeldIn β D ρ → Denotes ρ e [] (Bits.mk w a).datum) →
        ∀ ρ, ρ.Typeless → v.HeldIn β D ρ →
          Denotes ρ y (if op = "zext" then [⟨false, w'⟩, ⟨true, w⟩] else [⟨false, w'⟩])
            (Bits.mk w' r).datum := by
    rcases castBits?_widths hr with ⟨rfl, hlt⟩ | ⟨rfl | rfl, hlt⟩
    · obtain ⟨-, ⟨⟩⟩ := Option.ite_none_right_eq_some.1 hr
      refine .pure fun D he ρ hρ hheld => ?_
      have he := he ρ hheld
      rw [Bits.datum_word hw] at he
      exact denotes_signed hw' hρ he (bmod_toInt_of_le (Nat.le_of_lt hlt))
    · obtain ⟨-, ⟨⟩⟩ := Option.ite_none_right_eq_some.1 hr
      unfold Lower.castExpr
      rw [hsource]
      refine (yields_goUnsigned hw).bind_eq (.pure fun D he ρ hρ hheld => ?_)
      exact denotes_signed hw' hρ (denotes_unsigned hw hρ (he ρ hheld))
        (BitVec.toInt_setWidth a).symm
    · obtain ⟨-, ⟨⟩⟩ := Option.ite_none_right_eq_some.1 hr
      refine .pure fun D he ρ hρ hheld => ?_
      have he := he ρ hheld
      rw [Bits.datum_word hw] at he
      exact denotes_signed hw' hρ he (BitVec.toInt_ofInt _).symm
  split
  · next hbool => cases hbool
  · rw [Bool.and_false, if_neg Bool.false_ne_true]
    refine (yields_goType hw').bind_eq (hcast.bind fun y => .pure fun D hy he ht => ?_)
    obtain ⟨x, hx, rfl⟩ := ht
    refine ⟨x, hx, fun σ hσ hheld => Go.leaves_set ?_ (.inl rfl)⟩
    exact hy he σ.vars hσ (hheld v (by simp))

/-- A number with nothing but the low bit left is the bit. -/
theorem ne_zero_low (hw : w ∈ goWidths) (a : BitVec w) :
    ((a &&& 1#w).toInt != 0) = (a.setWidth 1).getLsbD 0 := by
  have hbit (b : Bool) : (((BitVec.ofBool b).setWidth w).toInt != 0) = b := by
    clear a
    revert w
    cases b <;> decide
  rw [BitVec.and_one_eq_setWidth_ofBool_getLsbD, hbit, BitVec.getLsbD_setWidth]
  simp

/-- The constants with which the low bit is taken are those of any type. -/
theorem wrap_bits (hw : w ∈ goWidths) :
    IntType.wrap ⟨false, w⟩ 0 = 0 ∧ IntType.wrap ⟨false, w⟩ 1 = 1 ∧ (1#w).toInt = 1 := by
  revert w
  decide

theorem toInt?_zero : "0".toInt? = some 0 := by cbv

theorem toInt?_one : "1".toInt? = some 1 := by cbv

theorem toInt?_negOne : "-1".toInt? = some (-1) := by cbv

/-- The low bit of a number as a truth value. -/
theorem yields_truncBool (hw : w ∈ goWidths) (hsource : v.declaredType scope = .int w)
    (hv : v.bits? β w = some a) :
    Yields (Lower.castStmts scope dest "trunc" v (.int 1))
      (Assigns β [v] dest [] ⟨1, a.setWidth 1⟩) := by
  obtain ⟨hzero, hone, hbit⟩ := wrap_bits hw
  have hand : Datum.binary .and (.int ⟨false, w⟩ a.toInt) (.const 1) =
      pure (.int ⟨false, w⟩ (a &&& 1#w).toInt) := by
    rw [Datum.binary_const rfl hone, ← hbit]
    exact Go.binary_and a 1#w
  have hne : Datum.binary .ne (.int ⟨false, w⟩ (a &&& 1#w).toInt) (.const 0) =
      pure (.bool ((a.setWidth 1).getLsbD 0)) := by
    rw [Datum.binary_const rfl hzero, ← ne_zero_low hw]
    exact Go.binary_compare rfl _
  refine (yields_localVar dest).bind fun t => (yields_operand hv).bind fun e => ?_
  rw [hsource, isBool_of_mem hw]
  refine .pure fun D he ht => ?_
  obtain ⟨x, hx, rfl⟩ := ht
  refine ⟨x, hx, fun σ hσ hheld => Go.leaves_set ?_ (.inl rfl)⟩
  have he := he σ.vars (hheld v (by simp))
  rw [Bits.datum_word hw] at he
  have hmasked := (he.binary (by decide) (Go.denotes_literal toInt?_one) hand).paren
  exact hmasked.binary (by decide) (Go.denotes_literal toInt?_zero) hne

/-- What a truth value becomes as a number of a wider type. -/
theorem stored_boolCast {op : String} {a : BitVec 1} {r : BitVec w'} (hw : w' ∈ goWidths)
    (hr : castBits? op w' a = some r) :
    ∃ text n, Lower.boolCastUnit? op = some (intLit text) ∧ text.toInt? = some n ∧
      (Bits.mk w' r).Stored (if a.getLsbD 0 then .const n else .const 0) := by
  rcases castBits?_widths hr with ⟨rfl, hlt⟩ | ⟨rfl | rfl, hlt⟩
  · obtain rfl := Nat.lt_one_iff.1 hlt
    exact absurd hw (by decide)
  · obtain ⟨-, ⟨⟩⟩ := Option.ite_none_right_eq_some.1 hr
    refine ⟨"1", 1, rfl, toInt?_one, .inr ?_⟩
    clear hr hlt
    revert w'
    revert a
    decide
  · obtain ⟨-, ⟨⟩⟩ := Option.ite_none_right_eq_some.1 hr
    refine ⟨"-1", -1, rfl, toInt?_negOne, .inr ?_⟩
    clear hr hlt
    revert w'
    revert a
    decide

/-- Clearing a variable and setting it under a condition gives it one of two values, if the
condition is another variable. -/
theorem leaves_conditional {σ : State integers} {x g text : String} {n : Int} {t : Bool}
    {P : Datum → Prop} (htext : text.toInt? = some n) (hg : σ.vars g = some (.bool t))
    (hne : g ≠ x) (hP : P (if t then .const n else .const 0)) :
    Leaves [.set (.ident x) (intLit "0"), .ifElse (.ident g) [.set (.ident x) (intLit text)] none]
        σ x P ↔ (σ.vars x).isSome = true ∧ Unhidden σ.vars [] := by
  refine ⟨fun h => ⟨h.isSome rfl, fun _ ht => nomatch ht⟩, fun ⟨hx, hnone⟩ => ⟨_, hP, ?_⟩⟩
  let cleared : State integers := ⟨σ.vars.set x (.const 0), σ.world⟩
  have hclear := Go.does_set (Go.denotes_literal toInt?_zero) hnone hx
  have hcond : Denotes cleared.vars (.ident g) [] (.bool t) :=
    Go.denotes_ident ((Env.set_ne σ.vars _ hne).trans hg)
  have hset : (cleared.vars x).isSome = true := congrArg Option.isSome (Env.set_self ..)
  have hbranch := Go.does_cons
    (Go.does_set (σ := cleared) (Go.denotes_literal htext) (fun _ ht => nomatch ht) hset)
    Go.does_nil
  have hif := Go.does_cons (Go.does_if hcond hbranch) Go.does_nil
  refine Go.does_cons hclear ?_
  cases t with
  | true =>
    rw [if_pos rfl, Env.set_set] at hif
    exact hif
  | false => exact hif

/-- A truth value becomes a number by way of a conditional. -/
theorem yields_boolCast {op : String} {a : BitVec 1} {r : BitVec w'} (hw : w' ∈ goWidths)
    (hsource : v.declaredType scope = .int 1) (hv : v.bits? β 1 = some a)
    (hr : castBits? op w' a = some r) (hother : dest ∉ v.locals) :
    Yields (Lower.castStmts scope dest op v (.int w')) fun D ss =>
      D.names.Sound → Assigns β [v] dest [] ⟨w', r⟩ D ss := by
  obtain ⟨text, n, hunit, htext, hstored⟩ := stored_boolCast hw hr
  obtain ⟨y, t, rfl, hy⟩ := Value.bits?_eq_some.1 hv
  have hzero : Yields (DraftM.zeroValue (.int w')) fun _ e => e = intLit "0" :=
    yields_ofTypeM fun r => by
      rw [GoLift.zeroValue, if_neg (ne_one_of_mem hw), goIntType_eq hw]
      rfl
  refine (yields_localVar dest).bind fun d => ?_
  rw [Value.lower]
  refine (yields_localVar y).bind fun e => ?_
  rw [hunit, hsource]
  refine hzero.bind_eq (.pure fun D he hd hD => ?_)
  obtain ⟨g, hg, rfl⟩ := he
  obtain ⟨x, hx, rfl⟩ := hd
  refine ⟨x, hx, fun σ _ hheld => ?_⟩
  obtain ⟨g', hg', hheld⟩ := hheld _ List.mem_cons_self y (by simp [Value.locals]) _ hy
  rw [hg] at hg'
  cases hg'
  refine leaves_conditional htext hheld ?_ hstored
  rintro rfl
  rw [hD.injective hx hg] at hother
  exact hother (by simp [Value.locals])

/-! ### Instructions -/

/-- The types that the code of an integer instruction converts to, once for each
conversion. -/
def Instr.conversions (scope : Scope) : Instr → List IntType
  | .binary _ op (.int w) _ _ => binaryConversions op w
  | .icmp _ pred (.int w) _ _ => icmpConversions pred w
  | .cast _ op value (.int w') =>
    match value.declaredType scope with
    | .int w => castConversions op w w'
    | _ => []
  | _ => []

/-- **Integer instructions keep their meaning, unless a variable hides a type.** An
instruction with a result is lowered, and where the locals hold the operands, its code gives
the result to the variable of its destination and changes nothing else: exactly if there
is such a variable and every type that the code converts to is called by its name. -/
theorem Instr.leaves_result_iff {i : Instr} {r : Bits} {D : Draft} (hfits : i.Fits scope)
    (hr : i.bits? scope β = some r) (hD : D.names.Sound)
    (hother : ∀ d ∈ i.dest?, ∀ v ∈ i.operands, d ∉ v.locals) :
    ∃ ss D' dest, Lower.instr scope i D = (.ok ss, D') ∧ i.dest? = some dest ∧
      Assigns β i.operands dest (i.conversions scope) r D' ss := by
  -- Whatever the family, its code assigns from a draft with sound names.
  suffices h : ∃ dest, i.dest? = some dest ∧ Yields (Lower.instr scope i) fun D ss =>
      D.names.Sound → Assigns β i.operands dest (i.conversions scope) r D ss by
    obtain ⟨dest, hdest, hyields⟩ := h
    obtain ⟨ss, D', hss, hle, hassigns⟩ := hyields D
    exact ⟨ss, D', dest, hss, hdest, hassigns D' (le_refl D') (hle.sound hD)⟩
  cases i with
  | binary dest op type left right =>
    cases type with
    | int w =>
      simp only [Instr.bits?, Option.bind_eq_bind, Option.bind_eq_some_iff] at hr
      obtain ⟨a, ha, b, hb, c, hc, hr⟩ := hr
      cases hr
      refine ⟨dest, rfl, ?_⟩
      rcases hfits with hw | ⟨rfl, hop⟩
      · exact (yields_assignTo (yields_binaryExpr hw ha hb hc)).imp fun D ss h _ => h
      · have hexpr : Yields (Lower.binaryExpr scope op (.int 1) left right) _ :=
          yields_boolExpr hop ha hb hc
        rw [← binaryConversions_bool hop] at hexpr
        exact (yields_assignTo hexpr).imp fun D ss h _ => h
    | _ => exact hfits.elim
  | icmp dest pred type left right =>
    cases type with
    | int w =>
      simp only [Instr.bits?, Option.bind_eq_bind, Option.bind_eq_some_iff] at hr
      obtain ⟨a, ha, b, hb, t, ht, hr⟩ := hr
      cases hr
      refine ⟨dest, rfl, ?_⟩
      have hbit : (Bits.mk 1 (BitVec.ofBool t)).datum = .bool t := Bits.datum_ofBool t
      rcases hfits with hw | ⟨rfl, hpred⟩
      · have hexpr : Yields (Lower.icmpExpr scope pred (.int w) left right) _ :=
          yields_icmpExpr hw ha hb ht
        rw [← hbit] at hexpr
        exact (yields_assignTo hexpr).imp fun D ss h _ => h
      · have hexpr : Yields (Lower.icmpExpr scope pred (.int 1) left right) _ :=
          yields_boolIcmp hpred ha hb ht
        rw [← hbit, ← icmpConversions_bool hpred] at hexpr
        exact (yields_assignTo hexpr).imp fun D ss h _ => h
    | _ => exact hfits.elim
  | cast dest op value target =>
    cases target with
    | int w' =>
      obtain ⟨hw', w, hsource, hw⟩ := hfits
      simp only [Instr.bits?, hsource, Option.bind_eq_bind, Option.bind_eq_some_iff] at hr
      obtain ⟨a, ha, c, hc, hr⟩ := hr
      cases hr
      refine ⟨dest, rfl, ?_⟩
      simp only [Instr.conversions, hsource]
      rcases hw with hw | ⟨rfl, -⟩ <;> rcases hw' with hw' | ⟨rfl, hop⟩
      · exact (yields_intCast hw hw' hsource ha hc).imp fun D ss h _ => h
      · obtain rfl := List.mem_singleton.1 hop
        obtain ⟨-, ⟨⟩⟩ := Option.ite_none_right_eq_some.1 hc
        rw [castConversions, if_pos (.inr rfl)]
        exact (yields_truncBool hw hsource ha).imp fun D ss h _ => h
      · rw [castConversions, if_pos (.inl rfl)]
        exact yields_boolCast hw' hsource ha hc (hother dest rfl value List.mem_cons_self)
      · rcases castBits?_widths hc with ⟨-, hlt⟩ | ⟨-, hlt⟩ <;> exact absurd hlt (Nat.lt_irrefl 1)
    | _ => exact hfits.elim
  | _ => exact hfits.elim

end

/-! ### A quotient that its own operand hides -/

namespace Quotient

/-- `%q = udiv i32 %x, %y`. -/
def quotient (x : String) : Instr :=
  .binary "q" "udiv" (.int 32) (.localRef x (.int 32)) (.localRef "y" (.int 32))

/-- The dividend has its top bit set. -/
def operands (x : String) : String → Option Bits := fun y =>
  if y = x then some ⟨32, 0xfffffffe#32⟩ else if y = "y" then some ⟨32, 7#32⟩ else none

/-- The variables of the two operands and of the result. -/
def inVars (x : String) : State integers where
  vars y :=
    if y = x then some (.int ⟨false, 32⟩ (-2))
    else if y = "y" then some (.int ⟨false, 32⟩ 7)
    else if y = "q" then some (.int ⟨false, 32⟩ 0)
    else none
  world := ()

theorem typeless (x : String) : (inVars x).vars.Typeless := by
  intro y t h
  simp only [inVars] at h
  split at h
  · cases h
  · split at h
    · cases h
    · split at h <;> cases h

theorem heldIn {x : String} {D : Draft} (hx : D.names.local? x = some x)
    (hy : D.names.local? "y" = some "y") (hne : "y" ≠ x) :
    ∀ v ∈ (quotient x).operands, v.HeldIn (operands x) D (inVars x).vars := by
  intro v hv z hz b hb
  simp only [quotient, Instr.operands, List.mem_cons, List.not_mem_nil, or_false] at hv
  rcases hv with rfl | rfl
  · obtain rfl := List.mem_singleton.1 hz
    simp only [operands, if_pos] at hb
    cases hb
    exact ⟨_, hx, by simp [inVars]; decide⟩
  · obtain rfl := List.mem_singleton.1 hz
    simp only [operands, if_neg hne, if_pos] at hb
    cases hb
    exact ⟨_, hy, by simp [inVars, hne]; decide⟩

/-- The draft after the quotient. -/
def drafted (x : String) : Draft := (Lower.instr {} (quotient x) {}).2

theorem other {x : String} (hx : "q" ≠ x) :
    ∀ d ∈ (quotient x).dest?, ∀ v ∈ (quotient x).operands, d ∉ v.locals := by
  simpa [quotient, Instr.dest?, Instr.operands, Value.locals] using hx

theorem named {x : String} (hx : x ∈ ["x", "uint32"]) :
    (drafted x).names.local? x = some x ∧ (drafted x).names.local? "y" = some "y" ∧
      (drafted x).names.local? "q" = some "q" := by
  simp only [List.mem_cons, List.not_mem_nil, or_false] at hx
  rcases hx with rfl | rfl <;> exact ⟨by cbv, by cbv, by cbv⟩

theorem bits_quotient {x : String} (hx : x ∈ ["x", "uint32"]) :
    (quotient x).bits? {} (operands x) = some ⟨32, 613566756#32⟩ := by
  simp only [List.mem_cons, List.not_mem_nil, or_false] at hx
  rcases hx with rfl | rfl <;> rfl

/-- The quotient comes out as a positive number if its operand is called `x`. If it is called
as a type that the code converts to, the code does not leave it. -/
theorem quotient_unless_hidden :
    (∃ ss, (Lower.instr {} (quotient "x") {}).1 = .ok ss ∧
      Leaves ss (inVars "x") "q" (Bits.mk 32 613566756#32).Stored) ∧
    ∃ ss, (Lower.instr {} (quotient "uint32") {}).1 = .ok ss ∧
      ¬Leaves ss (inVars "uint32") "q" (Bits.mk 32 613566756#32).Stored := by
  have hboth : ∀ x ∈ ["x", "uint32"], ∃ ss, (Lower.instr {} (quotient x) {}).1 = .ok ss ∧
      (Leaves ss (inVars x) "q" (Bits.mk 32 613566756#32).Stored ↔
        Unhidden (inVars x).vars [⟨false, 32⟩, ⟨true, 32⟩, ⟨true, 32⟩]) := by
    intro x hx
    have hne : "y" ≠ x ∧ "q" ≠ x := by
      simp only [List.mem_cons, List.not_mem_nil, or_false] at hx
      rcases hx with rfl | rfl <;> decide
    obtain ⟨hname, hy, hq⟩ := named hx
    obtain ⟨ss, D', dest, hss, hdest, q, hq', hleaves⟩ :=
      Instr.leaves_result_iff (i := quotient x) (D := {}) (.inl (by decide)) (bits_quotient hx)
        NameTable.sound_empty (other hne.2)
    obtain rfl : drafted x = D' := congrArg Prod.snd hss
    cases hdest
    cases hq.symm.trans hq'
    have hdest : ((inVars x).vars "q").isSome = true := by simp [inVars, hne.2]
    refine ⟨ss, congrArg Prod.fst hss, ?_⟩
    exact (hleaves _ (typeless x) (heldIn hname hy hne.1)).trans (and_iff_right hdest)
  constructor
  · obtain ⟨ss, hss, hleaves⟩ := hboth "x" (by decide)
    exact ⟨ss, hss, hleaves.2 (by unfold Unhidden; decide)⟩
  · obtain ⟨ss, hss, hleaves⟩ := hboth "uint32" (by decide)
    refine ⟨ss, hss, fun h => ?_⟩
    have hnone := hleaves.1 h ⟨true, 32⟩ (by decide)
    revert hnone
    decide

end Quotient

end GoLift
