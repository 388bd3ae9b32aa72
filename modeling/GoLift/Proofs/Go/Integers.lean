import GoLift.Proofs.Go.Parallel
import Mathlib

/-!
# Integers of the emitted language

`integers` is the host of code that computes with truth values and fixed-width integers
and with nothing else. A value of an integer type is a number in the range of its type:

* the operators work on numbers, and **what leaves the range comes back to it modulo two
  to the width** (`IntType.wrap`); operators on bits work on two's complement;
* division truncates towards zero, and a zero divisor or a negative shift count panics;
* operands have one type, except that the count of a shift may have any, and a literal
  stands for a value of the other operand's type;
* `T(x)` keeps the number if `T` has it, and wraps it otherwise.

A variable keeps the value that it is assigned; for an untyped constant `Datum.as` says
what the variable then holds.

`Leaves` says that statements do nothing but give one variable a value, and `Denotes` that
an expression has a value **as long as no local variable hides a type that it converts
to**; otherwise it means nothing.
-/

set_option autoImplicit false

namespace GoLift.Go

/-! ### Types and values -/

/-- An integer type. -/
structure IntType where
  unsigned : Bool
  width : Nat
deriving DecidableEq, Repr

namespace IntType

/-- The identifier of a type. -/
def name (t : IntType) : String :=
  (if t.unsigned then "uint" else "int") ++ toString t.width

/-- The types of fixed width. -/
def all : List IntType :=
  [true, false].flatMap fun unsigned => [8, 16, 32, 64].map (IntType.mk unsigned)

/-- The number of the type that is congruent to a number. -/
def wrap (t : IntType) (n : Int) : Int :=
  if t.unsigned then n % (2 ^ t.width : Nat) else n.bmod (2 ^ t.width)

/-- The smallest number of a type. -/
def least (t : IntType) : Int :=
  if t.unsigned then 0 else -2 ^ (t.width - 1)

/-- The greatest number of a type. -/
def greatest (t : IntType) : Int :=
  if t.unsigned then 2 ^ t.width - 1 else 2 ^ (t.width - 1) - 1

/-- Is a number in the range of a type? -/
def Has (t : IntType) (n : Int) : Prop :=
  t.least ≤ n ∧ n ≤ t.greatest

instance (t : IntType) (n : Int) : Decidable (t.Has n) :=
  inferInstanceAs (Decidable (_ ∧ _))

theorem has_unsigned {w : Nat} {n : Int} : Has ⟨true, w⟩ n ↔ 0 ≤ n ∧ n < 2 ^ w := by
  show (0 ≤ n ∧ n ≤ 2 ^ w - 1) ↔ _
  omega

theorem has_signed {w : Nat} {n : Int} :
    Has ⟨false, w⟩ n ↔ -2 ^ (w - 1) ≤ n ∧ n < 2 ^ (w - 1) := by
  show (-2 ^ (w - 1) ≤ n ∧ n ≤ 2 ^ (w - 1) - 1) ↔ _
  omega

end IntType

/-- What an expression of such code can stand for. -/
inductive Datum
  | bool (b : Bool)
  | int (type : IntType) (n : Int)
  /-- An untyped constant. -/
  | const (n : Int)
  | type (t : IntType)
  /-- Anything else. -/
  | other
deriving DecidableEq, Repr

/-- What a variable of a type holds after it was assigned a value; a constant that the
type does not have cannot be assigned. -/
def Datum.as (t : IntType) : Datum → Option Datum
  | .int t' n => if t' = t then some (.int t n) else none
  | .const n => if t.wrap n = n then some (.int t n) else none
  | _ => none

/-! ### Operations -/

/-- The comparison of an operator, if it is one. -/
def BinaryOp.compare? : BinaryOp → Option (Int → Int → Bool)
  | .eq => some fun m n => m == n
  | .ne => some fun m n => m != n
  | .lt => some fun m n => decide (m < n)
  | .le => some fun m n => decide (m ≤ n)
  | .gt => some fun m n => decide (n < m)
  | .ge => some fun m n => decide (n ≤ m)
  | _ => none

/-- An operation on the bits of a width, read as a signed number. -/
def onBits (w : Nat) (f : BitVec w → BitVec w → BitVec w) (m n : Int) : Int :=
  (f (BitVec.ofInt w m) (BitVec.ofInt w n)).toInt

namespace IntType

/-- An operation on two numbers of a type. -/
def arith (t : IntType) (op : BinaryOp) (m n : Int) : Action Unit Datum :=
  match op with
  | .add => return .int t (t.wrap (m + n))
  | .sub => return .int t (t.wrap (m - n))
  | .mul => return .int t (t.wrap (m * n))
  | .div => if n = 0 then .panic else return .int t (t.wrap (m.tdiv n))
  | .rem => if n = 0 then .panic else return .int t (t.wrap (m.tmod n))
  | .and => return .int t (t.wrap (onBits t.width (· &&& ·) m n))
  | .or => return .int t (t.wrap (onBits t.width (· ||| ·) m n))
  | .xor => return .int t (t.wrap (onBits t.width (· ^^^ ·) m n))
  | .andNot => return .int t (t.wrap (onBits t.width (fun a b => a &&& ~~~b) m n))
  | op =>
    match op.compare? with
    | some f => return .bool (f m n)
    | none => .stuck

/-- A shift of a number of a type. -/
def shift (t : IntType) (op : BinaryOp) (m count : Int) : Action Unit Datum :=
  if count < 0 then .panic
  else
    match op with
    | .shl => return .int t (t.wrap (m * 2 ^ count.toNat))
    | .shr => return .int t (t.wrap (m / 2 ^ count.toNat))
    | _ => .stuck

end IntType

/-- Is the operator a shift? -/
def BinaryOp.isShift (op : BinaryOp) : Bool :=
  op == .shl || op == .shr

namespace Datum

/-- A binary operation. -/
def binary (op : BinaryOp) : Datum → Datum → Action Unit Datum
  | .bool a, .bool b =>
    match op with
    | .eq => return .bool (a == b)
    | .ne => return .bool (a != b)
    | _ => .stuck
  | .int t m, .int t' n =>
    if op.isShift then t.shift op m n
    else if t' = t then t.arith op m n
    else .stuck
  | .int t m, .const n =>
    if op.isShift then t.shift op m n
    else if t.wrap n = n then t.arith op m n
    else .stuck
  | .const m, .int t n =>
    if !op.isShift && t.wrap m = m then t.arith op m n else .stuck
  | _, _ => .stuck

/-- Convert to a type; nothing else can be called. -/
def call : Datum → List Datum → Action Unit Datum
  | .type t, [.int _ n] => return .int t (t.wrap n)
  | .type t, [.const n] => if t.wrap n = n then return .int t n else .stuck
  | _, _ => .stuck

/-- What an identifier means everywhere. -/
def predeclared (x : String) : Action Unit Datum :=
  match IntType.all.find? (·.name == x) with
  | some t => return .type t
  | none =>
    if x == "true" then return .bool true
    else if x == "false" then return .bool false
    else .stuck

end Datum

/-- An operation on numbers of one type. -/
theorem Datum.binary_arith {op : BinaryOp} (h : op.isShift = false) (t : IntType) (m n : Int) :
    Datum.binary op (.int t m) (.int t n) = t.arith op m n := by
  show (if op.isShift then t.shift op m n else if t = t then t.arith op m n else .stuck) = _
  rw [h, if_neg Bool.false_ne_true, if_pos rfl]

/-- A shift, whatever the type of its count. -/
theorem Datum.binary_shift {op : BinaryOp} (h : op.isShift = true) (t t' : IntType) (m n : Int) :
    Datum.binary op (.int t m) (.int t' n) = t.shift op m n :=
  if_pos h

/-- A constant stands for a value of the other operand's type. -/
theorem Datum.binary_const {op : BinaryOp} (h : op.isShift = false) {t : IntType} {n : Int}
    (hn : t.wrap n = n) (m : Int) :
    Datum.binary op (.int t m) (.const n) = Datum.binary op (.int t m) (.int t n) := by
  rw [Datum.binary_arith h]
  show (if op.isShift then t.shift op m n else if t.wrap n = n then t.arith op m n else .stuck) = _
  rw [h, if_neg Bool.false_ne_true, if_pos hn]

/-- A host that has truth values and integers. -/
abbrev integers : Host where
  Value := Datum
  World := Unit
  ofBool := .bool
  truth?
    | .bool b => some b
    | _ => none
  truth_ofBool _ := rfl
  literal
    | .int, text => (text.toInt?.map Datum.const).getD .other
    | _, _ => .other
  outer := Datum.predeclared
  -- The blank identifier takes everything and holds nothing.
  setOuter x _ := if x == "_" then return else .stuck
  address _ := .stuck
  unary _ _ := .stuck
  binary := Datum.binary
  star _ := .stuck
  store _ _ := .stuck
  select _ _ := .stuck
  composite _ _ := .stuck
  call := Datum.call
  type _ := .stuck
  zero
    | .type t => return .int t 0
    | _ => .stuck

/-! ### Bits of a type -/

/-- The number that bits stand for. -/
def reading (unsigned : Bool) {w : Nat} (a : BitVec w) : Int :=
  if unsigned then a.toNat else a.toInt

@[simp] theorem reading_true {w : Nat} (a : BitVec w) : reading true a = a.toNat := rfl

@[simp] theorem reading_false {w : Nat} (a : BitVec w) : reading false a = a.toInt := rfl

section

variable {u : Bool} {w : Nat} (a b : BitVec w)

/-- Wrapping a number is reading its bits. -/
theorem wrap_eq (n : Int) : IntType.wrap ⟨u, w⟩ n = reading u (BitVec.ofInt w n) := by
  cases u with
  | false => exact (BitVec.toInt_ofInt n).symm
  | true =>
    have h : 0 ≤ n % ((2 ^ w : Nat) : Int) := Int.emod_nonneg n (by
      have := Nat.two_pow_pos w
      omega)
    rw [reading_true, BitVec.toNat_ofInt, Int.toNat_of_nonneg h]
    rfl

@[simp] theorem ofInt_reading : BitVec.ofInt w (reading u a) = a := by
  cases u with
  | false => exact BitVec.ofInt_toInt
  | true => rw [reading_true, BitVec.ofInt_natCast, BitVec.ofNat_toNat, BitVec.setWidth_eq]

theorem wrap_reading : IntType.wrap ⟨u, w⟩ (reading u a) = reading u a := by
  rw [wrap_eq, ofInt_reading]

theorem reading_eq_zero : reading u b = 0 ↔ b = 0#w := by
  constructor
  · intro h
    rw [← ofInt_reading (u := u) b, h, BitVec.ofInt_ofNat]
  · rintro rfl
    cases u <;> simp

/-! Operators that need not know about signs. -/

theorem binary_add : Datum.binary .add (.int ⟨u, w⟩ (reading u a)) (.int ⟨u, w⟩ (reading u b)) =
    pure (.int ⟨u, w⟩ (reading u (a + b))) := by
  rw [Datum.binary_arith rfl]
  show pure (Datum.int _ (IntType.wrap _ (reading u a + reading u b))) = _
  rw [wrap_eq, BitVec.ofInt_add, ofInt_reading, ofInt_reading]

theorem binary_sub : Datum.binary .sub (.int ⟨u, w⟩ (reading u a)) (.int ⟨u, w⟩ (reading u b)) =
    pure (.int ⟨u, w⟩ (reading u (a - b))) := by
  have h : reading u a - reading u b = reading u a + -reading u b := Int.sub_eq_add_neg
  rw [Datum.binary_arith rfl]
  show pure (Datum.int _ (IntType.wrap _ (reading u a - reading u b))) = _
  rw [wrap_eq, h, BitVec.ofInt_add, BitVec.ofInt_neg, ofInt_reading, ofInt_reading,
    BitVec.sub_eq_add_neg]

theorem binary_mul : Datum.binary .mul (.int ⟨u, w⟩ (reading u a)) (.int ⟨u, w⟩ (reading u b)) =
    pure (.int ⟨u, w⟩ (reading u (a * b))) := by
  rw [Datum.binary_arith rfl]
  show pure (Datum.int _ (IntType.wrap _ (reading u a * reading u b))) = _
  rw [wrap_eq, BitVec.ofInt_mul, ofInt_reading, ofInt_reading]

theorem wrap_onBits (f : BitVec w → BitVec w → BitVec w) :
    IntType.wrap ⟨u, w⟩ (onBits w f (reading u a) (reading u b)) = reading u (f a b) := by
  rw [wrap_eq, onBits, ofInt_reading, ofInt_reading, BitVec.ofInt_toInt]

theorem binary_and : Datum.binary .and (.int ⟨u, w⟩ (reading u a)) (.int ⟨u, w⟩ (reading u b)) =
    pure (.int ⟨u, w⟩ (reading u (a &&& b))) := by
  rw [Datum.binary_arith rfl]
  show pure (Datum.int _ (IntType.wrap _ (onBits w (· &&& ·) (reading u a) (reading u b)))) = _
  rw [wrap_onBits]

theorem binary_or : Datum.binary .or (.int ⟨u, w⟩ (reading u a)) (.int ⟨u, w⟩ (reading u b)) =
    pure (.int ⟨u, w⟩ (reading u (a ||| b))) := by
  rw [Datum.binary_arith rfl]
  show pure (Datum.int _ (IntType.wrap _ (onBits w (· ||| ·) (reading u a) (reading u b)))) = _
  rw [wrap_onBits]

theorem binary_xor : Datum.binary .xor (.int ⟨u, w⟩ (reading u a)) (.int ⟨u, w⟩ (reading u b)) =
    pure (.int ⟨u, w⟩ (reading u (a ^^^ b))) := by
  rw [Datum.binary_arith rfl]
  show pure (Datum.int _ (IntType.wrap _ (onBits w (· ^^^ ·) (reading u a) (reading u b)))) = _
  rw [wrap_onBits]

/-! Division, by what the type says about signs. -/

theorem binary_sdiv (hb : b ≠ 0#w) :
    Datum.binary .div (.int ⟨false, w⟩ a.toInt) (.int ⟨false, w⟩ b.toInt) =
      pure (.int ⟨false, w⟩ (a.sdiv b).toInt) := by
  have h : b.toInt ≠ 0 := fun h => hb ((reading_eq_zero (u := false) b).1 h)
  rw [Datum.binary_arith rfl, BitVec.toInt_sdiv]
  exact if_neg h

theorem binary_srem (hb : b ≠ 0#w) :
    Datum.binary .rem (.int ⟨false, w⟩ a.toInt) (.int ⟨false, w⟩ b.toInt) =
      pure (.int ⟨false, w⟩ (a.srem b).toInt) := by
  have h : b.toInt ≠ 0 := fun h => hb ((reading_eq_zero (u := false) b).1 h)
  rw [Datum.binary_arith rfl, ← BitVec.toInt_bmod_cancel (a.srem b), BitVec.toInt_srem]
  exact if_neg h

theorem binary_udiv (hb : b ≠ 0#w) :
    Datum.binary .div (.int ⟨true, w⟩ a.toNat) (.int ⟨true, w⟩ b.toNat) =
      pure (.int ⟨true, w⟩ (a / b).toNat) := by
  have h : (b.toNat : Int) ≠ 0 := fun h => hb ((reading_eq_zero (u := true) b).1 h)
  have hwrap := wrap_reading (u := true) (a / b)
  rw [reading_true, BitVec.toNat_udiv, Int.ofNat_tdiv] at hwrap
  rw [Datum.binary_arith rfl]
  refine (if_neg h).trans ?_
  rw [hwrap, BitVec.toNat_udiv, Int.ofNat_tdiv]

theorem binary_urem (hb : b ≠ 0#w) :
    Datum.binary .rem (.int ⟨true, w⟩ a.toNat) (.int ⟨true, w⟩ b.toNat) =
      pure (.int ⟨true, w⟩ (a % b).toNat) := by
  have h : (b.toNat : Int) ≠ 0 := fun h => hb ((reading_eq_zero (u := true) b).1 h)
  have hwrap := wrap_reading (u := true) (a % b)
  rw [reading_true, BitVec.toNat_umod, Int.ofNat_tmod] at hwrap
  rw [Datum.binary_arith rfl]
  refine (if_neg h).trans ?_
  rw [hwrap, BitVec.toNat_umod, Int.ofNat_tmod]

/-! Shifts by less than the width. -/

/-- A count below the width has no sign bit. -/
theorem toInt_of_lt_width (hb : b.toNat < w) : b.toInt = b.toNat := by
  refine BitVec.toInt_eq_toNat_of_lt ?_
  obtain ⟨v, rfl⟩ : ∃ v, w = v + 1 := ⟨w - 1, by omega⟩
  have h : v < 2 ^ v := Nat.lt_two_pow_self
  rw [Nat.pow_succ]
  omega

theorem binary_shl (hb : b.toNat < w) :
    Datum.binary .shl (.int ⟨false, w⟩ a.toInt) (.int ⟨false, w⟩ b.toInt) =
      pure (.int ⟨false, w⟩ (a <<< b).toInt) := by
  have hpow : BitVec.ofInt w (2 ^ b.toNat) = BitVec.twoPow w b.toNat := by
    have hcast : (2 ^ b.toNat : Int) = ((2 ^ b.toNat : Nat) : Int) := by norm_cast
    rw [hcast, BitVec.ofInt_natCast]
    exact BitVec.eq_of_toNat_eq (by rw [BitVec.toNat_ofNat, BitVec.toNat_twoPow])
  rw [Datum.binary_shift rfl, toInt_of_lt_width b hb]
  refine (if_neg (by omega)).trans ?_
  show pure (Datum.int _ (IntType.wrap _ (a.toInt * 2 ^ (b.toNat : Int).toNat))) = _
  rw [Int.toNat_natCast, wrap_eq, BitVec.ofInt_mul, BitVec.ofInt_toInt, hpow,
    ← BitVec.shiftLeft_eq_mul_twoPow, reading_false]
  rfl

theorem binary_ashr (hb : b.toNat < w) :
    Datum.binary .shr (.int ⟨false, w⟩ a.toInt) (.int ⟨false, w⟩ b.toInt) =
      pure (.int ⟨false, w⟩ (a.sshiftRight' b).toInt) := by
  have hshift : (a.sshiftRight' b).toInt = a.toInt / 2 ^ b.toNat := by
    rw [BitVec.sshiftRight', BitVec.toInt_sshiftRight, Int.shiftRight_eq_div_pow]
    norm_cast
  have hwrap := wrap_reading (u := false) (a.sshiftRight' b)
  rw [reading_false, hshift] at hwrap
  rw [Datum.binary_shift rfl, toInt_of_lt_width b hb]
  refine (if_neg (by omega)).trans ?_
  show pure (Datum.int _ (IntType.wrap _ (a.toInt / 2 ^ (b.toNat : Int).toNat))) = _
  rw [Int.toNat_natCast, hwrap, hshift]

theorem binary_lshr :
    Datum.binary .shr (.int ⟨true, w⟩ a.toNat) (.int ⟨true, w⟩ b.toNat) =
      pure (.int ⟨true, w⟩ (a >>> b).toNat) := by
  have hshift : ((a >>> b).toNat : Int) = a.toNat / 2 ^ b.toNat := by
    rw [BitVec.ushiftRight_eq', BitVec.toNat_ushiftRight, Nat.shiftRight_eq_div_pow]
    norm_cast
  have hwrap := wrap_reading (u := true) (a >>> b)
  rw [reading_true, hshift] at hwrap
  rw [Datum.binary_shift rfl]
  refine (if_neg (by omega)).trans ?_
  show pure (Datum.int _ (IntType.wrap _ (a.toNat / 2 ^ (b.toNat : Int).toNat))) = _
  rw [Int.toNat_natCast, hwrap, hshift]

/-- A comparison of numbers of one type. -/
theorem binary_compare {op : BinaryOp} {m n : Int} {b : Bool}
    (h : op.compare?.map (fun f => f m n) = some b) (t : IntType) :
    Datum.binary op (.int t m) (.int t n) = pure (.bool b) := by
  have hshift : op.isShift = false := by
    cases op <;> first | rfl | cases h
  rw [Datum.binary_arith hshift]
  cases op <;> cases h <;> rfl

end

/-! ### Code without effects -/

namespace Action

variable {World α β : Type} {x : Action World α} {f : α → Action World β} {w w' : World}

theorem bind_of_ok {a : α} (h : x w = some (.ok a, w')) : (x >>= f) w = f a w' := by
  rw [bind_apply, h]

theorem bind_of_none (h : x w = none) : (x >>= f) w = none := by
  rw [bind_apply, h]

end Action

section

variable {ρ : Env integers} {e e' : Expr} {ts ts' : List IntType} {d d' : Datum}

/-- No variable holds a type. -/
def Env.Typeless (ρ : Env integers) : Prop :=
  ∀ x t, ρ x ≠ some (.type t)

/-- Every type has its identifier to itself. -/
def Unhidden (ρ : Env integers) (ts : List IntType) : Prop :=
  ∀ t ∈ ts, ρ t.name = none

/-- An expression has a value if no variable hides one of some types, and no meaning
otherwise. -/
structure Denotes (ρ : Env integers) (e : Expr) (ts : List IntType) (d : Datum) : Prop where
  value : Unhidden ρ ts → e.eval integers ρ () = some (.ok d, ())
  hidden : ¬Unhidden ρ ts → e.eval integers ρ () = none

theorem denotes_ident {x : String} (h : ρ x = some d) : Denotes ρ (.ident x) [] d where
  value _ := by
    rw [Expr.eval, Host.read, h]
    rfl
  hidden hts := absurd (fun _ ht => nomatch ht) hts

theorem denotes_literal {text : String} {n : Int} (h : text.toInt? = some n) :
    Denotes ρ (.lit .int text) [] (.const n) where
  value _ := by
    rw [Expr.eval]
    show some (Except.ok ((text.toInt?.map Datum.const).getD .other), ()) = _
    rw [h]
    rfl
  hidden hts := absurd (fun _ ht => nomatch ht) hts

theorem Denotes.paren (h : Denotes ρ e ts d) : Denotes ρ (.paren e) ts d where
  value hts := by
    rw [Expr.eval]
    exact h.value hts
  hidden hts := by
    rw [Expr.eval]
    exact h.hidden hts

theorem unhidden_append : Unhidden ρ (ts ++ ts') ↔ Unhidden ρ ts ∧ Unhidden ρ ts' := by
  simp only [Unhidden, List.mem_append, or_imp, forall_and]

theorem unhidden_cons {t : IntType} :
    Unhidden ρ (t :: ts) ↔ ρ t.name = none ∧ Unhidden ρ ts :=
  List.forall_mem_cons

/-- Operators that look at both operands. -/
theorem eval_binary {op : BinaryOp} (hop : op ≠ .land ∧ op ≠ .lor) :
    (Expr.binary e op e').eval integers ρ =
      (do
        let v ← e.eval integers ρ
        Datum.binary op v (← e'.eval integers ρ)) := by
  cases op <;> first | rfl | simp at hop

theorem Denotes.binary {op : BinaryOp} {r : Datum} (hop : op ≠ .land ∧ op ≠ .lor)
    (h : Denotes ρ e ts d) (h' : Denotes ρ e' ts' d') (hr : Datum.binary op d d' = pure r) :
    Denotes ρ (.binary e op e') (ts ++ ts') r where
  value hts := by
    obtain ⟨hts, hts'⟩ := unhidden_append.1 hts
    rw [eval_binary hop, Action.bind_of_ok (h.value hts), Action.bind_of_ok (h'.value hts'), hr]
    rfl
  hidden hts := by
    rw [eval_binary hop]
    by_cases hfirst : Unhidden ρ ts
    · have hsecond : ¬Unhidden ρ ts' := fun h => hts (unhidden_append.2 ⟨hfirst, h⟩)
      rw [Action.bind_of_ok (h.value hfirst), Action.bind_of_none (h'.hidden hsecond)]
    · exact Action.bind_of_none (h.hidden hfirst)

/-- What a type's identifier means where nothing hides it. -/
theorem predeclared_name {t : IntType} (ht : t ∈ IntType.all) :
    Datum.predeclared t.name = pure (.type t) := by
  have h : IntType.all.find? (·.name == t.name) = some t := by
    revert t
    decide
  rw [Datum.predeclared, h]

theorem isPanic_name {t : IntType} (ht : t ∈ IntType.all) :
    (Expr.ident t.name).isPanic = false := by
  revert t
  decide

/-- A conversion wraps, if nothing hides its type. -/
theorem Denotes.convert {t t' : IntType} {n : Int} (hρ : ρ.Typeless) (ht : t ∈ IntType.all)
    (h : Denotes ρ e ts (.int t' n)) :
    Denotes ρ (.call (.ident t.name) [e]) (t :: ts) (.int t (t.wrap n)) := by
  have hcall : (Expr.call (.ident t.name) [e]).eval integers ρ =
      (do
        let f ← integers.read ρ t.name
        let v ← e.eval integers ρ
        Datum.call f [v]) := by
    simp [Expr.eval, Expr.evalAll, isPanic_name ht]
  rcases hname : ρ t.name with _ | f
  · have hread : integers.read ρ t.name = pure (.type t) := by
      rw [Host.read, hname]
      exact predeclared_name ht
    have heval : (Expr.call (.ident t.name) [e]).eval integers ρ =
        e.eval integers ρ >>= fun v => Datum.call (.type t) [v] := by
      rw [hcall, hread, pure_bind]
    constructor
    · intro hts
      rw [heval, Action.bind_of_ok (h.value (unhidden_cons.1 hts).2)]
      rfl
    · intro hts
      rw [heval, Action.bind_of_none (h.hidden fun h => hts (unhidden_cons.2 ⟨hname, h⟩))]
  · have hread : integers.read ρ t.name = pure f := by
      rw [Host.read, hname]
    have heval : (Expr.call (.ident t.name) [e]).eval integers ρ =
        e.eval integers ρ >>= fun v => Datum.call f [v] := by
      rw [hcall, hread, pure_bind]
    refine ⟨fun hts => ?_, fun _ => ?_⟩
    · rw [(unhidden_cons.1 hts).1] at hname
      cases hname
    · rw [heval]
      by_cases hts : Unhidden ρ ts
      · rw [Action.bind_of_ok (h.value hts)]
        cases f with
        | type t₁ => exact absurd hname (hρ t.name t₁)
        | _ => rfl
      · exact Action.bind_of_none (h.hidden hts)

/-- A lazy conjunction of which the second operand converts nothing. -/
theorem Denotes.land {b b' : Bool} (h : Denotes ρ e ts (.bool b))
    (h' : Denotes ρ e' [] (.bool b')) : Denotes ρ (.binary e .land e') ts (.bool (b && b')) where
  value hts := by
    rw [Expr.eval, Action.bind_of_ok (h.value hts)]
    cases b with
    | false => rfl
    | true => exact Action.bind_of_ok (h'.value fun _ ht => nomatch ht)
  hidden hts := by
    rw [Expr.eval]
    exact Action.bind_of_none (h.hidden hts)

/-- A lazy disjunction of which the second operand converts nothing. -/
theorem Denotes.lor {b b' : Bool} (h : Denotes ρ e ts (.bool b))
    (h' : Denotes ρ e' [] (.bool b')) : Denotes ρ (.binary e .lor e') ts (.bool (b || b')) where
  value hts := by
    rw [Expr.eval, Action.bind_of_ok (h.value hts)]
    cases b with
    | true => rfl
    | false => exact Action.bind_of_ok (h'.value fun _ ht => nomatch ht)
  hidden hts := by
    rw [Expr.eval]
    exact Action.bind_of_none (h.hidden hts)

end

/-! ### Runs that have one end -/

theorem Env.set_set (ρ : Env integers) (x : String) (d d' : Datum) :
    (ρ.set x d).set x d' = ρ.set x d' := by
  funext y
  simp only [Env.set]
  split <;> rfl

/-- From one state, the code comes to another one and nowhere else. -/
def Does (c : Code) (σ σ' : State integers) : Prop :=
  ∀ φ, Runs c σ φ ↔ φ = .next σ'

section

variable {σ σ₁ σ₂ : State integers} {x : String} {e : Expr} {ts : List IntType} {d : Datum}

theorem does_nil : Does (.stmts []) σ σ :=
  fun _ => runs_nil

theorem does_cons {s : Stmt} {ss : List Stmt} (hs : Does (.stmt s) σ σ₁)
    (hss : Does (.stmts ss) σ₁ σ₂) : Does (.stmts (s :: ss)) σ σ₂ := by
  intro φ
  constructor
  · intro h
    cases h with
    | cons h₁ h₂ =>
      cases (hs _).1 h₁
      exact (hss _).1 h₂
    | stop h₁ hne => exact absurd ((hs _).1 h₁) (hne σ₁)
  · rintro rfl
    exact .cons ((hs _).2 rfl) ((hss _).2 rfl)

theorem does_set (h : Denotes σ.vars e ts d) (hts : Unhidden σ.vars ts)
    (hx : (σ.vars x).isSome = true) :
    Does (.stmt (.set (.ident x) e)) σ ⟨σ.vars.set x d, σ.world⟩ := by
  obtain ⟨old, hold⟩ := Option.isSome_iff_exists.1 hx
  have hassign : assignTo integers σ.vars (.ident x) e () = some (.ok (σ.vars.set x d), ()) := by
    rw [assignTo, Action.bind_of_ok (h.value hts)]
    simp only [hold]
    rfl
  intro φ
  rw [acts_set φ]
  constructor
  · intro hset
    cases hset with
    | next hx =>
      cases hassign.symm.trans hx
      rfl
    | panic hx => cases hassign.symm.trans hx
  · rintro rfl
    exact .next hassign

/-- A conditional without an else-branch. -/
theorem does_if {b : Bool} {body : List Stmt} (h : Denotes σ.vars e [] (.bool b))
    (hbody : Does (.stmts body) σ σ₁) :
    Does (.stmt (.ifElse e body none)) σ (if b then σ₁ else σ) := by
  have htest : e.test integers σ.vars σ.world = some (.ok b, ()) :=
    Action.bind_eq_ok.2 ⟨_, _, h.value (fun _ ht => nomatch ht), rfl⟩
  intro φ
  constructor
  · intro hrun
    cases hrun with
    | ifTrue ht hrun =>
      cases htest.symm.trans ht
      exact (hbody φ).1 hrun
    | ifFalse ht hrun =>
      cases htest.symm.trans ht
      exact runs_nil.1 hrun
    | ifPanic ht => cases htest.symm.trans ht
    | act h | actPanic h => cases h
  · rintro rfl
    cases b with
    | true => exact .ifTrue htest ((hbody _).2 rfl)
    | false => exact .ifFalse htest .nil

/-- From a state, the statements give a variable a value with a property, and change
nothing else. -/
def Leaves (ss : List Stmt) (σ : State integers) (x : String) (P : Datum → Prop) : Prop :=
  ∃ d, P d ∧ Does (.stmts ss) σ ⟨σ.vars.set x d, σ.world⟩

/-- What is no variable is given no value. -/
theorem Leaves.isSome {ss : List Stmt} {P : Datum → Prop} (h : Leaves ss σ x P)
    (hss : Stmt.allPlain ss = true) : (σ.vars x).isSome = true := by
  obtain ⟨d, -, hdoes⟩ := h
  have hrun := (hdoes _).2 rfl
  have hmoves := hrun.moves hss (S := fun _ => True) (fun _ _ => trivial)
  rw [← hmoves.isSome x]
  exact congrArg Option.isSome (σ.vars.set_self x d)

/-- **An assignment leaves the value of its expression** where its variable is one and no
variable hides a type. -/
theorem leaves_set {P : Datum → Prop} (h : Denotes σ.vars e ts d) (hd : P d) :
    Leaves [.set (.ident x) e] σ x P ↔ (σ.vars x).isSome = true ∧ Unhidden σ.vars ts := by
  constructor
  · intro hleaves
    refine ⟨hleaves.isSome rfl, ?_⟩
    obtain ⟨d', -, hdoes⟩ := hleaves
    by_contra hhidden
    have hassign : assignTo integers σ.vars (.ident x) e () = none := by
      rw [assignTo]
      exact Action.bind_of_none (h.hidden hhidden)
    have hrun := runs_singleton.1 ((hdoes _).2 rfl)
    rw [acts_set] at hrun
    cases hrun with
    | next hx => cases hassign.symm.trans hx
  · rintro ⟨hx, hts⟩
    exact ⟨d, hd, does_cons (does_set h hts hx) does_nil⟩

end

end GoLift.Go
