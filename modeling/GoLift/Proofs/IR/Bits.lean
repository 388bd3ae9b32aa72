import GoLift.Lower.Value
import GoLift.IR.Program

/-!
# What integer instructions mean

The values of an integer type are the bits of its width, and neither type nor bits say
anything about a sign: that is up to the operation. `Instr.bits?` is the result of an
instruction whose operands are locals with known bits.

**It is missing where the source language leaves the result undefined**, for a zero
divisor, for the one signed quotient that has no place in its width, and for a shift by
the width or more. It is also missing for what is no integer instruction or does not fit
its operands.
-/

set_option autoImplicit false

namespace GoLift

/-- The bits of an integer, with their number. -/
structure Bits where
  width : Nat
  value : BitVec width

namespace Bits

variable {w : Nat}

/-- The bits, if there are as many as asked for. -/
def at? (b : Bits) (w : Nat) : Option (BitVec w) :=
  if h : b.width = w then some (b.value.cast h) else none

@[simp] theorem at?_eq_some {b : Bits} {a : BitVec w} : b.at? w = some a ↔ b = ⟨w, a⟩ := by
  obtain ⟨v, c⟩ := b
  constructor
  · intro h
    simp only [at?] at h
    split at h
    · next hw =>
      subst hw
      cases h
      rfl
    · cases h
  · rintro h
    cases h
    simp [at?]

end Bits

/-- Has the division no quotient of the width as a signed number? -/
def signedOverflow {w : Nat} (a b : BitVec w) : Bool :=
  a == BitVec.intMin w && b == BitVec.allOnes w

/-- The result of a binary operation. -/
def binaryBits? {w : Nat} (op : String) (a b : BitVec w) : Option (BitVec w) :=
  match op with
  | "add" => some (a + b)
  | "sub" => some (a - b)
  | "mul" => some (a * b)
  | "sdiv" => if b = 0#w ∨ signedOverflow a b then none else some (a.sdiv b)
  | "udiv" => if b = 0#w then none else some (a / b)
  | "srem" => if b = 0#w ∨ signedOverflow a b then none else some (a.srem b)
  | "urem" => if b = 0#w then none else some (a % b)
  | "shl" => if b.toNat < w then some (a <<< b) else none
  | "lshr" => if b.toNat < w then some (a >>> b) else none
  | "ashr" => if b.toNat < w then some (a.sshiftRight' b) else none
  | "and" => some (a &&& b)
  | "or" => some (a ||| b)
  | "xor" => some (a ^^^ b)
  | _ => none

/-- The outcome of a comparison. -/
def icmpOutcome? {w : Nat} (pred : String) (a b : BitVec w) : Option Bool :=
  match pred with
  | "eq" => some (a == b)
  | "ne" => some (a != b)
  | "ugt" => some (b.ult a)
  | "uge" => some (b.ule a)
  | "ult" => some (a.ult b)
  | "ule" => some (a.ule b)
  | "sgt" => some (b.slt a)
  | "sge" => some (b.sle a)
  | "slt" => some (a.slt b)
  | "sle" => some (a.sle b)
  | _ => none

/-- The result of a cast to another width. -/
def castBits? {w : Nat} (op : String) (v : Nat) (a : BitVec w) : Option (BitVec v) :=
  match op with
  | "trunc" => if v < w then some (a.setWidth v) else none
  | "zext" => if w < v then some (a.setWidth v) else none
  | "sext" => if w < v then some (a.signExtend v) else none
  | _ => none

/-- The bits of a local, if it has the width asked for. -/
def Value.bits? (β : String → Option Bits) (w : Nat) : Value → Option (BitVec w)
  | .localRef x _ => (β x).bind (·.at? w)
  | _ => none

/-- The result of an integer instruction, given the bits of the locals. What a cast
starts from has the type that its operand was declared with. -/
def Instr.bits? (scope : Scope) (β : String → Option Bits) : Instr → Option Bits
  | .binary _ op (.int w) left right => do
    let a ← left.bits? β w
    let b ← right.bits? β w
    return ⟨w, ← binaryBits? op a b⟩
  | .icmp _ pred (.int w) left right => do
    let a ← left.bits? β w
    let b ← right.bits? β w
    return ⟨1, BitVec.ofBool (← icmpOutcome? pred a b)⟩
  | .cast _ op value (.int v) =>
    match value.declaredType scope with
    | .int w => do
      let a ← value.bits? β w
      return ⟨v, ← castBits? op v a⟩
    | _ => none
  | _ => none

theorem Value.bits?_eq_some {β : String → Option Bits} {w : Nat} {v : Value} {a : BitVec w} :
    v.bits? β w = some a ↔ ∃ x t, v = .localRef x t ∧ β x = some ⟨w, a⟩ := by
  cases v with
  | localRef x t => simp [Value.bits?, Option.bind_eq_some_iff]
  | _ => simp [Value.bits?]

/-- The widths of an operation: those of the emitted language's integers, and for what
makes sense of truth values also a single bit. -/
def WidthOf (ops : List String) (op : String) (w : Nat) : Prop :=
  w ∈ goWidths ∨ w = 1 ∧ op ∈ ops

/-- Are all widths of an integer instruction those of integers of the emitted language,
or that of truth values where these may stand? -/
def Instr.Fits (scope : Scope) : Instr → Prop
  | .binary _ op (.int w) _ _ => WidthOf ["and", "or", "xor"] op w
  | .icmp _ pred (.int w) _ _ => WidthOf ["eq", "ne"] pred w
  | .cast _ op value (.int v) =>
    WidthOf ["trunc"] op v ∧ ∃ w, value.declaredType scope = .int w ∧
      WidthOf ["zext", "sext"] op w
  | _ => False

end GoLift
