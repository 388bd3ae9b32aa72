/-!
# Binary floating-point numbers

**A double is its value**: not-a-number, a signed infinity, or a sign with
`significand · 2 ^ exponent`. All arithmetic is on natural numbers, so nothing
here depends on the machine. Every number is produced by `Format.round`, which
takes an exact quotient to the nearest number of a format, ties to the even
significand; a finite double is therefore always in the form that `ofBits`
gives it.
-/

set_option autoImplicit false

namespace GoLift

/-- A number of the IEEE double format. -/
inductive Double
  /-- Any not-a-number; its payload is not kept. -/
  | nan
  | infinity (negative : Bool)
  /-- `± significand · 2 ^ exponent`. The significand has 53 bits unless the
  exponent is the least one, `-1074`. -/
  | finite (negative : Bool) (significand : Nat) (exponent : Int)
deriving DecidableEq, Repr, Inhabited

/-! ### Formats and rounding -/

/-- A binary format: significands below `2 ^ precision`, exponents from `least`
on, and values below `2 ^ limit`. -/
structure Format where
  precision : Nat
  least : Int
  limit : Int

/-- IEEE double. -/
def Format.double : Format := ⟨53, -1074, 1024⟩

/-- IEEE single. -/
def Format.single : Format := ⟨24, -149, 128⟩

/-- `num / den` rounded to the nearest integer, ties to even. -/
def roundQuotient (num den : Nat) : Nat :=
  let q := num / den
  let r := num % den
  if 2 * r < den then q else if den < 2 * r then q + 1 else q + q % 2

/-- `2 ^ e` as the numerator of a factor, `1` for negative `e`. -/
def twoPow (e : Int) : Nat := Nat.pow 2 e.toNat

/-- `10 ^ e` as the numerator of a factor, `1` for negative `e`. -/
def tenPow (e : Int) : Nat := Nat.pow 10 e.toNat

/-- `num / den / 2 ^ e`, rounded. -/
def roundScaled (num den : Nat) (e : Int) : Nat :=
  roundQuotient (num * twoPow (-e)) (den * twoPow e)

/-- The exponent at which `num / den` has a significand of `precision` bits, or
the least exponent if that is larger. -/
def Format.exponentOf (f : Format) (num den : Nat) : Int :=
  let guess : Int := (num.log2 : Int) - den.log2 - f.precision + 1
  let short := decide (num * twoPow (-guess) < Nat.pow 2 (f.precision - 1) * (den * twoPow guess))
  max (if short then guess - 1 else guess) f.least

/-- The number of the format nearest to `num / den`; `none` if it is too large. -/
def Format.round (f : Format) (num den : Nat) : Option (Nat × Int) :=
  let e := f.exponentOf num den
  let m := roundScaled num den e
  let (m, e) := if m = Nat.pow 2 f.precision then (Nat.pow 2 (f.precision - 1), e + 1) else (m, e)
  if m * twoPow e < Nat.pow 2 f.limit.toNat * twoPow (-e) then some (m, e) else none

namespace Double

/-- The double nearest to `± num / den`, an infinity beyond the range. -/
def ofQuotient (negative : Bool) (num den : Nat) : Double :=
  match Format.double.round num den with
  | some (m, e) => .finite negative m e
  | none => .infinity negative

/-- The double nearest to an integer; `none` beyond the range. -/
def ofInt? (n : Int) : Option Double :=
  (Format.double.round n.natAbs 1).map (fun p => .finite (decide (n < 0)) p.1 p.2)

/-- The double nearest to `± digits · 10 ^ exponent`. Numbers far outside the
range are settled by the place of their leading digit, before any power is
computed. -/
def ofDecimal (negative : Bool) (digits : Nat) (exponent : Int) : Double :=
  let place := exponent + (Nat.toDigits 10 digits).length
  if digits = 0 ∨ place < -400 then .finite negative 0 (-1074)
  else if 400 < place then .infinity negative
  else ofQuotient negative (digits * tenPow exponent) (tenPow (-exponent))

/-! ### Bit patterns -/

/-- The double of a 64-bit pattern. -/
def ofBits (bits : Nat) : Double :=
  let negative := bits / Nat.pow 2 63 % 2 == 1
  let biased : Nat := bits / Nat.pow 2 52 % Nat.pow 2 11
  let fraction : Nat := bits % Nat.pow 2 52
  if biased = 2047 then
    if fraction = 0 then .infinity negative else .nan
  else if biased = 0 then .finite negative fraction (-1074)
  else .finite negative (Nat.pow 2 52 + fraction) ((biased : Int) - 1075)

/-- The 64-bit pattern of a double, a quiet pattern for not-a-number. -/
def toBits : Double → Nat
  | .nan => 0x7FF8000000000000
  | .infinity negative => (if negative then Nat.pow 2 63 else 0) + 2047 * Nat.pow 2 52
  | .finite negative m e =>
    (if negative then Nat.pow 2 63 else 0) +
      (if m < Nat.pow 2 52 then m
      else (e + 1075).toNat * Nat.pow 2 52 + (m - Nat.pow 2 52))

/-! ### Conversions -/

/-- The double rounded to single precision; `none` if a finite number becomes
infinite. -/
def toSingle? : Double → Option Double
  | .finite negative m e =>
    (Format.single.round (m * twoPow e) (twoPow (-e))).map
      (fun p => ofQuotient negative (p.1 * twoPow p.2) (twoPow (-p.2)))
  | d => some d

/-- The integer part of a finite double, towards zero. -/
def truncate? : Double → Option Int
  | .finite negative m e =>
    let n := m * twoPow e / twoPow (-e)
    some (if negative then -(n : Int) else n)
  | _ => none

/-- Is the double a zero of either sign? -/
def isZero : Double → Bool
  | .finite _ m _ => m == 0
  | _ => false

/-- Is the double the number one? -/
def isOne : Double → Bool
  | .finite false m e => m * twoPow e == twoPow (-e)
  | _ => false

end Double

end GoLift
