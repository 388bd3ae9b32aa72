import GoLift.Number.Shortest

/-!
# Floating-point literals

How a finite double is written in the emitted source: its shortest decimal,
positional while the leading digit stands between the fourth place after the
point and the sixteenth before it, otherwise with an exponent of at least two
digits. A positional literal always shows a point.
-/

set_option autoImplicit false

namespace GoLift

/-- Which literals are positional, and how an exponent is written. -/
structure LiteralFormat where
  /-- The lowest place of a leading digit that is written positionally. -/
  lowest : Int
  /-- The highest such place. -/
  highest : Int
  /-- The least number of digits of an exponent. -/
  exponentDigits : Nat

/-- The format of emitted literals. -/
def LiteralFormat.source : LiteralFormat := ⟨-4, 15, 2⟩

/-- `cs` without the zeros at its end, and how many there were. -/
def dropTrailingZeros (cs : List Char) : List Char × Nat :=
  let kept := (cs.reverse.dropWhile (· == '0')).reverse
  (kept, cs.length - kept.length)

/-- Digits with the decimal point after the first `point` of them. -/
def positional (digits : List Char) (point : Int) : List Char :=
  if point ≤ 0 then ['0', '.'] ++ List.replicate (-point).toNat '0' ++ digits
  else
    let n := point.toNat
    if digits.length ≤ n then digits ++ List.replicate (n - digits.length) '0' ++ ['.', '0']
    else digits.take n ++ '.' :: digits.drop n

/-- Digits with a point after the first one and an exponent. -/
def scientific (f : LiteralFormat) (digits : List Char) (place : Int) : List Char :=
  let mantissa :=
    match digits with
    | [] => []
    | [d] => [d]
    | d :: ds => d :: '.' :: ds
  let power := Nat.toDigits 10 place.natAbs
  mantissa ++ ['e', if place < 0 then '-' else '+'] ++
    List.replicate (f.exponentDigits - power.length) '0' ++ power

/-- The literal of a positive decimal. -/
def Decimal.literal (f : LiteralFormat) (d : Decimal) : List Char :=
  let (digits, zeros) := dropTrailingZeros (Nat.toDigits 10 d.digits)
  let place : Int := d.exponent + zeros + digits.length - 1
  if f.lowest ≤ place ∧ place ≤ f.highest then positional digits (place + 1)
  else scientific f digits place

/-- The literal of the finite double `± m · 2 ^ e`. -/
def floatLiteral (negative : Bool) (m : Nat) (e : Int) : String :=
  let magnitude :=
    if m = 0 then ['0', '.', '0'] else (shortestDecimal m e).literal LiteralFormat.source
  String.ofList (if negative then '-' :: magnitude else magnitude)

end GoLift
