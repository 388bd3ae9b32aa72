import GoLift.Number.Double

/-!
# The shortest decimal that reads back

Every real in an interval around a double rounds to it. **The shortest decimal
of a double is the one with the fewest digits inside that interval**, and of
those the nearest to the double; an exact tie goes to the even last digit. For
each number of digits only the two neighbours of the double on that decimal
grid can be the nearest, so those are the two that are tried.
-/

set_option autoImplicit false

namespace GoLift

/-- The number `digits · 10 ^ exponent`. -/
structure Decimal where
  digits : Nat
  exponent : Int
deriving DecidableEq, Repr

namespace Shortest

/-- Compare `a · 2 ^ e` with `d · 10 ^ k`. -/
def compareScaled (a : Nat) (e : Int) (d : Nat) (k : Int) : Ordering :=
  compare (a * twoPow e * tenPow (-k)) (d * tenPow k * twoPow (-e))

/-- Does `d · 10 ^ k` round to the double `m · 2 ^ e`? Distances are in quarters
of the last place, and below a power of two the next double is half as far. The
ends of the interval round to an even significand. -/
def roundsTo (m : Nat) (e : Int) (d : Nat) (k : Int) : Bool :=
  let below := if m = Nat.pow 2 52 ∧ -1074 < e then 1 else 2
  let lower := compareScaled (4 * m - below) (e - 2) d k
  let upper := compareScaled (4 * m + 2) (e - 2) d k
  if m % 2 = 0 then lower.isLE && upper.isGE else lower.isLT && upper.isGT

/-- The place of the leading digit: the `p` with `10 ^ p ≤ m · 2 ^ e < 10 ^ (p + 1)`. -/
def leadingPlace (m : Nat) (e : Int) : Int :=
  let places := (List.range 700).map (fun n : Nat => (330 : Int) - n)
  (places.find? (fun p => (compareScaled m e 1 p).isGE)).getD 0

/-- The nearest decimal on the grid `10 ^ k` that rounds to the double. -/
def onGrid? (m : Nat) (e : Int) (k : Int) : Option Decimal :=
  let d := m * twoPow e * tenPow (-k) / (tenPow k * twoPow (-e))
  match roundsTo m e d k, roundsTo m e (d + 1) k with
  | true, true =>
    match compareScaled (2 * m) e (2 * d + 1) k with
    | .lt => some ⟨d, k⟩
    | .gt => some ⟨d + 1, k⟩
    | .eq => some ⟨d + d % 2, k⟩
  | true, false => some ⟨d, k⟩
  | false, true => some ⟨d + 1, k⟩
  | false, false => none

end Shortest

/-- The shortest decimal of the positive double `m · 2 ^ e`. Seventeen digits
always suffice. -/
def shortestDecimal (m : Nat) (e : Int) : Decimal :=
  let p := Shortest.leadingPlace m e
  ((List.range 17).findSome? (fun n : Nat => Shortest.onGrid? m e (p - n))).getD ⟨m, 0⟩

end GoLift
