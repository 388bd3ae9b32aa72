import GoLift.Text.Blank
import GoLift.Text.Digit

/-!
# Reading an integer

The liberal reading of a written integer: blanks around it, one sign, decimal
digits of any script, and single underscores between digits. The same rules
serve base ten and base sixteen.
-/

set_option autoImplicit false

namespace GoLift.Text

/-- Blanks that may surround a number. The ASCII separators are not among
them. -/
def isNumberSpace (c : Char) : Bool :=
  isBlank c && !(0x1C ≤ c.toNat && c.toNat ≤ 0x1F)

/-- The value of `c` as a digit of any base up to sixteen. -/
def digitValue? (c : Char) : Option Nat :=
  if 'a' ≤ c ∧ c ≤ 'f' then some (c.toNat - 'a'.toNat + 10)
  else if 'A' ≤ c ∧ c ≤ 'F' then some (c.toNat - 'A'.toNat + 10)
  else decimalValue? c

/-- The value of `c` as a digit of `base`. -/
def digitIn? (base : Nat) (c : Char) : Option Nat :=
  (digitValue? c).filter (· < base)

/-- Digits with single underscores between them, read onto `n`. `digitBefore`
tells whether the last character was a digit. -/
def readDigits (base n : Nat) (digitBefore : Bool) : List Char → Option Nat
  | [] => if digitBefore then some n else none
  | '_' :: cs => if digitBefore then readDigits base n false cs else none
  | c :: cs =>
    match digitIn? base c with
    | some d => readDigits base (base * n + d) true cs
    | none => none

/-- How many decimal digits a decimal number may be written with. -/
def maxDecimalDigits : Nat := 4300

/-- The integer that `cs` writes in `base`. -/
def readInteger (base : Nat) (cs : List Char) : Option Int :=
  let trimmed := ((cs.dropWhile isNumberSpace).reverse.dropWhile isNumberSpace).reverse
  match trimmed with
  | '-' :: digits => (readDigits base 0 false digits).map (fun n => -(n : Int))
  | '+' :: digits => (readDigits base 0 false digits).map Int.ofNat
  | digits => (readDigits base 0 false digits).map Int.ofNat

end GoLift.Text
