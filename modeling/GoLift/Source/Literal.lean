import GoLift.IR.Value
import GoLift.Source.Token
import GoLift.Text.Integer
import GoLift.Text.Quoted

/-!
# Literals

What the literals of the source stand for: integers, numbers with a point, bit
patterns of doubles, and strings of bytes. In a string, a backslash is written
twice, and any byte as a backslash with two hexadecimal digits; other
characters stand for their UTF-8 bytes.
-/

set_option autoImplicit false

namespace GoLift.Source

open Text

/-- The integer of digits with an optional minus sign. -/
def readInt (cs : List Char) : Except ConstantFault Int :=
  let (negative, digits) :=
    match cs with
    | '-' :: ds => (true, ds)
    | ds => (false, ds)
  if maxDecimalDigits < digits.length then .error (.tooManyDigits digits.length)
  else
    let n : Int := decimalNat digits
    .ok (if negative then -n else n)

/-- A sign, and what comes after it. -/
def splitSign (cs : List Char) : Bool × List Char :=
  match cs with
  | '-' :: ds => (true, ds)
  | '+' :: ds => (false, ds)
  | ds => (false, ds)

/-- The double nearest to a number with a point and an optional exponent. -/
def readDouble (cs : List Char) : Double :=
  let (negative, cs) := splitSign cs
  let whole := cs.takeWhile isDecimal
  let rest := (cs.dropWhile isDecimal).drop 1
  let fraction := rest.takeWhile isDecimal
  let (minus, power) := splitSign ((rest.dropWhile isDecimal).drop 1)
  let exponent : Int := if minus then -(decimalNat power : Int) else decimalNat power
  Double.ofDecimal negative (decimalNat (whole ++ fraction)) (exponent - fraction.length)

/-- The double of a bit pattern in hexadecimal. -/
def readPattern (digits : List Char) : Except ConstantFault Double :=
  let bits := digits.foldl (fun n c => 16 * n + (digitValue? c).getD 0) 0
  if bits < Nat.pow 2 64 then .ok (Double.ofBits bits) else .error .patternTooWide

/-- The byte of two hexadecimal digits. Blanks, a sign and digits of other
scripts are accepted as in any written integer. -/
def readByte (a b : Char) : Except ConstantFault UInt8 :=
  match readInteger 16 [a, b] with
  | none => .error (.badDigits (quoted (String.ofList [a, b])))
  | some n => if n < 0 then .error .negativeByte else .ok (UInt8.ofNat n.toNat)

/-- The bytes of a string's characters from here on; `body` is all of them. -/
def bytesFrom (body : List Char) : List Char → Except ConstantFault (List UInt8)
  | [] => .ok []
  | '\\' :: '\\' :: cs => (92 :: ·) <$> bytesFrom body cs
  | '\\' :: a :: b :: cs => do
    let byte ← readByte a b
    return byte :: (← bytesFrom body cs)
  | '\\' :: _ => .error (.shortEscape (String.ofList body))
  | c :: cs => (String.utf8EncodeChar c ++ ·) <$> bytesFrom body cs

/-- The bytes of a string's body. -/
def stringBytes (body : List Char) : Except ConstantFault (List UInt8) :=
  bytesFrom body body

end GoLift.Source
