/-!
# Decoding UTF-8

`decodeUtf8` reads well-formed UTF-8 only: the shortest form of each character,
no surrogates and nothing above `U+10FFFF`. The first ill-formed sequence is
reported with the way in which it is ill-formed.
-/

set_option autoImplicit false

namespace GoLift.Text

/-- What is wrong with a sequence of bytes. -/
inductive Utf8Fault
  /-- A byte that starts no character. -/
  | start
  /-- A byte that cannot follow the one before it. -/
  | continuation
  /-- The text stops inside a character. -/
  | truncated
deriving DecidableEq, Repr

/-- The fault in words. -/
def Utf8Fault.message : Utf8Fault → String
  | .start => "invalid start byte"
  | .continuation => "invalid continuation byte"
  | .truncated => "unexpected end of data"

/-- Is `b` a continuation byte within the bounds? -/
def isContinuation (lo hi b : UInt8) : Bool :=
  lo ≤ b && b ≤ hi

/-- How a first byte continues: the number of continuation bytes and the bounds
of the first of them. -/
def utf8Lead? (b : UInt8) : Option (Nat × UInt8 × UInt8) :=
  if 0xC2 ≤ b && b ≤ 0xDF then some (1, 0x80, 0xBF)
  else if b == 0xE0 then some (2, 0xA0, 0xBF)
  else if b == 0xED then some (2, 0x80, 0x9F)
  else if 0xE1 ≤ b && b ≤ 0xEF then some (2, 0x80, 0xBF)
  else if b == 0xF0 then some (3, 0x90, 0xBF)
  else if b == 0xF4 then some (3, 0x80, 0x8F)
  else if 0xF1 ≤ b && b ≤ 0xF3 then some (3, 0x80, 0xBF)
  else none

/-- The payload of a first byte that `more` bytes follow. -/
def utf8LeadBits (more : Nat) (b : UInt8) : Nat :=
  b.toNat % Nat.pow 2 (6 - more)

/-- Decode, with `more` continuation bytes of the character `code` still to
come, the next of them between `lo` and `hi`. -/
def decodeUtf8From (more code : Nat) (lo hi : UInt8) :
    List UInt8 → Except Utf8Fault (List Char)
  | [] => if more = 0 then .ok [] else .error .truncated
  | b :: bs =>
    match more with
    | 0 =>
      if b < 0x80 then (Char.ofNat b.toNat :: ·) <$> decodeUtf8From 0 0 0x80 0xBF bs
      else
        match utf8Lead? b with
        | none => .error .start
        | some (n, lo', hi') => decodeUtf8From n (utf8LeadBits n b) lo' hi' bs
    | left + 1 =>
      if isContinuation lo hi b then
        let code' := code * 64 + b.toNat % 64
        if left = 0 then (Char.ofNat code' :: ·) <$> decodeUtf8From 0 0 0x80 0xBF bs
        else decodeUtf8From left code' 0x80 0xBF bs
      else .error .continuation

/-- The text that the bytes encode. -/
def decodeUtf8 (bytes : List UInt8) : Except Utf8Fault (List Char) :=
  decodeUtf8From 0 0 0x80 0xBF bytes

end GoLift.Text
