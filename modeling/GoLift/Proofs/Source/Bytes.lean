import GoLift.Source.Literal
import Mathlib.Data.List.Forall2

/-!
# Bytes and their spellings

A byte of a string can be written in several ways: by its code, or as itself if it is an ASCII
character, or, if it is the backslash, twice. `Spells` says which spellings there are, and
**whatever spellings are chosen, byte by byte, the string is read back** (`stringBytes_spelled`): a
backslash tells by the character behind it how many characters belong to it, so no spelling runs
into the next.

Reading goes on in turns, each of which takes at least one character (`turn`). So it stops after no
more turns than the body has characters, whatever the body is, and a turn gives at most four bytes
for a character that it takes.
-/

set_option autoImplicit false

namespace GoLift.Source

open Text

/-! ### Spellings -/

/-- The hexadecimal digits of either case, with their values. -/
def hexDigits : List (Char × Nat) :=
  "0123456789abcdef".toList.zipIdx ++ "ABCDEF".toList.zipIdx 10

/-- The ways to write a byte in a string. -/
inductive Spells : UInt8 → List Char → Prop
  /-- By its code, in two hexadecimal digits. -/
  | code {b : UInt8} {high low : Char} (hhigh : (high, b.toNat / 16) ∈ hexDigits)
      (hlow : (low, b.toNat % 16) ∈ hexDigits) : Spells b ['\\', high, low]
  /-- As the ASCII character that it is. -/
  | char {c : Char} (hascii : c.toNat < 128) (hbackslash : c ≠ '\\') (hquote : c ≠ '"') :
      Spells (UInt8.ofNat c.toNat) [c]
  | backslash : Spells 92 ['\\', '\\']

/-! ### Turns -/

/-- What the first characters stand for, and the characters behind them; `body` is all of the
string. -/
def turn (body : List Char) : List Char → Except ConstantFault (List UInt8 × List Char)
  | [] => .ok ([], [])
  | '\\' :: '\\' :: cs => .ok ([92], cs)
  | '\\' :: a :: b :: cs => (fun byte => ([byte], cs)) <$> readByte a b
  | '\\' :: _ => .error (.shortEscape (String.ofList body))
  | c :: cs => .ok (String.utf8EncodeChar c, cs)

/-- The bytes from here on, if they are read in so many turns. -/
def bytesWithin (body : List Char) : Nat → List Char → Option (Except ConstantFault (List UInt8))
  | _, [] => some (.ok [])
  | 0, _ :: _ => none
  | turns + 1, c :: cs =>
    match turn body (c :: cs) with
    | .error f => some (.error f)
    | .ok (bytes, rest) => (bytesWithin body turns rest).map ((bytes ++ ·) <$> ·)

variable {body cs rest : List Char} {bytes : List UInt8}

/-- Reading is a turn, and reading from where it ends. -/
theorem bytesFrom_eq (body cs : List Char) :
    bytesFrom body cs =
      match turn body cs with
      | .error f => .error f
      | .ok (bytes, rest) => (bytes ++ ·) <$> bytesFrom body rest := by
  fun_cases turn body cs with
  | case1 => rfl
  | case2 cs =>
    rw [bytesFrom]
    rfl
  | case3 a b cs hne =>
    rw [bytesFrom]
    · cases readByte a b with
      | error f => rfl
      | ok byte =>
        change _ = ([byte] ++ ·) <$> bytesFrom body cs
        cases bytesFrom body cs <;> rfl
    · exact hne
  | case4 cs hdouble hcode =>
    rw [bytesFrom] <;> assumption
  | case5 c cs hdouble hcode hlone =>
    rw [bytesFrom] <;> assumption

/-- **A turn takes at least one character, and gives at most four bytes for each.** -/
theorem turn_ok (hcs : cs ≠ []) : turn body cs = .ok (bytes, rest) →
    rest.length < cs.length ∧ bytes.length + 4 * rest.length ≤ 4 * cs.length := by
  fun_cases turn body cs with
  | case1 => exact absurd rfl hcs
  | case2 cs =>
    intro h
    cases h
    simp
    omega
  | case3 a b cs hne =>
    intro h
    cases hbyte : readByte a b with
    | error f =>
      rw [hbyte] at h
      cases h
    | ok byte =>
      rw [hbyte] at h
      cases h
      simp
      omega
  | case4 cs hdouble hcode =>
    intro h
    cases h
  | case5 c cs hdouble hcode hlone =>
    intro h
    cases h
    have hfour := c.utf8Size_le_four
    simp
    omega

/-- As many turns as there are characters are enough. -/
theorem bytesWithin_eq (body : List Char) {turns : Nat} (h : cs.length ≤ turns) :
    bytesWithin body turns cs = some (bytesFrom body cs) := by
  induction turns generalizing cs with
  | zero =>
    obtain rfl := List.eq_nil_of_length_eq_zero (Nat.le_zero.1 h)
    rfl
  | succ turns ih =>
    cases cs with
    | nil => rfl
    | cons c cs =>
      rw [bytesWithin, bytesFrom_eq]
      cases hturn : turn body (c :: cs) with
      | error f => rfl
      | ok r =>
        obtain ⟨bytes, rest⟩ := r
        obtain ⟨hrest, -⟩ := turn_ok (List.cons_ne_nil c cs) hturn
        have hfew : rest.length ≤ turns := by omega
        simp only [ih hfew, Option.map_some]

/-- No character stands for more than four bytes. -/
theorem length_bytesFrom (h : bytesFrom body cs = .ok bytes) : bytes.length ≤ 4 * cs.length := by
  induction hn : cs.length using Nat.strongRecOn generalizing cs bytes with
  | _ n ih =>
    by_cases hcs : cs = []
    · subst hcs
      cases h
      simp
    · rw [bytesFrom_eq] at h
      cases hturn : turn body cs with
      | error f => simp [hturn] at h
      | ok r =>
        obtain ⟨first, rest⟩ := r
        obtain ⟨hrest, hfirst⟩ := turn_ok hcs hturn
        simp only [hturn] at h
        cases hmore : bytesFrom body rest with
        | error f =>
          rw [hmore] at h
          cases h
        | ok more =>
          rw [hmore] at h
          cases h
          have hbound := ih rest.length (by omega) hmore rfl
          rw [List.length_append]
          omega

/-! ### Reading a spelling -/

/-- A hexadecimal digit has its value, and is not taken for anything else. -/
theorem digit_of_mem_hexDigits : ∀ p ∈ hexDigits, digitIn? 16 p.1 = some p.2 ∧
    isNumberSpace p.1 = false ∧ p.1 ≠ '-' ∧ p.1 ≠ '+' ∧ p.1 ≠ '_' ∧ p.1 ≠ '\\' := by
  decide

theorem readByte_code {b : UInt8} {high low : Char} (hhigh : (high, b.toNat / 16) ∈ hexDigits)
    (hlow : (low, b.toNat % 16) ∈ hexDigits) : readByte high low = .ok b := by
  obtain ⟨hhigh, hhighSpace, hminus, hplus, hhighScore, -⟩ := digit_of_mem_hexDigits _ hhigh
  obtain ⟨hlow, hlowSpace, -, -, hlowScore, -⟩ := digit_of_mem_hexDigits _ hlow
  have hread : readInteger 16 [high, low] = some (b.toNat : Int) := by
    simp [readInteger, hhighSpace, hlowSpace, hminus, hplus, readDigits, hhigh, hlow]
    omega
  have hnonneg : ¬ (b.toNat : Int) < 0 := by omega
  simp [readByte, hread, hnonneg]

/-- **A spelling is read by one turn**, whatever stands behind it. -/
theorem turn_of_spells {b : UInt8} {spelling : List Char} (h : Spells b spelling) :
    turn body (spelling ++ rest) = .ok ([b], rest) := by
  cases h with
  | code hhigh hlow =>
    obtain ⟨-, -, -, -, -, hne⟩ := digit_of_mem_hexDigits _ hhigh
    simp only [List.cons_append, List.nil_append]
    rw [turn, readByte_code hhigh hlow]
    · rfl
    · exact hne
  | @char c hascii hbackslash hquote =>
    have hbyte : String.utf8EncodeChar c = [UInt8.ofNat c.toNat] := by
      simp [String.utf8EncodeChar, show c.toNat ≤ 127 by omega]
    simp only [List.cons_append, List.nil_append]
    rw [turn, hbyte] <;> simp [hbackslash]
  | backslash => rfl

/-- **Every spelling of some bytes is read as these bytes.** Whatever the body of a string is, its
bytes are at most four times as many as its characters, and reading it stops, with them or with a
fault, after at most as many turns as it has characters. -/
theorem stringBytes_spelled {spellings : List (List Char)}
    (h : List.Forall₂ Spells bytes spellings) :
    stringBytes spellings.flatten = .ok bytes ∧
      ∀ body, (∀ read, stringBytes body = .ok read → read.length ≤ 4 * body.length) ∧
        bytesWithin body body.length body = some (stringBytes body) := by
  refine ⟨?_, fun body => ⟨fun read hread => length_bytesFrom hread,
    bytesWithin_eq body (Nat.le_refl body.length)⟩⟩
  have hfrom (body : List Char) : bytesFrom body spellings.flatten = .ok bytes := by
    induction h with
    | nil => rfl
    | @cons b spelling bytes spellings hb _ ih =>
      rw [List.flatten_cons, bytesFrom_eq, turn_of_spells hb]
      simp only [ih]
      rfl
  exact hfrom spellings.flatten

/-- A backslash that is written twice does not make a code of the digits behind it, and a code may
end the string. -/
theorem mixed_spelled :
    List.Forall₂ Spells [92, 53, 67, 92, 10]
        [['\\', '\\'], ['5'], ['C'], ['\\', '5', 'C'], ['\\', '0', 'a']] ∧
      stringBytes "\\\\5C\\5C\\0a".toList = .ok [92, 53, 67, 92, 10] := by
  have hspelled : List.Forall₂ Spells [92, 53, 67, 92, 10]
      [['\\', '\\'], ['5'], ['C'], ['\\', '5', 'C'], ['\\', '0', 'a']] :=
    .cons .backslash <| .cons (.char (c := '5') (by decide) (by decide) (by decide)) <|
      .cons (.char (c := 'C') (by decide) (by decide) (by decide)) <|
        .cons (.code (by decide) (by decide)) <| .cons (.code (by decide) (by decide)) .nil
  exact ⟨hspelled, (stringBytes_spelled hspelled).1⟩

end GoLift.Source
