import GoLift.Json.Basic
import GoLift.Text.Integer

/-!
# Reading JSON documents

`Json.read` reads one document and says where and why it stops short of one.
**A place is the text that is left from it on**: every fault carries the rest of
the document at the place it is about, and `Json.Fault.message` turns that into
a line, a column and an offset.

The numbers of the standard are accepted together with `NaN` and the two
infinities. A number ends with its longest well-formed beginning; what follows
is judged as whatever has to come next.
-/

set_option autoImplicit false

namespace GoLift.Json

/-- What is missing or wrong in a document. -/
inductive FaultKind
  | value
  | comma
  | colon
  | name
  | unterminated
  | escape
  | unicodeEscape
  | control
  | extra
  | byteOrderMark
  /-- An integer is longer than any number is read. -/
  | longInteger
deriving DecidableEq, Repr

/-- The fault in words. -/
def FaultKind.text : FaultKind → String
  | .value => "Expecting value"
  | .comma => "Expecting ',' delimiter"
  | .colon => "Expecting ':' delimiter"
  | .name => "Expecting property name enclosed in double quotes"
  | .unterminated => "Unterminated string starting at"
  | .escape => "Invalid \\escape"
  | .unicodeEscape => "Invalid \\uXXXX escape"
  | .control => "Invalid control character at"
  | .extra => "Extra data"
  | .byteOrderMark => "Unexpected UTF-8 BOM (decode using utf-8-sig)"
  | .longInteger => "integer too long"

/-- A fault, and the text from the place it is about. -/
structure Fault where
  kind : FaultKind
  rest : List Char

/-- The fault of a document in words, with line and column counted from one and
the offset from zero. -/
def Fault.message (document : List Char) (f : Fault) : String :=
  let before := document.take (document.length - f.rest.length)
  let line := before.count '\n' + 1
  let column := (before.reverse.takeWhile (· != '\n')).length + 1
  f.kind.text ++ ": line " ++ toString line ++ " column " ++ toString column ++
    " (char " ++ toString before.length ++ ")"

/-- Is `c` white space of a document? -/
def isSpace (c : Char) : Bool :=
  c == ' ' || c == '\t' || c == '\n' || c == '\r'

/-- The text after white space. -/
def skipSpace (cs : List Char) : List Char :=
  cs.dropWhile isSpace

/-! ### Strings -/

/-- The value of an ASCII hexadecimal digit. -/
def hexValue? (c : Char) : Option Nat :=
  if c.toNat < 0x80 then Text.digitIn? 16 c else none

/-- The number of four hexadecimal digits. -/
def hex4? (a b c d : Char) : Option Nat := do
  return (((← hexValue? a) * 16 + (← hexValue? b)) * 16 + (← hexValue? c)) * 16 + (← hexValue? d)

/-- The character of a code unit; half a pair stands for nothing. -/
def unitChar (n : Nat) : Char :=
  if 0xD800 ≤ n && n ≤ 0xDFFF then Char.ofNat 0xFFFD else Char.ofNat n

/-- The character of an escape that is one letter. -/
def shortEscape? (c : Char) : Option Char :=
  match c with
  | '"' => some '"'
  | '\\' => some '\\'
  | '/' => some '/'
  | 'b' => some (Char.ofNat 8)
  | 'f' => some (Char.ofNat 12)
  | 'n' => some '\n'
  | 'r' => some '\r'
  | 't' => some '\t'
  | _ => none

/-- Is `n` the first half of a pair? -/
def isHighUnit (n : Nat) : Bool := 0xD800 ≤ n && n ≤ 0xDBFF

/-- Is `n` the second half of a pair? -/
def isLowUnit (n : Nat) : Bool := 0xDC00 ≤ n && n ≤ 0xDFFF

/-- The characters of a string up to its closing quote, and the text after it.
`start` is the text from the opening quote on. -/
def scanString (start : List Char) : List Char → Except Fault (List Char × List Char)
  | [] => .error ⟨.unterminated, start⟩
  | '"' :: cs => .ok ([], cs)
  | ['\\'] => .error ⟨.unterminated, start⟩
  | '\\' :: 'u' :: a :: b :: c :: d :: '\\' :: 'u' :: e :: f :: g :: h :: x :: cs =>
    match hex4? a b c d with
    | none => .error ⟨.unicodeEscape, 'u' :: a :: b :: c :: d :: '\\' :: 'u' :: e :: f :: g ::
        h :: x :: cs⟩
    | some n =>
      if isHighUnit n then
        match hex4? e f g h with
        | none => .error ⟨.unicodeEscape, 'u' :: e :: f :: g :: h :: x :: cs⟩
        | some m =>
          if isLowUnit m then
            let c := Char.ofNat (0x10000 + (n - 0xD800) * 0x400 + (m - 0xDC00))
            (fun (r, rest) => (c :: r, rest)) <$> scanString start (x :: cs)
          else
            (fun (r, rest) => (unitChar n :: r, rest)) <$>
              scanString start ('\\' :: 'u' :: e :: f :: g :: h :: x :: cs)
      else
        (fun (r, rest) => (unitChar n :: r, rest)) <$>
          scanString start ('\\' :: 'u' :: e :: f :: g :: h :: x :: cs)
  | '\\' :: 'u' :: a :: b :: c :: d :: x :: cs =>
    match hex4? a b c d with
    | none => .error ⟨.unicodeEscape, 'u' :: a :: b :: c :: d :: x :: cs⟩
    | some n => (fun (r, rest) => (unitChar n :: r, rest)) <$> scanString start (x :: cs)
  | '\\' :: 'u' :: cs => .error ⟨.unicodeEscape, 'u' :: cs⟩
  | '\\' :: c :: cs =>
    match shortEscape? c with
    | some e => (fun (r, rest) => (e :: r, rest)) <$> scanString start cs
    | none => .error ⟨.escape, '\\' :: c :: cs⟩
  | c :: cs =>
    if c.toNat < 0x20 then .error ⟨.control, c :: cs⟩
    else (fun (r, rest) => (c :: r, rest)) <$> scanString start cs

/-! ### Numbers -/

/-- Is `c` an ASCII digit? -/
def isDigit (c : Char) : Bool := '0' ≤ c && c ≤ '9'

/-- The text after a fraction, if there is one. -/
def skipFraction : List Char → List Char
  | '.' :: d :: cs => if isDigit d then cs.dropWhile isDigit else '.' :: d :: cs
  | cs => cs

/-- The text after an exponent, if there is one. -/
def skipExponent (cs : List Char) : List Char :=
  let digits (ds : List Char) : List Char :=
    if ds.head?.any isDigit then ds.dropWhile isDigit else cs
  match cs with
  | 'e' :: '-' :: ds | 'e' :: '+' :: ds | 'E' :: '-' :: ds | 'E' :: '+' :: ds => digits ds
  | 'e' :: ds | 'E' :: ds => digits ds
  | _ => cs

/-- The text after a number that starts here. -/
def scanNumber (start : List Char) : Except Fault (List Char) :=
  let unsigned := if start.head? == some '-' then start.drop 1 else start
  match unsigned with
  | d :: cs =>
    if isDigit d then
      let afterInt := if d == '0' then cs else cs.dropWhile isDigit
      let rest := skipExponent (skipFraction afterInt)
      if rest.length = afterInt.length && Text.maxDecimalDigits < unsigned.length - rest.length then
        .error ⟨.longInteger, start⟩
      else .ok rest
    else .error ⟨.value, start⟩
  | [] => .error ⟨.value, start⟩

/-! ### Values -/

/-- The text after a word that starts here. -/
def afterWord? (word : String) (cs : List Char) : Option (List Char) :=
  if word.toList.isPrefixOf cs then some (cs.drop word.length) else none

/-- The words that stand for a value. -/
def words : List (String × Json) :=
  [("null", .null), ("true", .bool true), ("false", .bool false), ("NaN", .number),
    ("Infinity", .number), ("-Infinity", .number)]

/-- The value that a word writes here, and the text after it. -/
def scanWord? (cs : List Char) : Option (Json × List Char) :=
  words.findSome? (fun w => (afterWord? w.1 cs).map (w.2, ·))

mutual

/-- A value, and the text after it. -/
def scanValue : Nat → List Char → Except Fault (Json × List Char)
  | 0, cs => .error ⟨.value, cs⟩
  | fuel + 1, cs =>
    match cs with
    | [] => .error ⟨.value, cs⟩
    | '"' :: rest => (fun (s, rest) => (.string (String.ofList s), rest)) <$> scanString cs rest
    | '[' :: rest =>
      let rest := skipSpace rest
      match rest with
      | ']' :: rest => .ok (.array [], rest)
      | _ => (fun (xs, rest) => (.array xs, rest)) <$> scanItems fuel rest
    | '\x7b' :: rest =>
      let rest := skipSpace rest
      match rest with
      | '\x7d' :: rest => .ok (.object [], rest)
      | _ => (fun (ms, rest) => (.object ms, rest)) <$> scanMembers fuel rest
    | _ =>
      match scanWord? cs with
      | some found => .ok found
      | none => (fun rest => (.number, rest)) <$> scanNumber cs

/-- The items of an array up to its end, from the first character of one on. -/
def scanItems : Nat → List Char → Except Fault (List Json × List Char)
  | 0, cs => .error ⟨.value, cs⟩
  | fuel + 1, cs => do
    let (x, rest) ← scanValue fuel cs
    let rest := skipSpace rest
    match rest with
    | ']' :: rest => return ([x], rest)
    | ',' :: rest =>
      let (xs, rest) ← scanItems fuel (skipSpace rest)
      return (x :: xs, rest)
    | _ => throw ⟨.comma, rest⟩

/-- The members of an object up to its end, from the first character of one on. -/
def scanMembers : Nat → List Char → Except Fault (List (String × Json) × List Char)
  | 0, cs => .error ⟨.name, cs⟩
  | fuel + 1, cs => do
    match cs with
    | '"' :: rest =>
      let (name, rest) ← scanString cs rest
      let rest := skipSpace rest
      match rest with
      | ':' :: rest =>
        let (x, rest) ← scanValue fuel (skipSpace rest)
        let rest := skipSpace rest
        let found := (String.ofList name, x)
        match rest with
        | '\x7d' :: rest => return ([found], rest)
        | ',' :: rest =>
          let (ms, rest) ← scanMembers fuel (skipSpace rest)
          return (found :: ms, rest)
        | _ => throw ⟨.comma, rest⟩
      | _ => throw ⟨.colon, rest⟩
    | _ => throw ⟨.name, cs⟩

end

/-- The value of a document. Every nested value takes at least one character, so
twice the length is fuel enough. -/
def read (document : List Char) : Except Fault Json := do
  if document.head? == some (Char.ofNat 0xFEFF) then throw ⟨.byteOrderMark, document⟩
  let (x, rest) ← scanValue (2 * document.length + 2) (skipSpace document)
  let rest := skipSpace rest
  if rest.isEmpty then return x else throw ⟨.extra, rest⟩

end GoLift.Json
