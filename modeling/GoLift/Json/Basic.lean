import GoLift.Text.Quoted

/-!
# JSON documents

The values of a JSON document, and how a string is written in one. A number
carries nothing: no part of this program looks at the number a document holds.
-/

set_option autoImplicit false

namespace GoLift

/-- A JSON value. -/
inductive Json
  | null
  | bool (b : Bool)
  | number
  | string (s : String)
  | array (items : List Json)
  /-- The members of an object, as they stand in the document. -/
  | object (members : List (String × Json))
deriving Inhabited

namespace Json

/-- The member of an object; of several with one name the last counts. -/
def member? (members : List (String × Json)) (name : String) : Option Json :=
  members.reverse.lookup name

/-! ### Writing -/

/-- A code unit of a character outside ASCII. -/
def unitText (n : Nat) : String :=
  "\\u" ++ Text.hexPadded 4 n

/-- One character of a written string, in ASCII. -/
def charText (c : Char) : String :=
  let n := c.toNat
  if c == '"' then "\\\""
  else if c == '\\' then "\\\\"
  else if c == '\n' then "\\n"
  else if c == '\r' then "\\r"
  else if c == '\t' then "\\t"
  else if n == 0x8 then "\\b"
  else if n == 0xC then "\\f"
  else if 0x20 ≤ n && n ≤ 0x7E then String.singleton c
  else if n < 0x10000 then unitText n
  else unitText (0xD800 + (n - 0x10000) / 0x400) ++ unitText (0xDC00 + (n - 0x10000) % 0x400)

/-- A string as it is written in a document. -/
def stringText (s : String) : String :=
  "\"" ++ String.join (s.toList.map charText) ++ "\""

/-- Items between brackets. -/
def listText (items : List String) : String :=
  "[" ++ ", ".intercalate items ++ "]"

/-- Named items between braces. -/
def objectText (members : List (String × String)) : String :=
  "\x7b" ++ ", ".intercalate (members.map (fun m => stringText m.1 ++ ": " ++ m.2)) ++ "\x7d"

/-- A string, or `null` if there is none. -/
def optionText : Option String → String
  | some s => stringText s
  | none => "null"

end Json

end GoLift
