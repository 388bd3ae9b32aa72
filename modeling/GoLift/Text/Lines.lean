/-!
# Lines of a text

Two readings of line ends. `splitLines` cuts a text at every line boundary the
Unicode standard names (line feed, carriage return, the pair of both, vertical
tab, form feed, the three ASCII separators, next line, line and paragraph
separator). `unifyNewlines` only turns carriage returns into line feeds, as a
text file is read.
-/

set_option autoImplicit false

namespace GoLift.Text

/-- Does `c` end a line? -/
def isLineEnd (c : Char) : Bool :=
  let n := c.toNat
  (0xA ≤ n && n ≤ 0xD) || (0x1C ≤ n && n ≤ 0x1E) || n == 0x85 || n == 0x2028 || n == 0x2029

/-- The lines of a text, without their ends. A text that ends in a line end has
no empty last line. -/
def splitLines : List Char → List (List Char)
  | [] => []
  | '\r' :: '\n' :: cs => [] :: splitLines cs
  | c :: cs =>
    if isLineEnd c then [] :: splitLines cs
    else
      match splitLines cs with
      | [] => [[c]]
      | line :: lines => (c :: line) :: lines

/-- Every carriage return, alone or before a line feed, becomes a line feed. -/
def unifyNewlines : List Char → List Char
  | [] => []
  | '\r' :: '\n' :: cs => '\n' :: unifyNewlines cs
  | '\r' :: cs => '\n' :: unifyNewlines cs
  | c :: cs => c :: unifyNewlines cs

/-- `cs` after its last character `c`; all of it if there is none. -/
def afterLast (c : Char) (cs : List Char) : List Char :=
  (cs.reverse.takeWhile (· != c)).reverse

end GoLift.Text
