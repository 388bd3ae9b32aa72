import GoLift.Text.Runs

/-!
# Blank characters

White space as the Unicode standard counts it, together with the separators of
the ASCII control range (`U+001C` to `U+001F`). The byte order mark `U+FEFF` is
not blank.
-/

set_option autoImplicit false

namespace GoLift.Text

/-- The runs of blank characters. -/
def blankRuns : Runs where
  edges := [0x9, 0xE, 0x1C, 0x21, 0x85, 0x86, 0xA0, 0xA1, 0x1680, 0x1681, 0x2000, 0x200B,
    0x2028, 0x202A, 0x202F, 0x2030, 0x205F, 0x2060, 0x3000, 0x3001]

/-- Is `c` white space? -/
def isBlank (c : Char) : Bool :=
  blankRuns.contains c

/-- `cs` without the blanks at its end. -/
def trimEnd (cs : List Char) : List Char :=
  (cs.reverse.dropWhile isBlank).reverse

end GoLift.Text
