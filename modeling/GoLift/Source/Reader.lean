import GoLift.Source.Build
import GoLift.Source.Normal
import GoLift.Source.Parser

/-!
# Reading a module

Text is brought to normal form, cut into tokens, parsed, and built into a
module. **A text that is no module is reported at one place**: the first token
that cannot go on, or the first character that starts no token, whichever comes
first. If the text is only the beginning of a module, the place is that of its
last token.
-/

set_option autoImplicit false

namespace GoLift.Source

open Text

/-- How many characters around a place are shown. -/
def contextSpan : Nat := 40

/-- The part of the text's line around an offset, with a mark under it. -/
def context (text : List Char) (offset : Nat) : String :=
  let before := afterLast '\n' ((text.take offset).drop (offset - contextSpan))
  let after := ((text.drop offset).take contextSpan).takeWhile (· != '\n')
  String.ofList (before ++ after ++ '\n' :: List.replicate before.length ' ' ++ ['^'])

/-- The place of the fault, if a parse of these tokens stops with `rest` left. -/
def faultPosition (lexed : Lexed) (rest : List Token) : Position :=
  match rest, lexed.stop with
  | t :: _, _ => t.position
  | [], some p => p
  | [], none => (lexed.tokens.getLast?.map Token.position).getD {}

/-- The trees of a text in normal form, or the place where it goes wrong. -/
def parseText (text : List Char) : Except Position (List ItemTree) :=
  let lexed := lex text
  match parseItems lexed.tokens, lexed.stop with
  | .ok trees, none => .ok trees
  | .ok _, some p => .error p
  | .error rest, _ => .error (faultPosition lexed rest)

/-- Read a module. -/
def readModule (name : String) (text : List Char) : Except Fault Module :=
  let normal := normalText text
  match parseText normal with
  | .ok trees => Build.module name trees
  | .error p =>
    .error (Cause.unparsable name p.line p.column (context normal p.offset)).fault

end GoLift.Source
