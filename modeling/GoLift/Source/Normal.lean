import GoLift.Text.Blank
import GoLift.Text.Digit
import GoLift.Text.Lines
import GoLift.Text.Pattern

/-!
# Normal form of source text

The source is full of things this program never looks at: metadata, attribute
groups, alignment, linkage, visibility, flags and parameter attributes.
`normalLine` removes them from a line by a fixed list of patterns, one after the
other, then removes single words, then closes up the blanks. `normalText` does
this line by line and empties the lines that hold nothing else. **The number of
lines never changes**, so a place in the normal text is on the line it came
from.
-/

set_option autoImplicit false

namespace GoLift.Source

open Text

/-! ### Patterns -/

/-- A character of an attachment's or group's name. -/
def isDottedWord (c : Char) : Bool := isWord c || c == '.'

/-- A character that may stand in a name, or in front of one. A word right after
it is part of something else. -/
def isNameLead (c : Char) : Bool :=
  isWord c || c == '%' || c == '@' || c == '.' || c == '"' || c == '$' || c == '-'

/-- A character of a global's name. -/
def isGlobalChar (c : Char) : Bool :=
  isWord c || c == '-' || c == '.' || c == '$'

/-- A character other than the one given. -/
def isNot (d : Char) (c : Char) : Bool := c != d

/-- One of several words, the first that fits. -/
def oneOf (words : List (List Piece)) : List Piece :=
  words.foldr (fun w rest => [.either w rest]) [.one (fun _ => false)]

/-- Blanks, if any. -/
def blanks : Piece := .many isBlank

/-- At least one blank. -/
def blanks1 : Piece := .many1 isBlank

/-- A decimal numeral. -/
def digits1 : Piece := .many1 isDecimal

/-- `!7`. -/
def metadataNumber : List Piece := [.text "!", digits1]

/-- `!\x7b...\x7d`. -/
def metadataNode : List Piece := [.text "!\x7b", .many (isNot '\x7d'), .text "\x7d"]

/-- `!dbg !7` up to the blanks between. -/
def metadataKind : List Piece := [.text "!", .many1 isDottedWord, blanks1]

/-- Attributes that take an argument in parentheses. -/
def argumentWords : List String :=
  ["sret", "byval", "byref", "inalloca", "preallocated", "elementtype", "dereferenceable",
    "dereferenceable_or_null", "nofpclass", "range", "align", "addrspace", "allocsize", "memory"]

/-- The patterns that are removed from a line, in this order. -/
def strips : List (List Piece) :=
  [[.text ",", blanks] ++ metadataKind ++ [.either metadataNumber metadataNode],
    metadataKind ++ metadataNumber,
    [.text "#", digits1],
    [.text ",", blanks, .text "align", blanks1, digits1],
    [.boundary, .text "section", blanks1, .text "\"", .many (isNot '"'), .text "\""],
    [.optional [.text ","], blanks, .boundary, .text "comdat",
      .optional [.text "($", .many (isNot ')'), .text ")"]],
    [.boundary, .text "personality", blanks1, .text "ptr", blanks1, .text "@",
      .many1 isGlobalChar],
    .notAfter isNameLead :: oneOf (argumentWords.map (fun w => [.text w, .text "("])) ++
      [.many (isNot ')'), .text ")"],
    [.notAfter isNameLead, .text "align", blanks1, digits1]]

/-- Words that are removed wherever they stand alone. -/
def attributeWords : List String :=
  ["nsw", "nuw", "exact", "inbounds", "nusw", "disjoint", "nneg", "samesign",
    "noundef", "nonnull", "nocapture", "nofree", "noalias", "readonly", "readnone",
    "writeonly", "returned", "signext", "zeroext", "inreg", "nest", "immarg",
    "dso_local", "dso_preemptable", "local_unnamed_addr", "unnamed_addr",
    "private", "internal", "linkonce_odr", "linkonce", "weak_odr", "weak",
    "common", "appending", "extern_weak", "available_externally",
    "hidden", "protected", "thread_local",
    "tail", "musttail", "notail", "fastcc", "ccc", "coldcc",
    "volatile", "fast", "nnan", "ninf", "nsz", "arcp", "contract", "afn", "reassoc"]

/-- A whole word that is removed. -/
def attributeWord : List Piece :=
  .notAfter isNameLead ::
    oneOf (attributeWords.map (fun w => [.text w, .notBefore isDottedWord]))

/-! ### Lines -/

/-- Every run of spaces and tabs as one space. `inRun` tells whether one has just
been written. -/
def closeBlanks (inRun : Bool) : List Char → List Char
  | [] => []
  | c :: cs =>
    if c == ' ' || c == '\t' then
      if inRun then closeBlanks true cs else ' ' :: closeBlanks true cs
    else c :: closeBlanks false cs

/-- The normal form of a line. -/
def normalLine (line : List Char) : List Char :=
  let stripped := strips.foldl (fun cs p => erase p cs) line
  trimEnd (closeBlanks false (erase attributeWord stripped))

/-- What a line starts with that says nothing about the program. -/
def dropHeads : List (List Piece) :=
  [[.text "source_filename", .boundary],
    [.text "target", blanks1, .either [.text "datalayout"] [.text "triple"], .boundary],
    [.text "attributes", blanks1, .text "#"],
    [.text "!"],
    [.text "$"],
    [.text "uselistorder"]]

/-- Does a line say nothing about the program? Calls that only serve debuggers
count as such. -/
def isDropped (line : List Char) : Bool :=
  (Piece.run (blanks :: oneOf dropHeads) ⟨none, line⟩).isSome ||
    occurs [.text "@llvm.dbg."] none line

/-- The normal form of a line of a module. -/
def normalOrEmpty (line : List Char) : List Char :=
  if isDropped line then [] else normalLine line

/-- The normal form of a text: as many lines, each with a line feed. -/
def normalText (text : List Char) : List Char :=
  match (splitLines text).map normalOrEmpty with
  | [] => ['\n']
  | lines => lines.flatMap (· ++ ['\n'])

end GoLift.Source
