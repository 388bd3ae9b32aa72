import GoLift.Text.WordChar

/-!
# Patterns over characters

A pattern is a list of pieces matched from left to right. **No piece ever gives
back what it took**: a repetition takes as many characters as there are, an
optional part is taken whenever it matches, and the first of two alternatives
that matches is kept. Patterns are written so that neighbouring repetitions
range over disjoint classes, and then no other division of the text could match
either.

`matchLength` tells how much of a text a pattern takes, and `erase` removes
every match of a pattern from a text, leftmost first.
-/

set_option autoImplicit false

namespace GoLift.Text

/-- A piece of a pattern. -/
inductive Piece
  /-- Exactly these characters. -/
  | text (s : String)
  /-- One character of a class. -/
  | one (p : Char → Bool)
  /-- All characters of a class that follow, possibly none. -/
  | many (p : Char → Bool)
  /-- All characters of a class that follow, at least one. -/
  | many1 (p : Char → Bool)
  /-- The pieces, if they match. -/
  | optional (ps : List Piece)
  /-- The first list of pieces, or else the second. -/
  | either (ps qs : List Piece)
  /-- A place with a word character on exactly one side. -/
  | boundary
  /-- A place that no character of the class precedes. -/
  | notAfter (p : Char → Bool)
  /-- A place that no character of the class follows. -/
  | notBefore (p : Char → Bool)

/-- A place in a text: the character before it, and the text from there on. -/
structure Place where
  before : Option Char
  rest : List Char

/-- Does a class hold the character, if there is one? -/
def heldBy (p : Char → Bool) (c : Option Char) : Bool :=
  c.any p

/-- The place after the first character. -/
def Place.next : Place → Place
  | ⟨_, c :: cs⟩ => ⟨some c, cs⟩
  | ⟨b, []⟩ => ⟨b, []⟩

/-- The place after exactly the characters `s`. -/
def Place.afterText : List Char → Place → Option Place
  | [], here => some here
  | s :: ss, ⟨_, c :: cs⟩ => if s == c then Place.afterText ss ⟨some c, cs⟩ else none
  | _ :: _, ⟨_, []⟩ => none

/-- The place after all characters of a class. -/
def Place.afterClass (p : Char → Bool) (before : Option Char) : List Char → Place
  | [] => ⟨before, []⟩
  | c :: cs => if p c then Place.afterClass p (some c) cs else ⟨before, c :: cs⟩

mutual

/-- The place after one piece, if it matches here. -/
def Piece.step : Piece → Place → Option Place
  | .text s, here => here.afterText s.toList
  | .one p, here => if heldBy p here.rest.head? then some here.next else none
  | .many p, here => some (Place.afterClass p here.before here.rest)
  | .many1 p, here =>
    if heldBy p here.rest.head? then some (Place.afterClass p here.before here.rest) else none
  | .optional ps, here => some ((Piece.run ps here).getD here)
  | .either ps qs, here => (Piece.run ps here).or (Piece.run qs here)
  | .boundary, here =>
    if heldBy isWord here.before != heldBy isWord here.rest.head? then some here else none
  | .notAfter p, here => if heldBy p here.before then none else some here
  | .notBefore p, here => if heldBy p here.rest.head? then none else some here

/-- The place after a whole pattern, if it matches here. -/
def Piece.run : List Piece → Place → Option Place
  | [], here => some here
  | p :: ps, here =>
    match p.step here with
    | some there => Piece.run ps there
    | none => none

end

/-- How many characters of `cs`, which follow `before`, the pattern takes. -/
def matchLength (ps : List Piece) (before : Option Char) (cs : List Char) : Option Nat :=
  (Piece.run ps ⟨before, cs⟩).map (fun p => cs.length - p.rest.length)

/-- Remove every match of a pattern: `skip` characters are left of the match we
are inside. -/
def eraseFrom (ps : List Piece) : Nat → Option Char → List Char → List Char
  | _, _, [] => []
  | skip + 1, _, c :: cs => eraseFrom ps skip (some c) cs
  | 0, before, c :: cs =>
    match matchLength ps before (c :: cs) with
    | some (n + 1) => eraseFrom ps n (some c) cs
    | _ => c :: eraseFrom ps 0 (some c) cs

/-- The text without the matches of a pattern. -/
def erase (ps : List Piece) (cs : List Char) : List Char :=
  eraseFrom ps 0 none cs

/-- Does a pattern match anywhere in the text? -/
def occurs (ps : List Piece) (before : Option Char) : List Char → Bool
  | [] => (Piece.run ps ⟨before, []⟩).isSome
  | c :: cs => (Piece.run ps ⟨before, c :: cs⟩).isSome || occurs ps (some c) cs

end GoLift.Text
