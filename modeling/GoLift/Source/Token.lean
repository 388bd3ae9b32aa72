import GoLift.Text.Digit
import GoLift.Text.Pattern

/-!
# Tokens

The tokens of normal source text. **The first rule of a fixed list that matches
wins**, whatever a later rule would make of the text and whatever would fit at
this place of a module. Words with a fixed spelling need no end of word after
them (`retvoid` is two tokens), while the families of words (operations, casts,
predicates) do.

Blanks and comments make no token. Where no rule matches, the list of tokens
ends, and `Lexed.stop` tells where.
-/

set_option autoImplicit false

namespace GoLift.Source

open Text

/-- Words and signs with one spelling. -/
inductive Word
  | zeroinitializer | getelementptr | unreachable | external | declare | alloca | define
  | double | poison | select | switch | false | label | store | undef | float
  | call | fcmp | icmp | load | null | true | type | void | phi | ptr | ret
  | dots | br | to
  | comma | equals | openBrace | openParen | openBracket
  | closeBrace | closeParen | closeBracket | star | x
deriving DecidableEq, Repr

/-- The spelling of a word. -/
def Word.text : Word → String
  | .zeroinitializer => "zeroinitializer"
  | .getelementptr => "getelementptr"
  | .unreachable => "unreachable"
  | .external => "external"
  | .declare => "declare"
  | .alloca => "alloca"
  | .define => "define"
  | .double => "double"
  | .poison => "poison"
  | .select => "select"
  | .switch => "switch"
  | .false => "false"
  | .label => "label"
  | .store => "store"
  | .undef => "undef"
  | .float => "float"
  | .call => "call"
  | .fcmp => "fcmp"
  | .icmp => "icmp"
  | .load => "load"
  | .null => "null"
  | .true => "true"
  | .type => "type"
  | .void => "void"
  | .phi => "phi"
  | .ptr => "ptr"
  | .ret => "ret"
  | .dots => "..."
  | .br => "br"
  | .to => "to"
  | .comma => ","
  | .equals => "="
  | .openBrace => "\x7b"
  | .openParen => "("
  | .openBracket => "["
  | .closeBrace => "\x7d"
  | .closeParen => ")"
  | .closeBracket => "]"
  | .star => "*"
  | .x => "x"

/-- What a token is. -/
inductive Terminal
  /-- A bit pattern, `0x...`. -/
  | hexFloat
  /-- A number with a point. -/
  | decimal
  /-- `@name`. -/
  | globalName
  /-- `name:`. -/
  | labelDef
  /-- `%name`. -/
  | localName
  /-- `i32`. -/
  | intType
  /-- `c"..."`. -/
  | cstring
  | int
  | castOp
  /-- `global` or `constant`. -/
  | globalKind
  /-- The body of a struct that is not given. -/
  | opaqueWord
  | binOp
  /-- The predicate of a comparison. -/
  | pred
  | word (w : Word)
deriving DecidableEq, Repr

/-- A place in a text. -/
structure Position where
  offset : Nat := 0
  /-- Counted from one; only a line feed starts a line. -/
  line : Nat := 1
  /-- Counted from one. -/
  column : Nat := 1
deriving DecidableEq, Repr

/-- The place after a character. -/
def Position.after (p : Position) (c : Char) : Position :=
  if c == '\n' then { offset := p.offset + 1, line := p.line + 1, column := 1 }
  else { offset := p.offset + 1, line := p.line, column := p.column + 1 }

/-- A token and where it starts. -/
structure Token where
  terminal : Terminal
  text : List Char
  position : Position
deriving Repr

/-! ### Rules -/

/-- An ASCII character of an unquoted name. -/
def isNameChar (c : Char) : Bool :=
  c.isAlphanum || c == '-' || c == '$' || c == '.' || c == '_'

/-- An ASCII hexadecimal digit. -/
def isHexDigit (c : Char) : Bool :=
  c.isDigit || ('a' ≤ c && c ≤ 'f') || ('A' ≤ c && c ≤ 'F')

/-- Text between double quotes. -/
def quotedPieces : List Piece := [.text "\"", .many (· != '"'), .text "\""]

/-- A name, quoted or not. -/
def namePieces : List Piece := [.either quotedPieces [.many1 isNameChar]]

/-- No word goes on here. -/
def endOfWord : Piece := .notBefore (fun c => isWord c || c == '.')

/-- A sign of a number. -/
def isSign (c : Char) : Bool := c == '-' || c == '+'

/-- One of a family of words. -/
def family (words : List String) : List Piece :=
  words.foldr (fun w rest => [.either [.text w, endOfWord] rest]) [.one (fun _ => false)]

/-- The two-operand operations. -/
def binOps : List String :=
  ["add", "sub", "mul", "sdiv", "udiv", "srem", "urem", "shl", "lshr", "ashr", "and", "or", "xor",
    "fadd", "fsub", "fmul", "fdiv", "frem"]

/-- The casts. -/
def castOps : List String :=
  ["trunc", "zext", "sext", "fptrunc", "fpext", "fptoui", "fptosi", "uitofp", "sitofp", "ptrtoint",
    "inttoptr", "bitcast"]

/-- The predicates of comparisons. -/
def preds : List String :=
  ["eq", "ne", "ugt", "uge", "ult", "ule", "sgt", "sge", "slt", "sle", "oeq", "ogt", "oge", "olt",
    "ole", "one", "ord", "ueq", "une", "uno"]

/-- The rule of a word with one spelling. -/
def wordRule (w : Word) : Option Terminal × List Piece := (some (.word w), [.text w.text])

/-- The rules, in the order in which they are tried. A rule without a terminal
is for text that makes no token. -/
def rules : List (Option Terminal × List Piece) :=
  [(some .hexFloat, [.text "0x", .many1 isHexDigit]),
    (some .decimal, [.optional [.one isSign], .many1 isDecimal, .text ".", .many isDecimal,
      .optional [.one (fun c => c == 'e' || c == 'E'), .optional [.one isSign],
        .many1 isDecimal]]),
    (some .globalName, .text "@" :: namePieces),
    (some .labelDef, namePieces ++ [.text ":"]),
    (some .localName, .text "%" :: namePieces),
    (some .intType, [.text "i", .many1 isDecimal, endOfWord]),
    (none, [.many1 (fun c => c == ' ' || c == '\t' || c == '\x0c' || c == '\r' || c == '\n')]),
    (some .cstring, .text "c" :: quotedPieces),
    (none, [.text ";", .many (· != '\n')]),
    (some .int, [.optional [.text "-"], .many1 isDecimal])] ++
  [Word.zeroinitializer, .getelementptr, .unreachable].map wordRule ++
  [(some .castOp, family castOps), (some .globalKind, family ["global", "constant"])] ++
  [Word.external, .declare].map wordRule ++
  [(some .opaqueWord, family ["opaque"])] ++
  [Word.alloca, .define, .double, .poison, .select, .switch, .false, .label, .store, .undef,
    .float].map wordRule ++
  [(some .binOp, family binOps)] ++
  [Word.call, .fcmp, .icmp, .load, .null, .true, .type, .void].map wordRule ++
  [(some .pred, family preds)] ++
  [Word.phi, .ptr, .ret, .dots, .br, .to, .comma, .equals, .openBrace, .openParen, .openBracket,
    .closeBrace, .closeParen, .closeBracket, .star, .x].map wordRule

/-- The first rule that matches at the beginning of a text, and how many
characters it takes. -/
def firstRule? (cs : List Char) : Option (Option Terminal × Nat) :=
  rules.findSome? (fun (t, ps) => (matchLength ps none cs).map (t, ·))

/-! ### Lexing -/

/-- The tokens of a text, and the place where no rule matched, if there is one. -/
structure Lexed where
  tokens : List Token
  stop : Option Position

/-- The tokens of a text that starts at a position; `skip` characters of it
belong to the last token. -/
def lexFrom (skip : Nat) (p : Position) : List Char → Lexed
  | [] => { tokens := [], stop := none }
  | c :: cs =>
    match skip with
    | skip + 1 => lexFrom skip (p.after c) cs
    | 0 =>
      match firstRule? (c :: cs) with
      | none => { tokens := [], stop := some p }
      | some (terminal?, n) =>
        let rest := lexFrom (n - 1) (p.after c) cs
        match terminal? with
        | none => rest
        | some terminal =>
          { rest with
            tokens := { terminal, text := (c :: cs).take n, position := p } :: rest.tokens }

/-- The tokens of a text. -/
def lex (text : List Char) : Lexed :=
  lexFrom 0 {} text

/-! ### What tokens say -/

/-- The name in a token, without its sign and quotes. -/
def Token.name (t : Token) : String :=
  let bare :=
    match t.terminal with
    | .labelDef => t.text.dropLast
    | _ => t.text.drop 1
  match bare with
  | '"' :: cs => String.ofList cs.dropLast
  | cs => String.ofList cs

end GoLift.Source
