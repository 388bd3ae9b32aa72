import GoLift.Source.Tree

/-!
# The grammar of modules

What a module is, said without a parser: the rules with their alternatives and the tree that each
of them builds (`Rule.alternatives`), and the derivations of a rule, which yield tokens and have a
tree. The rule of types is left recursive.

`Rhs.first` lists the tokens that something derived can start with. It is found from a table
(`Rule.first`), which a check of all alternatives shows to be large enough, so no derivation has to
be searched for its first token (`Derivation.starts`).
-/

set_option autoImplicit false

namespace GoLift.Source

/-! ### Rules -/

/-- What there is a rule for. -/
inductive Rule
  | module | item | typeDef | globalDef | externGlobal | declare | define
  | params | param | firstBlock | block
  | type | typeList
  | value | typedValue
  | instruction | op | call | incoming
  | terminator | switchCase
deriving DecidableEq

/-- The right side of a rule. -/
inductive Rhs
  | token (k : Terminal)
  | rule (r : Rule)
  | seq (a b : Rhs)
  | alt (a b : Rhs)
  | opt (a : Rhs)
  | star (a : Rhs)

/-- The trees of a rule. -/
def Rule.Tree : Rule → Type
  | .module => List ItemTree
  | .item | .typeDef | .globalDef | .externGlobal | .declare | .define => ItemTree
  | .params => ParamsTree
  | .param => TypeTree × Option String
  | .firstBlock => Option String × BlockTree
  | .block => String × BlockTree
  | .type => TypeTree
  | .typeList => List TypeTree × Bool
  | .value => ValueTree
  | .typedValue => TypedTree
  | .instruction => InstrTree
  | .op => OpTree
  | .call => CallTree
  | .incoming => ValueTree × String
  | .terminator => TerminatorTree
  | .switchCase => TypedTree × String

namespace Rhs

/-- What the parts of a right side come to. -/
def Tree : Rhs → Type
  | token _ => Token
  | rule r => r.Tree
  | seq a b => a.Tree × b.Tree
  | alt a b => a.Tree ⊕ b.Tree
  | opt a => Option a.Tree
  | star a => List a.Tree

/-- A word. -/
abbrev word (w : Word) : Rhs := token (.word w)

/-- One part after the other. -/
def row : Rhs → List Rhs → Rhs
  | a, [] => a
  | a, b :: bs => seq a (row b bs)

/-- Any number of parts, a comma before each. -/
def more (a : Rhs) : Rhs := star (seq (word .comma) a)

/-- Parts with commas between them. -/
def commas (a : Rhs) : Rhs := seq a (more a)

/-- Parts after a first one, and dots at the end. -/
def moreOrDots (a : Rhs) : Rhs := seq (more a) (opt (seq (word .comma) (word .dots)))

/-- A value with its type. -/
def typed : Rhs := seq (rule .type) (rule .value)

/-- The name of a block. -/
def label : Rhs := seq (word .label) (token .localName)

/-- Parameters in parentheses. -/
def parameters : Rhs := row (word .openParen) [opt (rule .params), word .closeParen]

/-- Instructions and what ends them. -/
def body : Rhs := seq (star (rule .instruction)) (rule .terminator)

end Rhs

/-- The items of a list with commas. -/
def listed {α β : Type} (items : α × List (β × α)) : List α :=
  items.1 :: items.2.map Prod.snd

/-- The items of a list with commas that may be missing. -/
def listed? {α β : Type} (items : Option (α × List (β × α))) : List α :=
  (items.map listed).getD []

/-- The tree of a type and a value. -/
def typedPair (t : TypeTree × ValueTree) : TypedTree := .mk t.1 t.2

/-- The tree of the name of a block. -/
def labelName (t : Token × Token) : String := t.2.name

/-- The tree of parameters in parentheses. -/
def parenthesized {α β : Type} (t : α × Option ParamsTree × β) : ParamsTree := t.2.1.getD {}

/-- The tree of instructions and what ends them. -/
def blockTree (t : List InstrTree × TerminatorTree) : BlockTree :=
  { instrs := t.1, terminator := t.2 }

/-- The spelling of a token. -/
def Token.spelling (t : Token) : String := String.ofList t.text

/-- A way to make something a rule is for, and the tree of it. -/
structure Alternative (r : Rule) where
  rhs : Rhs
  build : rhs.Tree → r.Tree

open Rhs in
/-- The alternatives of a rule. -/
def Rule.alternatives : (r : Rule) → List (Alternative r)
  | .module => [⟨star (rule .item), id⟩]
  | .item =>
    [⟨rule .typeDef, id⟩, ⟨rule .globalDef, id⟩, ⟨rule .externGlobal, id⟩, ⟨rule .declare, id⟩,
      ⟨rule .define, id⟩]
  | .typeDef =>
    [⟨row (token .localName)
        [word .equals, word .type, alt (rule .type) (token .opaqueWord)],
      fun (n, _, _, body) => .typeDef n.position.line n.name body.getLeft?⟩]
  | .globalDef =>
    [⟨row (token .globalName) [word .equals, token .globalKind, rule .type, rule .value],
      fun (n, _, k, t, v) => .globalDef n.name (k.spelling == "constant") t v⟩]
  | .externGlobal =>
    [⟨row (token .globalName) [word .equals, word .external, token .globalKind, rule .type],
      fun (n, _, _, k, t) => .externGlobal n.name (k.spelling == "constant") t⟩]
  | .declare =>
    [⟨row (word .declare) [rule .type, token .globalName, parameters],
      fun (_, t, n, ps) => .declare t n.name (parenthesized ps)⟩]
  | .define =>
    [⟨row (word .define)
        [rule .type, token .globalName, parameters, word .openBrace, rule .firstBlock,
          star (rule .block), word .closeBrace],
      fun (d, t, n, ps, _, first, rest, _) =>
        .define d.position.line t n.name (parenthesized ps) first.1 first.2 rest⟩]
  | .params =>
    [⟨seq (rule .param) (moreOrDots (rule .param)),
        fun (p, ps, dots) => { params := listed (p, ps), varArg := dots.isSome }⟩,
      ⟨word .dots, fun _ => { varArg := true }⟩]
  | .param =>
    [⟨seq (rule .type) (opt (token .localName)), fun (t, n) => (t, n.map Token.name)⟩]
  | .firstBlock =>
    [⟨seq (opt (token .labelDef)) body, fun (l, b) => (l.map Token.name, blockTree b)⟩]
  | .block => [⟨seq (token .labelDef) body, fun (l, b) => (l.name, blockTree b)⟩]
  | .type =>
    [⟨token .intType, fun t => .int (t.text.drop 1)⟩,
      ⟨word .void, fun _ => .void⟩,
      ⟨word .float, fun _ => .float⟩,
      ⟨word .double, fun _ => .double⟩,
      ⟨word .ptr, fun _ => .ptr⟩,
      ⟨seq (rule .type) (word .star), fun (t, _) => .pointer t⟩,
      ⟨row (word .openBracket) [token .int, word .x, rule .type, word .closeBracket],
        fun (_, n, _, t, _) => .array n.text t⟩,
      ⟨row (word .openBrace) [opt (commas (rule .type)), word .closeBrace],
        fun (_, ts, _) => .struct (listed? ts)⟩,
      ⟨token .localName, fun t => .named t.name⟩,
      ⟨row (rule .type) [word .openParen, opt (rule .typeList), word .closeParen],
        fun (t, _, ps, _) => .func t (ps.getD ([], false)).1 (ps.getD ([], false)).2⟩]
  | .typeList =>
    [⟨seq (rule .type) (moreOrDots (rule .type)),
        fun (t, ts, dots) => (listed (t, ts), dots.isSome)⟩,
      ⟨word .dots, fun _ => ([], true)⟩]
  | .value =>
    [⟨token .localName, fun t => .localName t.name⟩,
      ⟨token .globalName, fun t => .globalName t.name⟩,
      ⟨token .int, fun t => .int t.position.line t.text⟩,
      ⟨token .decimal, fun t => .decimal t.position.line t.text⟩,
      ⟨token .hexFloat, fun t => .hexFloat t.position.line (t.text.drop 2)⟩,
      ⟨word .true, fun t => .true t.position.line⟩,
      ⟨word .false, fun t => .false t.position.line⟩,
      ⟨word .null, fun t => .null t.position.line⟩,
      ⟨word .undef, fun t => .undef t.position.line⟩,
      ⟨word .poison, fun t => .undef t.position.line⟩,
      ⟨word .zeroinitializer, fun t => .zero t.position.line⟩,
      ⟨token .cstring, fun t => .cstring t.position.line (t.text.drop 2).dropLast⟩,
      ⟨row (word .openBrace) [opt (commas (rule .typedValue)), word .closeBrace],
        fun (t, vs, _) => .struct t.position.line (listed? vs)⟩,
      ⟨row (word .openBracket) [opt (commas (rule .typedValue)), word .closeBracket],
        fun (t, vs, _) => .array t.position.line (listed? vs)⟩]
  | .typedValue => [⟨typed, typedPair⟩]
  | .instruction =>
    [⟨row (token .localName) [word .equals, rule .op], fun (n, _, o) => .assign n.name o⟩,
      ⟨row (word .store) [typed, word .comma, typed],
        fun (_, v, _, p) => .store (typedPair v) (typedPair p)⟩,
      ⟨rule .call, fun c => .call c⟩]
  | .op =>
    [⟨row (token .binOp) [rule .type, rule .value, word .comma, rule .value],
        fun (o, t, l, _, r) => .binary o.spelling t l r⟩,
      ⟨row (word .icmp) [token .pred, rule .type, rule .value, word .comma, rule .value],
        fun (_, p, t, l, _, r) => .icmp p.spelling t l r⟩,
      ⟨row (word .fcmp) [token .pred, rule .type, rule .value, word .comma, rule .value],
        fun (_, p, t, l, _, r) => .fcmp p.spelling t l r⟩,
      ⟨row (word .alloca) [rule .type, opt (seq (word .comma) typed)],
        fun (_, t, n) => .alloca t (n.map fun n => typedPair n.2)⟩,
      ⟨row (word .load) [rule .type, word .comma, typed],
        fun (_, t, _, p) => .load t (typedPair p)⟩,
      ⟨row (token .castOp) [typed, word .to, rule .type],
        fun (o, v, _, t) => .cast o.spelling (typedPair v) t⟩,
      ⟨row (word .select) [typed, word .comma, typed, word .comma, typed],
        fun (_, c, _, t, _, f) => .select (typedPair c) (typedPair t) (typedPair f)⟩,
      ⟨row (word .getelementptr)
          [rule .type, word .comma, typed, more (rule .typedValue)],
        fun (_, t, _, p, is) => .gep t (typedPair p) (is.map Prod.snd)⟩,
      ⟨row (word .phi) [rule .type, commas (rule .incoming)],
        fun (_, t, is) => .phi t (listed is)⟩,
      ⟨rule .call, fun c => .call c⟩]
  | .call =>
    [⟨row (word .call)
        [rule .type, rule .value, word .openParen, opt (commas (rule .typedValue)),
          word .closeParen],
      fun (_, t, f, _, vs, _) => { type := t, callee := f, args := listed? vs }⟩]
  | .incoming =>
    [⟨row (word .openBracket) [rule .value, word .comma, token .localName, word .closeBracket],
      fun (_, v, _, l, _) => (v, l.name)⟩]
  | .terminator =>
    [⟨row (word .ret) [rule .type, opt (rule .value)],
        fun (r, t, v) => .ret r.position.line t v⟩,
      ⟨seq (word .br) label, fun (_, l) => .br (labelName l)⟩,
      ⟨row (word .br) [token .intType, rule .value, word .comma, label, word .comma, label],
        fun (_, i, c, _, t, _, f) => .condBr (i.text.drop 1) c (labelName t) (labelName f)⟩,
      ⟨row (word .switch)
          [rule .type, rule .value, word .comma, label, word .openBracket,
            star (rule .switchCase), word .closeBracket],
        fun (_, t, v, _, d, _, cs, _) => .switch t v (labelName d) cs⟩,
      ⟨word .unreachable, fun _ => .unreachable⟩]
  | .switchCase =>
    [⟨row typed [word .comma, label], fun (v, _, l) => (typedPair v, labelName l)⟩]

/-! ### Derivations -/

/-- How a right side is made of tokens. -/
inductive Derivation : Rhs → Type
  | token {k : Terminal} (t : Token) (h : t.terminal = k) : Derivation (.token k)
  /-- By one of the alternatives of a rule. -/
  | rule {r : Rule} (i : Fin r.alternatives.length) (d : Derivation (r.alternatives.get i).rhs) :
      Derivation (.rule r)
  | seq {a b : Rhs} (d : Derivation a) (e : Derivation b) : Derivation (.seq a b)
  | left {a b : Rhs} (d : Derivation a) : Derivation (.alt a b)
  | right {a b : Rhs} (d : Derivation b) : Derivation (.alt a b)
  | none {a : Rhs} : Derivation (.opt a)
  | some {a : Rhs} (d : Derivation a) : Derivation (.opt a)
  | nil {a : Rhs} : Derivation (.star a)
  | cons {a : Rhs} (d : Derivation a) (ds : Derivation (.star a)) : Derivation (.star a)

namespace Derivation

/-- The tree of a derivation. -/
def tree : {e : Rhs} → Derivation e → e.Tree
  | _, token t _ => t
  | _, rule (r := r) i d => (r.alternatives.get i).build d.tree
  | _, seq d e => (d.tree, e.tree)
  | _, left d => .inl d.tree
  | _, right d => .inr d.tree
  | _, none => Option.none
  | _, some d => Option.some d.tree
  | _, nil => []
  | _, cons d ds => d.tree :: ds.tree

/-- The tokens of a derivation. -/
def yield : {e : Rhs} → Derivation e → List Token
  | _, token t _ => [t]
  | _, rule _ d => d.yield
  | _, seq d e => d.yield ++ e.yield
  | _, left d => d.yield
  | _, right d => d.yield
  | _, none => []
  | _, some d => d.yield
  | _, nil => []
  | _, cons d ds => d.yield ++ ds.yield

end Derivation

/-! ### First tokens -/

/-- Can a rule be for no tokens at all? -/
def Rule.nullable (r : Rule) : Bool := r == .module

/-- Can a value start with this? -/
def valueFirst : List Terminal :=
  [.localName, .globalName, .int, .decimal, .hexFloat, .cstring, .word .true, .word .false,
    .word .null, .word .undef, .word .poison, .word .zeroinitializer, .word .openBrace,
    .word .openBracket]

/-- What a type can start with. -/
def typeFirst : List Terminal :=
  [.intType, .localName, .word .void, .word .float, .word .double, .word .ptr,
    .word .openBracket, .word .openBrace]

/-- What an instruction can start with. -/
def instructionFirst : List Terminal := [.localName, .word .store, .word .call]

/-- What a terminator can start with. -/
def terminatorFirst : List Terminal :=
  [.word .ret, .word .br, .word .switch, .word .unreachable]

/-- What something a rule is for can start with. -/
def Rule.first : Rule → List Terminal
  | .module | .item => [.localName, .globalName, .word .declare, .word .define]
  | .typeDef => [.localName]
  | .globalDef | .externGlobal => [.globalName]
  | .declare => [.word .declare]
  | .define => [.word .define]
  | .params | .typeList => .word .dots :: typeFirst
  | .firstBlock => .labelDef :: instructionFirst ++ terminatorFirst
  | .block => [.labelDef]
  | .type | .param | .typedValue | .switchCase => typeFirst
  | .value => valueFirst
  | .instruction => instructionFirst
  | .op =>
    [.binOp, .word .icmp, .word .fcmp, .word .alloca, .word .load, .castOp, .word .select,
      .word .getelementptr, .word .phi, .word .call]
  | .call => [.word .call]
  | .incoming => [.word .openBracket]
  | .terminator => terminatorFirst

namespace Rhs

/-- Can a right side be made of no tokens at all? -/
def nullable : Rhs → Bool
  | token _ => false
  | rule r => r.nullable
  | seq a b => a.nullable && b.nullable
  | alt a b => a.nullable || b.nullable
  | opt _ => true
  | star _ => true

/-- What something made by a right side can start with. -/
def first : Rhs → List Terminal
  | token k => [k]
  | rule r => r.first
  | seq a b => a.first ++ if a.nullable then b.first else []
  | alt a b => a.first ++ b.first
  | opt a => a.first
  | star a => a.first

end Rhs

/-- The tables allow for every alternative of every rule. -/
theorem Rule.first_closed (r : Rule) (i : Fin r.alternatives.length) :
    (r.alternatives.get i).rhs.first ⊆ r.first ∧
      ((r.alternatives.get i).rhs.nullable → r.nullable) := by
  revert i
  cases r <;> decide

/-- What is derived starts with one of the first tokens, if with any. -/
theorem Derivation.starts : {e : Rhs} → (d : Derivation e) →
    (d.yield = [] ∧ e.nullable) ∨ ∃ t ts, d.yield = t :: ts ∧ t.terminal ∈ e.first
  | _, token t h => .inr ⟨t, [], rfl, by simp [Rhs.first, h]⟩
  | .rule r, rule i d => by
    obtain ⟨hfirst, hnullable⟩ := r.first_closed i
    obtain ⟨hd, hn⟩ | ⟨t, ts, hd, ht⟩ := d.starts
    · exact .inl ⟨hd, hnullable hn⟩
    · exact .inr ⟨t, ts, hd, hfirst ht⟩
  | _, seq d e => by
    obtain ⟨hd, hn⟩ | ⟨t, ts, hd, ht⟩ := d.starts
    · obtain ⟨he, hm⟩ | ⟨t, ts, he, ht⟩ := e.starts
      · exact .inl (by simp [yield, Rhs.nullable, *])
      · exact .inr ⟨t, ts, by simp [yield, *], by simp [Rhs.first, *]⟩
    · exact .inr ⟨t, ts ++ e.yield, by simp [yield, hd], by simp [Rhs.first, ht]⟩
  | _, left d => by
    obtain ⟨hd, hn⟩ | ⟨t, ts, hd, ht⟩ := d.starts
    · exact .inl ⟨hd, by simp [Rhs.nullable, hn]⟩
    · exact .inr ⟨t, ts, hd, by simp [Rhs.first, ht]⟩
  | _, right d => by
    obtain ⟨hd, hn⟩ | ⟨t, ts, hd, ht⟩ := d.starts
    · exact .inl ⟨hd, by simp [Rhs.nullable, hn]⟩
    · exact .inr ⟨t, ts, hd, by simp [Rhs.first, ht]⟩
  | _, none => .inl ⟨rfl, rfl⟩
  | _, some d => by
    obtain ⟨hd, -⟩ | hd := d.starts
    · exact .inl ⟨hd, rfl⟩
    · exact .inr hd
  | _, nil => .inl ⟨rfl, rfl⟩
  | _, cons d ds => by
    obtain ⟨hd, -⟩ | ⟨t, ts, hd, ht⟩ := d.starts
    · obtain ⟨hs, -⟩ | ⟨t, ts, hs, ht⟩ := ds.starts
      · exact .inl ⟨by simp [yield, hd, hs], rfl⟩
      · exact .inr ⟨t, ts, by simp [yield, hd, hs], ht⟩
    · exact .inr ⟨t, ts ++ ds.yield, by simp [yield, hd], ht⟩

end GoLift.Source
