import GoLift.Source.Tree

/-!
# Parsing

A predictive parser: the next token decides which rule goes on, and a token that
no rule allows stops the parse right there. **So a failing parse always stands
at the first token that cannot be part of any module**, or at the end of the
tokens if they are only the beginning of one. `Parse` carries the tokens that
are left and fails with the tokens from the impossible one on.

The grammar nests types, values and lists of them. Every step that goes deeper
or further without taking a token uses up fuel, and `fuelFor` is enough for all
of them.
-/

set_option autoImplicit false

namespace GoLift.Source

/-- Parsing from the front of a list of tokens. -/
abbrev Parse := StateT (List Token) (Except (List Token))

namespace Parse

variable {α : Type}

/-! ### Single tokens -/

/-- No rule goes on here. -/
def fail : Parse α := fun ts => .error ts

/-- What the next token is. -/
def peek : Parse (Option Terminal) := fun ts =>
  .ok (ts.head?.map Token.terminal, ts)

/-- The line of the next token. -/
def line : Parse Nat := fun ts =>
  .ok ((ts.head?.map (·.position.line)).getD 0, ts)

/-- Take a token of a kind. -/
def token (terminal : Terminal) : Parse Token := fun ts =>
  match ts with
  | t :: rest => if t.terminal = terminal then .ok (t, rest) else .error ts
  | [] => .error ts

/-- Take a word. -/
def word (w : Word) : Parse Unit := do
  let _ ← token (.word w)

/-- Is a word next? -/
def sees (w : Word) : Parse Bool := do
  return (← peek) == some (.word w)

/-- Take a token of a kind that carries a name. -/
def name (terminal : Terminal) : Parse String := do
  return (← token terminal).name

/-- Take a token of a kind for its text. -/
def text (terminal : Terminal) : Parse String := do
  return String.ofList (← token terminal).text

/-- Enough fuel for a list of tokens. -/
def fuelFor (ts : List Token) : Nat := 4 * ts.length + 8

/-- Run a parser that needs fuel. -/
def fueled (p : Nat → Parse α) : Parse α := fun ts => p (fuelFor ts) ts

/-! ### Types -/

mutual

/-- A type: its head, then what is built around it. -/
def typeTree : Nat → Parse TypeTree
  | 0 => fail
  | fuel + 1 => do
    let head ← typeHead fuel
    typeSuffixes fuel head

/-- The beginning of a type. -/
def typeHead : Nat → Parse TypeTree
  | 0 => fail
  | fuel + 1 => do
    match ← peek with
    | some .intType => return .int ((← token .intType).text.drop 1)
    | some .localName => return .named (← name .localName)
    | some (.word .void) => do word .void; return .void
    | some (.word .float) => do word .float; return .float
    | some (.word .double) => do word .double; return .double
    | some (.word .ptr) => do word .ptr; return .ptr
    | some (.word .openBracket) => do
      word .openBracket
      let count := (← token .int).text
      word .x
      let element ← typeTree fuel
      word .closeBracket
      return .array count element
    | some (.word .openBrace) => do
      word .openBrace
      if ← sees .closeBrace then
        word .closeBrace
        return .struct []
      else
        let first ← typeTree fuel
        let rest ← moreTypes fuel
        word .closeBrace
        return .struct (first :: rest)
    | _ => fail

/-- Stars and parameter lists after a type. -/
def typeSuffixes : Nat → TypeTree → Parse TypeTree
  | 0, _ => fail
  | fuel + 1, t => do
    match ← peek with
    | some (.word .star) => do
      word .star
      typeSuffixes fuel (.pointer t)
    | some (.word .openParen) => do
      word .openParen
      let (params, varArg) ← typeParams fuel
      word .closeParen
      typeSuffixes fuel (.func t params varArg)
    | _ => return t

/-- Types after commas. -/
def moreTypes : Nat → Parse (List TypeTree)
  | 0 => fail
  | fuel + 1 => do
    if ← sees .comma then
      word .comma
      let t ← typeTree fuel
      return t :: (← moreTypes fuel)
    else return []

/-- The parameters of a function type, up to the closing parenthesis. -/
def typeParams : Nat → Parse (List TypeTree × Bool)
  | 0 => fail
  | fuel + 1 => do
    match ← peek with
    | some (.word .closeParen) => return ([], false)
    | some (.word .dots) => do
      word .dots
      return ([], true)
    | _ => do
      let t ← typeTree fuel
      let (ts, varArg) ← moreTypeParams fuel
      return (t :: ts, varArg)

/-- Parameters of a function type after a comma. -/
def moreTypeParams : Nat → Parse (List TypeTree × Bool)
  | 0 => fail
  | fuel + 1 => do
    if ← sees .comma then
      word .comma
      if ← sees .dots then
        word .dots
        return ([], true)
      else
        let t ← typeTree fuel
        let (ts, varArg) ← moreTypeParams fuel
        return (t :: ts, varArg)
    else return ([], false)

end

/-- A type. -/
def type : Parse TypeTree := fueled typeTree

/-! ### Values -/

mutual

/-- A value. -/
def valueTree : Nat → Parse ValueTree
  | 0 => fail
  | fuel + 1 => do
    let l ← line
    match ← peek with
    | some .localName => return .localName (← name .localName)
    | some .globalName => return .globalName (← name .globalName)
    | some .int => return .int l (← token .int).text
    | some .decimal => return .decimal l (← token .decimal).text
    | some .hexFloat => return .hexFloat l ((← token .hexFloat).text.drop 2)
    | some .cstring => return .cstring l ((← token .cstring).text.drop 2).dropLast
    | some (.word .true) => do word .true; return .true l
    | some (.word .false) => do word .false; return .false l
    | some (.word .null) => do word .null; return .null l
    | some (.word .undef) => do word .undef; return .undef l
    | some (.word .poison) => do word .poison; return .undef l
    | some (.word .zeroinitializer) => do word .zeroinitializer; return .zero l
    | some (.word .openBrace) => do
      word .openBrace
      return .struct l (← typedList fuel .closeBrace)
    | some (.word .openBracket) => do
      word .openBracket
      return .array l (← typedList fuel .closeBracket)
    | _ => fail

/-- A value with its type. -/
def typedTree : Nat → Parse TypedTree
  | 0 => fail
  | fuel + 1 => do
    let t ← type
    return .mk t (← valueTree fuel)

/-- Typed values up to and with a closing word. -/
def typedList : Nat → Word → Parse (List TypedTree)
  | 0, _ => fail
  | fuel + 1, close => do
    if ← sees close then
      word close
      return []
    else
      let v ← typedTree fuel
      let vs ← moreTyped fuel
      word close
      return v :: vs

/-- Typed values after commas. -/
def moreTyped : Nat → Parse (List TypedTree)
  | 0 => fail
  | fuel + 1 => do
    if ← sees .comma then
      word .comma
      let v ← typedTree fuel
      return v :: (← moreTyped fuel)
    else return []

end

/-- A value. -/
def value : Parse ValueTree := fueled valueTree

/-- A value with its type. -/
def typed : Parse TypedTree := fueled typedTree

/-! ### Instructions -/

/-- A type with two values of it. -/
def twoOperands (make : TypeTree → ValueTree → ValueTree → OpTree) : Parse OpTree := do
  let t ← type
  let l ← value
  word .comma
  return make t l (← value)

/-- A call, from its word on. -/
def call : Parse CallTree := do
  word .call
  let type ← type
  let callee ← value
  word .openParen
  return { type, callee, args := ← fueled (typedList · .closeParen) }

/-- `[ value, %label ]`. -/
def incoming : Parse (ValueTree × String) := do
  word .openBracket
  let v ← value
  word .comma
  let label ← name .localName
  word .closeBracket
  return (v, label)

/-- Incoming values after commas. -/
def moreIncoming : Nat → Parse (List (ValueTree × String))
  | 0 => fail
  | fuel + 1 => do
    if ← sees .comma then
      word .comma
      let i ← incoming
      return i :: (← moreIncoming fuel)
    else return []

/-- What is assigned. -/
def op : Parse OpTree := do
  match ← peek with
  | some .binOp => do
    let o ← text .binOp
    twoOperands (.binary o)
  | some (.word .icmp) => do
    word .icmp
    let p ← text .pred
    twoOperands (.icmp p)
  | some (.word .fcmp) => do
    word .fcmp
    let p ← text .pred
    twoOperands (.fcmp p)
  | some (.word .alloca) => do
    word .alloca
    let t ← type
    if ← sees .comma then
      word .comma
      return .alloca t (some (← typed))
    else return .alloca t none
  | some (.word .load) => do
    word .load
    let t ← type
    word .comma
    return .load t (← typed)
  | some .castOp => do
    let o ← text .castOp
    let v ← typed
    word .to
    return .cast o v (← type)
  | some (.word .select) => do
    word .select
    let c ← typed
    word .comma
    let t ← typed
    word .comma
    return .select c t (← typed)
  | some (.word .getelementptr) => do
    word .getelementptr
    let t ← type
    word .comma
    let p ← typed
    return .gep t p (← fueled moreTyped)
  | some (.word .phi) => do
    word .phi
    let t ← type
    let i ← incoming
    return .phi t (i :: (← fueled moreIncoming))
  | some (.word .call) => return .call (← call)
  | _ => fail

/-- Instructions, as many as there are. -/
def instrs : Nat → Parse (List InstrTree)
  | 0 => fail
  | fuel + 1 => do
    match ← peek with
    | some .localName => do
      let dest ← name .localName
      word .equals
      let o ← op
      return .assign dest o :: (← instrs fuel)
    | some (.word .store) => do
      word .store
      let v ← typed
      word .comma
      let p ← typed
      return .store v p :: (← instrs fuel)
    | some (.word .call) => do
      let c ← call
      return .call c :: (← instrs fuel)
    | _ => return []

/-! ### Terminators -/

/-- Can a value start with a token? -/
def startsValue : Terminal → Bool
  | .localName | .globalName | .int | .decimal | .hexFloat | .cstring
  | .word .true | .word .false | .word .null | .word .undef | .word .poison
  | .word .zeroinitializer | .word .openBrace | .word .openBracket => true
  | _ => false

/-- `label %name`. -/
def labelRef : Parse String := do
  word .label
  name .localName

/-- The cases of a switch up to and with the closing bracket. -/
def cases : Nat → Parse (List (TypedTree × String))
  | 0 => fail
  | fuel + 1 => do
    if ← sees .closeBracket then
      word .closeBracket
      return []
    else
      let v ← typed
      word .comma
      let l ← labelRef
      return (v, l) :: (← cases fuel)

/-- A terminator. -/
def terminator : Parse TerminatorTree := do
  let l ← line
  match ← peek with
  | some (.word .ret) => do
    word .ret
    let t ← type
    if (← peek).any startsValue then return .ret l t (some (← value))
    else return .ret l t none
  | some (.word .br) => do
    word .br
    if ← sees .label then return .br (← labelRef)
    else
      let digits := (← token .intType).text.drop 1
      let c ← value
      word .comma
      let t ← labelRef
      word .comma
      return .condBr digits c t (← labelRef)
  | some (.word .switch) => do
    word .switch
    let t ← type
    let v ← value
    word .comma
    let d ← labelRef
    word .openBracket
    return .switch t v d (← fueled cases)
  | some (.word .unreachable) => do
    word .unreachable
    return .unreachable
  | _ => fail

/-! ### Functions -/

/-- A block without its label. -/
def block : Parse BlockTree := do
  let instrs ← fueled instrs
  return { instrs, terminator := ← terminator }

/-- Labelled blocks up to and with the closing brace. -/
def blocks : Nat → Parse (List (String × BlockTree))
  | 0 => fail
  | fuel + 1 => do
    if ← sees .closeBrace then
      word .closeBrace
      return []
    else
      let l ← name .labelDef
      let b ← block
      return (l, b) :: (← blocks fuel)

/-- A parameter. -/
def param : Parse (TypeTree × Option String) := do
  let t ← type
  match ← peek with
  | some .localName => return (t, some (← name .localName))
  | _ => return (t, none)

/-- Parameters after a comma, up to and with the closing parenthesis. -/
def moreParams : Nat → Parse ParamsTree
  | 0 => fail
  | fuel + 1 => do
    if ← sees .comma then
      word .comma
      if ← sees .dots then
        word .dots
        word .closeParen
        return { varArg := true }
      else
        let p ← param
        let rest ← moreParams fuel
        return { rest with params := p :: rest.params }
    else
      word .closeParen
      return {}

/-- Parameters between parentheses. -/
def params : Parse ParamsTree := do
  word .openParen
  match ← peek with
  | some (.word .closeParen) => do
    word .closeParen
    return {}
  | some (.word .dots) => do
    word .dots
    word .closeParen
    return { varArg := true }
  | _ => do
    let p ← param
    let rest ← fueled moreParams
    return { rest with params := p :: rest.params }

/-! ### Modules -/

/-- `global` or `constant`; is it the latter? -/
def globalKind : Parse Bool := do
  return (← text .globalKind) == "constant"

/-- A definition or declaration. -/
def item : Parse ItemTree := do
  let l ← line
  match ← peek with
  | some .localName => do
    let n ← name .localName
    word .equals
    word .type
    match ← peek with
    | some .opaqueWord => do
      let _ ← token .opaqueWord
      return .typeDef l n none
    | _ => return .typeDef l n (some (← type))
  | some .globalName => do
    let n ← name .globalName
    word .equals
    if ← sees .external then
      word .external
      let constant ← globalKind
      return .externGlobal n constant (← type)
    else
      let constant ← globalKind
      let t ← type
      return .globalDef n constant t (← value)
  | some (.word .declare) => do
    word .declare
    let t ← type
    let n ← name .globalName
    return .declare t n (← params)
  | some (.word .define) => do
    word .define
    let t ← type
    let n ← name .globalName
    let ps ← params
    word .openBrace
    let label ←
      match ← peek with
      | some .labelDef => do pure (some (← name .labelDef))
      | _ => pure none
    let first ← block
    return .define l t n ps label first (← fueled blocks)
  | _ => fail

/-- Items up to the end of the tokens. -/
def items : Nat → Parse (List ItemTree)
  | 0 => fail
  | fuel + 1 => do
    match ← peek with
    | none => return []
    | some _ =>
      let i ← item
      return i :: (← items fuel)

end Parse

/-- The trees of a list of tokens, or the tokens from the first impossible one
on. -/
def parseItems (tokens : List Token) : Except (List Token) (List ItemTree) :=
  match Parse.fueled Parse.items tokens with
  | .ok (trees, _) => .ok trees
  | .error rest => .error rest

end GoLift.Source
