/-!
# The emitted language

The part of Go that is emitted: expressions (type expressions among them),
statements, declarations and files.

Every sort of node has a constructor for a node that does not belong there. It
carries only the name of the node's kind, prints as nothing, and is what
`Printer` refuses.
-/

set_option autoImplicit false

namespace GoLift.Go

/-- Binary operators. -/
inductive BinaryOp
  | lor | land
  | eq | ne | lt | le | gt | ge
  | add | sub | or | xor
  | mul | div | rem | shl | shr | and | andNot
  /-- A symbol that is no operator of the language. -/
  | foreign (symbol : String)
deriving DecidableEq, Repr

/-- The symbol of an operator. -/
def BinaryOp.symbol : BinaryOp → String
  | lor => "||"
  | land => "&&"
  | eq => "=="
  | ne => "!="
  | lt => "<"
  | le => "<="
  | gt => ">"
  | ge => ">="
  | add => "+"
  | sub => "-"
  | or => "|"
  | xor => "^"
  | mul => "*"
  | div => "/"
  | rem => "%"
  | shl => "<<"
  | shr => ">>"
  | and => "&"
  | andNot => "&^"
  | foreign symbol => symbol

/-- The operators of the language. -/
def BinaryOp.all : List BinaryOp :=
  [lor, land, eq, ne, lt, le, gt, ge, add, sub, or, xor, mul, div, rem, shl, shr, and, andNot]

/-- The operator of a symbol. -/
def BinaryOp.ofSymbol (symbol : String) : BinaryOp :=
  (BinaryOp.all.find? (·.symbol == symbol)).getD (.foreign symbol)

/-- Unary operators. -/
inductive UnaryOp
  /-- Logical negation. -/
  | not
  /-- The address of an operand. -/
  | addr
  | other (symbol : String)
deriving DecidableEq, Repr

/-- The symbol of an operator. -/
def UnaryOp.symbol : UnaryOp → String
  | not => "!"
  | addr => "&"
  | other symbol => symbol

/-- The operator of a symbol. -/
def UnaryOp.ofSymbol (symbol : String) : UnaryOp :=
  if symbol == "!" then .not else if symbol == "&" then .addr else .other symbol

/-- Kinds of literals. -/
inductive LitKind
  | int
  | float
  | string
deriving DecidableEq, Repr

mutual

/-- An expression. -/
inductive Expr
  | ident (name : String)
  | lit (kind : LitKind) (text : String)
  /-- `T{a, b}`. -/
  | composite (type : Expr) (elts : List Expr)
  /-- Parentheses that are part of the tree. -/
  | paren (x : Expr)
  /-- `x.sel`. -/
  | selector (x : Expr) (sel : String)
  /-- A pointer type, or what a pointer points to. -/
  | star (x : Expr)
  | unary (op : UnaryOp) (x : Expr)
  | binary (x : Expr) (op : BinaryOp) (y : Expr)
  /-- A call or a conversion. -/
  | call (fn : Expr) (args : List Expr)
  /-- The type of a variadic parameter. -/
  | ellipsis (elt : Expr)
  | array (len elt : Expr)
  | func (params results : List FieldDecl)
  | struct (fields : List FieldDecl)
  /-- A node that is no expression. -/
  | foreign (kind : String)

/-- Names of one type: fields of a struct, parameters or results. -/
inductive FieldDecl
  | mk (names : List String) (type : Expr)

end

instance : Inhabited Expr := ⟨.ident "_"⟩

/-- The type of a function. -/
structure FuncType where
  params : List FieldDecl := []
  results : List FieldDecl := []

/-- A function type as an expression. -/
def FuncType.expr (t : FuncType) : Expr := .func t.params t.results

/-- What a declaration declares. -/
inductive Spec
  /-- Variables, with a type or values. -/
  | value (names : List String) (type : Option Expr) (values : List Expr)
  | typeDef (name : String) (type : Expr)
  /-- A node that declares nothing. -/
  | foreign (kind : String)

/-- A `var` or `type` declaration. -/
structure GenDecl where
  tok : String
  specs : List Spec := []

/-- A statement. -/
inductive Stmt
  | assign (lhs : List Expr) (tok : String) (rhs : List Expr)
  | expr (x : Expr)
  | block (body : List Stmt)
  | ifElse (cond : Expr) (body : List Stmt) (orElse : Option Stmt)
  /-- A loop; without a condition it has no end of its own. -/
  | loop (cond : Option Expr) (body : List Stmt)
  /-- `break` or `continue`. -/
  | branch (tok : String)
  | ret (results : List Expr)
  | decl (d : GenDecl)
  /-- A node that is no statement. -/
  | foreign (kind : String)

instance : Inhabited Stmt := ⟨.block []⟩

/-- A function with its body, or without one if it is defined elsewhere. -/
structure FuncDecl where
  name : String
  type : FuncType
  body : Option (List Stmt) := none

/-- A declaration at the top of a file. -/
inductive Decl
  | func (d : FuncDecl)
  | gen (d : GenDecl)
  /-- A node that is no declaration. -/
  | foreign (kind : String)

/-- A source file. -/
structure File where
  package : String
  imports : List String := []
  decls : List Decl := []

/-! ### Common shapes -/

/-- `lhs = rhs`. -/
def Stmt.set (lhs rhs : Expr) : Stmt :=
  .assign [lhs] "=" [rhs]

/-- The negation of a condition. A negation is undone rather than negated, and
whatever does not bind tighter than the operator gets parentheses. -/
def Expr.negate : Expr → Expr
  | .unary .not (.paren x) => x
  | .unary .not x => x
  | .ident name => .unary .not (.ident name)
  | .call fn args => .unary .not (.call fn args)
  | .paren x => .unary .not (.paren x)
  | .selector x sel => .unary .not (.selector x sel)
  | x => .unary .not (.paren x)

end GoLift.Go
