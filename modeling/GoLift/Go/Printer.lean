import GoLift.Fault
import GoLift.Go.Ast

/-!
# Printing the emitted language

Text is laid out as the language's own formatter does: tabs, braces on the line
they belong to, one blank line between declarations. **Parentheses are added
only where precedence needs them**: an operand is wrapped when it binds less
tightly than its place asks for, and since binary operators associate to the
left, the right operand's place asks for one more.

Printing is split in two. `text` and `lines` are total and give every node a
text; `fault?` finds the first node that has no business where it stands, in
the order in which nodes are printed. `Printer.expr` and its siblings refuse a
tree with such a node and otherwise give its text.
-/

set_option autoImplicit false

namespace GoLift.Go

/-- How tightly a binary operator binds. -/
def BinaryOp.prec : BinaryOp → Nat
  | lor => 1
  | land => 2
  | eq | ne | lt | le | gt | ge => 3
  | add | sub | or | xor => 4
  | mul | div | rem | shl | shr | and | andNot => 5
  | foreign _ => 0

/-- How tightly a unary operator binds. -/
def unaryPrec : Nat := 6

/-- How tightly an operand binds that no operator can take apart. -/
def primaryPrec : Nat := 7

/-- How tightly an expression binds. -/
def Expr.prec : Expr → Nat
  | .binary _ op _ => op.prec
  | .unary .. | .star _ => unaryPrec
  | _ => primaryPrec

/-- `s` between parentheses. -/
def parens (s : String) : String := "(" ++ s ++ ")"

/-- The text of an expression in a place that asks for a precedence. -/
def operand (e : Expr) (text : String) (prec : Nat) : String :=
  if e.prec < prec then parens text else text

/-- Does the function part of a call need parentheses? -/
def Expr.wrapsAsCallee : Expr → Bool
  | .star _ | .func .. | .unary .. => true
  | _ => false

/-- The type of a field with its names. -/
def fieldText (names : List String) (type : String) : String :=
  if names.isEmpty then type else ", ".intercalate names ++ " " ++ type

/-- Has the field no names? -/
def FieldDecl.nameless : FieldDecl → Bool
  | .mk names _ => names.isEmpty

/-- Parameters and results, given their texts. A single nameless result needs no
parentheses. -/
def signatureText (results : List FieldDecl) (paramTexts resultTexts : List String) : String :=
  let params := parens (", ".intercalate paramTexts)
  match results, resultTexts with
  | [], _ => params
  | [r], [t] => if r.nameless then params ++ " " ++ t else params ++ " " ++ parens t
  | _, ts => params ++ " " ++ parens (", ".intercalate ts)

/-! ### Expressions -/

mutual

/-- The text of an expression. -/
def Expr.text : Expr → String
  | .ident name => name
  | .lit _ text => text
  | .paren x => parens x.text
  | .selector x sel => operand x x.text primaryPrec ++ "." ++ sel
  | .star x => "*" ++ operand x x.text unaryPrec
  | .unary op x => op.symbol ++ operand x x.text unaryPrec
  | .binary x op y =>
    operand x x.text op.prec ++ " " ++ op.symbol ++ " " ++ operand y y.text (op.prec + 1)
  | .call fn args =>
    (if fn.wrapsAsCallee then parens fn.text else fn.text) ++
      parens (", ".intercalate (Expr.texts args))
  | .composite type elts =>
    type.text ++ "\x7b" ++ ", ".intercalate (Expr.texts elts) ++ "\x7d"
  | .ellipsis elt => "..." ++ elt.text
  | .array len elt => "[" ++ len.text ++ "]" ++ elt.text
  | .func params results =>
    "func" ++ signatureText results (FieldDecl.texts params) (FieldDecl.texts results)
  | .struct fields =>
    if fields.isEmpty then "struct\x7b\x7d"
    else "struct\x7b " ++ "; ".intercalate (FieldDecl.texts fields) ++ " \x7d"
  | .foreign _ => ""

/-- The texts of a list of expressions. -/
def Expr.texts : List Expr → List String
  | [] => []
  | e :: es => e.text :: Expr.texts es

/-- The text of a field. -/
def FieldDecl.text : FieldDecl → String
  | .mk names type => fieldText names type.text

/-- The texts of a list of fields. -/
def FieldDecl.texts : List FieldDecl → List String
  | [] => []
  | f :: fs => f.text :: FieldDecl.texts fs

end

mutual

/-- The first node of an expression that cannot be printed. -/
def Expr.fault? : Expr → Option Abort
  | .ident _ | .lit .. => none
  | .paren x | .selector x _ | .star x | .unary _ x => x.fault?
  | .binary x op y =>
    match op with
    | .foreign symbol => some (.operator symbol)
    | _ => x.fault?.or y.fault?
  | .call fn args => fn.fault?.or (Expr.faults? args)
  | .composite type elts => type.fault?.or (Expr.faults? elts)
  | .ellipsis elt => elt.fault?
  | .array len elt => len.fault?.or elt.fault?
  | .func params results => (FieldDecl.faults? params).or (FieldDecl.faults? results)
  | .struct fields => FieldDecl.faults? fields
  | .foreign kind => some (.unprintable "expression" kind)

/-- The first fault in a list of expressions. -/
def Expr.faults? : List Expr → Option Abort
  | [] => none
  | e :: es => e.fault?.or (Expr.faults? es)

/-- The first fault in a field. -/
def FieldDecl.fault? : FieldDecl → Option Abort
  | .mk _ type => type.fault?

/-- The first fault in a list of fields. -/
def FieldDecl.faults? : List FieldDecl → Option Abort
  | [] => none
  | f :: fs => f.fault?.or (FieldDecl.faults? fs)

end

/-- The parameters and results of a function. -/
def FuncType.text (t : FuncType) : String :=
  signatureText t.results (FieldDecl.texts t.params) (FieldDecl.texts t.results)

/-- The first fault in a function's type. -/
def FuncType.fault? (t : FuncType) : Option Abort :=
  (FieldDecl.faults? t.params).or (FieldDecl.faults? t.results)

/-! ### Declarations of types and variables -/

/-- What a type declaration says after the name. A struct gets a line for each
field. -/
def typeBodyText : Expr → String
  | .struct (f :: fs) =>
    "struct \x7b" ++ String.join ((FieldDecl.texts (f :: fs)).map ("\n\t" ++ ·)) ++ "\n\x7d"
  | e => e.text

/-- What a declaration says of one spec. -/
def Spec.text : Spec → String
  | .value names type values =>
    ", ".intercalate names ++ (type.map (" " ++ ·.text)).getD "" ++
      (if values.isEmpty then "" else " = " ++ ", ".intercalate (Expr.texts values))
  | .typeDef name type => name ++ " " ++ typeBodyText type
  | .foreign _ => ""

/-- The first fault in a spec. -/
def Spec.fault? : Spec → Option Abort
  | .value _ type values => (type.bind Expr.fault?).or (Expr.faults? values)
  | .typeDef _ type => type.fault?
  | .foreign kind => some (.unprintable "spec" kind)

/-- A declaration; several specs are grouped. -/
def GenDecl.text (d : GenDecl) : String :=
  match d.specs with
  | [spec] => d.tok ++ " " ++ spec.text
  | specs => d.tok ++ " (" ++ String.join (specs.map ("\n\t" ++ ·.text)) ++ "\n)"

/-- The first fault in a declaration. -/
def GenDecl.fault? (d : GenDecl) : Option Abort :=
  d.specs.findSome? Spec.fault?

/-! ### Statements -/

/-- Indentation. -/
def tabs (depth : Nat) : String := String.ofList (List.replicate depth '\t')

mutual

/-- The lines of a statement. -/
def Stmt.lines (depth : Nat) : Stmt → List String
  | .assign lhs tok rhs =>
    [tabs depth ++ ", ".intercalate (Expr.texts lhs) ++ " " ++ tok ++ " " ++
      ", ".intercalate (Expr.texts rhs)]
  | .expr x => [tabs depth ++ x.text]
  | .block body => (tabs depth ++ "\x7b") :: Stmt.bodyLines (depth + 1) body ++ [tabs depth ++ "\x7d"]
  | .ifElse cond body orElse =>
    (tabs depth ++ "if " ++ cond.text ++ " \x7b") ::
      Stmt.bodyLines (depth + 1) body ++ Stmt.elseLines depth orElse
  | .loop cond body =>
    (tabs depth ++ (cond.map (fun c => "for " ++ c.text ++ " \x7b")).getD "for \x7b") ::
      Stmt.bodyLines (depth + 1) body ++ [tabs depth ++ "\x7d"]
  | .branch tok => [tabs depth ++ tok]
  | .ret results =>
    [tabs depth ++ "return" ++
      (if results.isEmpty then "" else " " ++ ", ".intercalate (Expr.texts results))]
  | .decl d => [tabs depth ++ d.text]
  | .foreign _ => []

/-- The lines of a list of statements. -/
def Stmt.bodyLines (depth : Nat) : List Stmt → List String
  | [] => []
  | s :: ss => s.lines depth ++ Stmt.bodyLines depth ss

/-- The lines from the end of a then-branch on. An if in the place of an
else-branch continues the chain. -/
def Stmt.elseLines (depth : Nat) : Option Stmt → List String
  | none => [tabs depth ++ "\x7d"]
  | some (.ifElse cond body orElse) =>
    (tabs depth ++ "\x7d else if " ++ cond.text ++ " \x7b") ::
      Stmt.bodyLines (depth + 1) body ++ Stmt.elseLines depth orElse
  | some (.block body) =>
    (tabs depth ++ "\x7d else \x7b") :: Stmt.bodyLines (depth + 1) body ++ [tabs depth ++ "\x7d"]
  | some s => (tabs depth ++ "\x7d else \x7b") :: s.lines (depth + 1) ++ [tabs depth ++ "\x7d"]

end

mutual

/-- The first node of a statement that cannot be printed. -/
def Stmt.fault? : Stmt → Option Abort
  | .assign lhs _ rhs => (Expr.faults? lhs).or (Expr.faults? rhs)
  | .expr x => x.fault?
  | .block body => Stmt.faults? body
  | .ifElse cond body orElse => cond.fault?.or ((Stmt.faults? body).or (Stmt.elseFault? orElse))
  | .loop cond body => (cond.bind Expr.fault?).or (Stmt.faults? body)
  | .branch _ => none
  | .ret results => Expr.faults? results
  | .decl d => d.fault?
  | .foreign kind => some (.unprintable "statement" kind)

/-- The first fault in a list of statements. -/
def Stmt.faults? : List Stmt → Option Abort
  | [] => none
  | s :: ss => s.fault?.or (Stmt.faults? ss)

/-- The first fault in an else-branch. -/
def Stmt.elseFault? : Option Stmt → Option Abort
  | none => none
  | some s => s.fault?

end

/-! ### Files -/

/-- The lines of a function. -/
def FuncDecl.lines (d : FuncDecl) : List String :=
  let head := "func " ++ d.name ++ d.type.text
  match d.body with
  | none => [head]
  | some body => (head ++ " \x7b") :: Stmt.bodyLines 1 body ++ ["\x7d"]

/-- The first fault in a function. -/
def FuncDecl.fault? (d : FuncDecl) : Option Abort :=
  d.type.fault?.or (d.body.bind Stmt.faults?)

/-- The text of a declaration. -/
def Decl.text : Decl → String
  | .func d => "\n".intercalate d.lines
  | .gen d => d.text
  | .foreign _ => ""

/-- The first fault in a declaration of a file. -/
def Decl.fault? : Decl → Option Abort
  | .func d => d.fault?
  | .gen d => d.fault?
  | .foreign kind => some (.unprintable "declaration" kind)

/-- The lines that import packages. -/
def importLines : List String → List String
  | [] => []
  | [path] => ["", "import \"" ++ path ++ "\""]
  | paths => "" :: "import (" :: paths.map (fun p => "\t\"" ++ p ++ "\"") ++ [")"]

/-- The text of a file. -/
def File.text (f : File) : String :=
  let parts := ("package " ++ f.package) :: importLines f.imports ++
    f.decls.flatMap (fun d => ["", d.text])
  "\n".intercalate parts ++ "\n"

/-- The first fault in a file. -/
def File.fault? (f : File) : Option Abort :=
  f.decls.findSome? Decl.fault?

/-! ### Printing -/

namespace Printer

/-- A text, unless there is a fault. -/
def guarded (fault? : Option Abort) (text : String) : Except Abort String :=
  match fault? with
  | some a => .error a
  | none => .ok text

/-- Print an expression. -/
def expr (e : Expr) : Except Abort String := guarded e.fault? e.text

/-- Print a statement on its own. -/
def stmt (s : Stmt) : Except Abort String := guarded s.fault? ("\n".intercalate (s.lines 0))

/-- Print a declaration on its own. Of a node that is none, nothing but its kind
is known. -/
def decl : Decl → Except Abort String
  | .foreign kind => .error (.unprintable "" kind)
  | d => guarded d.fault? d.text

/-- Print a file. -/
def file (f : File) : Except Abort String := guarded f.fault? f.text

end Printer

end GoLift.Go
