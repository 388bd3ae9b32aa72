import GoLift.Go.Ast

/-!
# What a declaration is made of

`Decl.parts` lists every expression in a declaration, those inside of others and inside of types
among them. So an identifier of a declaration, or something that it selects from a package, is a
part of it, wherever it stands. `Decl.names` and `FuncDecl.introduces` are the names that it
declares, at the top of a file and inside of a function.
-/

set_option autoImplicit false

namespace GoLift.Go

/-! ### Parts of expressions -/

mutual

/-- An expression and the expressions in it. -/
def Expr.parts : Expr → List Expr
  | .ident name => [.ident name]
  | .lit kind text => [.lit kind text]
  | .composite type elts => .composite type elts :: (type.parts ++ Expr.partsOf elts)
  | .paren x => .paren x :: x.parts
  | .selector x sel => .selector x sel :: x.parts
  | .star x => .star x :: x.parts
  | .unary op x => .unary op x :: x.parts
  | .binary x op y => .binary x op y :: (x.parts ++ y.parts)
  | .call fn args => .call fn args :: (fn.parts ++ Expr.partsOf args)
  | .ellipsis elt => .ellipsis elt :: elt.parts
  | .array len elt => .array len elt :: (len.parts ++ elt.parts)
  | .func params results =>
    .func params results :: (FieldDecl.partsOf params ++ FieldDecl.partsOf results)
  | .struct fields => .struct fields :: FieldDecl.partsOf fields
  | .foreign kind => [.foreign kind]

/-- The expressions in a list of expressions. -/
def Expr.partsOf : List Expr → List Expr
  | [] => []
  | x :: xs => x.parts ++ Expr.partsOf xs

/-- The expressions in the type of some names. -/
def FieldDecl.parts : FieldDecl → List Expr
  | .mk _ type => type.parts

/-- The expressions in a list of fields. -/
def FieldDecl.partsOf : List FieldDecl → List Expr
  | [] => []
  | f :: fs => f.parts ++ FieldDecl.partsOf fs

end

theorem mem_partsOf {y : Expr} {xs : List Expr} :
    y ∈ Expr.partsOf xs ↔ ∃ x ∈ xs, y ∈ x.parts := by
  induction xs with
  | nil => simp [Expr.partsOf]
  | cons x xs ih => simp [Expr.partsOf, ih]

theorem mem_partsOf_fields {y : Expr} {fs : List FieldDecl} :
    y ∈ FieldDecl.partsOf fs ↔ ∃ f ∈ fs, y ∈ f.parts := by
  induction fs with
  | nil => simp [FieldDecl.partsOf]
  | cons f fs ih => simp [FieldDecl.partsOf, ih]

/-! ### Parts of declarations -/

/-- The expressions in what is declared. -/
def Spec.parts : Spec → List Expr
  | .value _ type values => Expr.partsOf type.toList ++ Expr.partsOf values
  | .typeDef _ type => type.parts
  | .foreign _ => []

/-- The expressions in a `var` or `type` declaration. -/
def GenDecl.parts (d : GenDecl) : List Expr :=
  d.specs.flatMap Spec.parts

mutual

/-- The expressions in a statement. -/
def Stmt.parts : Stmt → List Expr
  | .assign lhs _ rhs => Expr.partsOf lhs ++ Expr.partsOf rhs
  | .expr x => x.parts
  | .block body => Stmt.partsOf body
  | .ifElse cond body orElse => cond.parts ++ (Stmt.partsOf body ++ Stmt.elseParts orElse)
  | .loop cond body => Expr.partsOf cond.toList ++ Stmt.partsOf body
  | .ret results => Expr.partsOf results
  | .decl d => d.parts
  | .branch _ | .foreign _ => []

/-- The expressions in a list of statements. -/
def Stmt.partsOf : List Stmt → List Expr
  | [] => []
  | s :: ss => s.parts ++ Stmt.partsOf ss

/-- The expressions in an else-branch. -/
def Stmt.elseParts : Option Stmt → List Expr
  | none => []
  | some s => s.parts

end

theorem mem_partsOf_stmts {y : Expr} {ss : List Stmt} :
    y ∈ Stmt.partsOf ss ↔ ∃ s ∈ ss, y ∈ s.parts := by
  induction ss with
  | nil => simp [Stmt.partsOf]
  | cons s ss ih => simp [Stmt.partsOf, ih]

theorem mem_elseParts {y : Expr} {orElse : Option Stmt} :
    y ∈ Stmt.elseParts orElse ↔ ∃ s ∈ orElse, y ∈ s.parts := by
  cases orElse <;> simp [Stmt.elseParts]

/-- The expressions in a function. -/
def FuncDecl.parts (d : FuncDecl) : List Expr :=
  FieldDecl.partsOf d.type.params ++ FieldDecl.partsOf d.type.results ++
    Stmt.partsOf (d.body.getD [])

/-- The expressions in a declaration. -/
def Decl.parts : Decl → List Expr
  | .func d => d.parts
  | .gen d => d.parts
  | .foreign _ => []

/-! ### Declared names -/

/-- The names that a specification declares. -/
def Spec.names : Spec → List String
  | .value names _ _ => names
  | .typeDef name _ => [name]
  | .foreign _ => []

/-- The names that a declaration at the top of a file declares. -/
def Decl.names : Decl → List String
  | .func d => [d.name]
  | .gen d => d.specs.flatMap Spec.names
  | .foreign _ => []

/-- The names that are declared at the top of a file. -/
def File.names (file : File) : List String :=
  file.decls.flatMap Decl.names

/-- The names of a field. -/
def FieldDecl.names : FieldDecl → List String
  | .mk names _ => names

/-- The name that an expression is, if it is one. -/
def Expr.name? : Expr → Option String
  | .ident name => some name
  | _ => none

mutual

/-- The names that a statement declares, also in the statements in it. -/
def Stmt.declares : Stmt → List String
  | .assign lhs tok _ => if tok = ":=" then lhs.filterMap Expr.name? else []
  | .block body => Stmt.declaresIn body
  | .ifElse _ body orElse => Stmt.declaresIn body ++ Stmt.elseDeclares orElse
  | .loop _ body => Stmt.declaresIn body
  | .decl d => d.specs.flatMap Spec.names
  | .expr _ | .branch _ | .ret _ | .foreign _ => []

/-- The names that a list of statements declares. -/
def Stmt.declaresIn : List Stmt → List String
  | [] => []
  | s :: ss => s.declares ++ Stmt.declaresIn ss

/-- The names that an else-branch declares. -/
def Stmt.elseDeclares : Option Stmt → List String
  | none => []
  | some s => s.declares

end

theorem declaresIn_eq (ss : List Stmt) : Stmt.declaresIn ss = ss.flatMap Stmt.declares := by
  induction ss with
  | nil => rfl
  | cons s ss ih => rw [Stmt.declaresIn, ih, List.flatMap_cons]

/-- The names in the scope of a function: those of its parameters and those that its body declares.
The blank name declares nothing. -/
def FuncDecl.introduces (d : FuncDecl) : List String :=
  (d.type.params.flatMap FieldDecl.names ++ Stmt.declaresIn (d.body.getD [])).filter (· ≠ "_")

end GoLift.Go
