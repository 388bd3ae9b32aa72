import GoLift.Region.Reduce

/-!
# Assembling functions and files

The block that is left of a reduced function becomes its body:

* a `var` for every binding, in the order of definition, then for the
  temporaries;
* the statements of the block and its phi copies;
* the statement with which control leaves.

A file has the declarations of the structs that it needs, then the global
variables, then the functions. **The structs a file declares are closed under
mention**: declaring one may mention others, which are declared after it, each
once. `Bodies.mentioned` bounds how many there can be.
-/

set_option autoImplicit false

namespace GoLift

open Go (Expr Stmt FuncType FuncDecl GenDecl Spec Decl File)

/-! ### Functions -/

/-- The identifiers of a declaration's parameters, if each has a name. -/
def Function.paramNames (f : Function) : List String :=
  if f.params.all (fun p => !p.name.isEmpty) then
    (NameTable.bindAll {} (f.params.map Param.name)).1
  else []

/-- The Go type of a function, with the given parameter names. -/
def Function.signature (f : Function) (names : List String) : TypeM FuncType :=
  goSignature names (f.params.map Param.type) f.ret f.varArg

/-- The declaration of a function that is defined elsewhere. -/
def Function.declaration (f : Function) : TypeM FuncDecl := do
  return { name := goName f.name, type := ← f.signature f.paramNames }

/-- `var name T`. -/
def varDecl (name : String) (type : Expr) (values : List Expr) : GenDecl :=
  { tok := "var", specs := [.value [name] (some type) values] }

/-- The declarations of a function's variables. -/
def varStmts : List (String × Ty) → DraftM (List Stmt)
  | [] => return []
  | (name, type) :: rest => do
    let t ← DraftM.goType type
    return .decl (varDecl name t []) :: (← varStmts rest)

/-- The statement with which control leaves a block, if it does. -/
def endStmts (scope : Scope) (b : WorkBlock) : DraftM (List Stmt) :=
  match b.terminator with
  | none => return []
  | some t => Lower.exitStmts scope (some t)

/-- The function whose body is a block. -/
def Function.assemble (f : Function) (scope : Scope) (params : List String) (b : WorkBlock) :
    DraftM FuncDecl := do
  let vars ← varStmts (← get).declared
  let ending ← endStmts scope b
  let type ← DraftM.ofTypeM (f.signature params)
  return { name := goName f.name, type, body := some (vars ++ b.sequence ++ ending) }

/-! ### Structs to declare -/

mutual

/-- The identified structs that a type mentions. -/
def Ty.mentioned : Ty → List String
  | .named name => [name]
  | .ptr t | .array _ t | .vector _ t => t.mentioned
  | .struct ts => Ty.mentionedIn ts
  | .func ret ts _ => ret.mentioned ++ Ty.mentionedIn ts
  | _ => []

/-- The identified structs that a list of types mentions. -/
def Ty.mentionedIn : List Ty → List String
  | [] => []
  | t :: ts => t.mentioned ++ Ty.mentionedIn ts

end

/-- The identified structs that bodies mention. -/
def Bodies.mentioned (bodies : Bodies) : List String :=
  bodies.entries.flatMap (fun e => Ty.mentionedIn e.2)

/-- The declaration of an identified struct. -/
def structDecl (bodies : Bodies) (name : String) : TypeM Decl := do
  let type ← goStruct (bodies.get? name)
  return .gen { tok := "type", specs := [.typeDef (goName name) type] }

/-- The declarations of the recorded structs from the `done`-th on. Declaring one
may record more. -/
def structDecls (bodies : Bodies) : Nat → Nat → TypeM (List Decl)
  | 0, _ => return []
  | fuel + 1, done => do
    match (← get).named[done]? with
    | none => return []
    | some name =>
      let d ← structDecl bodies name
      return d :: (← structDecls bodies fuel (done + 1))

/-- The declarations of all structs that are recorded or mentioned by one that
is. -/
def allStructDecls (bodies : Bodies) : TypeM (List Decl) := do
  let fuel := (← get).named.length + bodies.mentioned.length + 1
  structDecls bodies fuel 0

/-! ### Files -/

/-- The declaration of a global variable. -/
def globalDecl (scope : Scope) (g : GlobalVar) : DraftM Decl := do
  let values ← Value.lowerAll scope g.init.toList
  return .gen (varDecl (goName g.name) (← DraftM.goType g.type) values)

/-- The declarations of the global variables. -/
def globalDecls (scope : Scope) : List GlobalVar → DraftM (List Decl)
  | [] => return []
  | g :: gs => return (← globalDecl scope g) :: (← globalDecls scope gs)

/-- The file of a module: its structs, its variables and the given functions.
`used` is what the functions need. -/
def Module.fileM (m : Module) (funcs : List FuncDecl) (used : Records) : DraftM File := do
  let scope : Scope := { globals := m.globalNames }
  let vars ← globalDecls scope m.globals
  for name in m.types ++ used.named do
    DraftM.ofTypeM (TypeM.useNamed name)
  let types ← DraftM.ofTypeM (allStructDecls m.bodies)
  return {
    package := packageName m.name
    imports := sorted (← get).records.imports
    decls := types ++ vars ++ funcs.map Decl.func }

/-- The file of a module, from a fresh draft. -/
def Module.file (m : Module) (funcs : List FuncDecl) (used : Records) : Except Fault File :=
  (m.fileM funcs used { records := { imports := used.imports } }).1

end GoLift
