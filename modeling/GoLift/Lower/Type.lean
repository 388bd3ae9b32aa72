import GoLift.Fault
import GoLift.Go.Ast
import GoLift.Go.Name

/-!
# Lowering types

Integers map by width (`i1` is `bool`), pointers to `*T` or to `unsafe.Pointer`
when they are opaque, function types to `func(...) R`, and aggregates keep the
order of their elements. An identified struct becomes its name; its body is
never entered.

Code depends on things outside the function it stands in: packages to import
and structs to declare. `Records` collects them. **Records are kept when
lowering fails**: what was met before the fault has been met.
-/

set_option autoImplicit false

namespace GoLift

open Go (Expr FieldDecl FuncType)

/-- What emitted code needs at the top of the file. -/
structure Records where
  /-- The packages to import. -/
  imports : List String := []
  /-- The identified structs to declare, in the order in which they were met. -/
  named : List String := []
deriving DecidableEq, Repr

namespace Records

/-- Note that a package is used. -/
def addImport (r : Records) (package : String) : Records :=
  if r.imports.contains package then r else { r with imports := r.imports ++ [package] }

/-- Note that an identified struct is mentioned. -/
def addNamed (r : Records) (name : String) : Records :=
  if r.named.contains name then r else { r with named := r.named ++ [name] }

end Records

/-- Work that leaves records, also when it fails. -/
abbrev TypeM := ExceptT Fault (StateM Records)

namespace TypeM

/-- Fail for a cause. -/
def refuse {α : Type} (c : Cause) : TypeM α := throw c.fault

/-- Note that a package is used. -/
def useImport (package : String) : TypeM Unit :=
  modify (Records.addImport · package)

/-- Note that an identified struct is mentioned. -/
def useNamed (name : String) : TypeM Unit :=
  modify (Records.addNamed · name)

end TypeM

/-- The widths of Go's integers. -/
def goWidths : List Nat := [8, 16, 32, 64]

/-- Go's integer type of a width. -/
def goIntType (unsigned : Bool) (width : Nat) : TypeM Expr :=
  if width = 1 then return .ident "bool"
  else if goWidths.contains width then
    return .ident ((if unsigned then "uint" else "int") ++ toString width)
  else TypeM.refuse (.intWidth width)

/-- `unsafe.Pointer`. -/
def unsafePointer : Expr := .selector (.ident "unsafe") "Pointer"

/-- Nameless fields of the given types. -/
def namelessFields (types : List Expr) : List FieldDecl :=
  types.map (FieldDecl.mk [] ·)

/-- Fields `F0`, `F1`, ... of the given types. -/
def numberedFields (types : List Expr) : List FieldDecl :=
  types.zipIdx.map (fun (t, i) => FieldDecl.mk ["F" ++ toString i] t)

/-- The type of the tail of a variadic parameter list. -/
def variadicType : Expr := .ellipsis (.ident "interface\x7b\x7d")

/-- Go's `[n]T`. -/
def goArray (count : Int) (elt : Expr) : Expr :=
  .array (.lit .int (toString count)) elt

mutual

/-- The Go type of a type. `unsigned` asks for an unsigned integer type, where an
operation rather than its type decides about signs. -/
def goType (unsigned : Bool) : Ty → TypeM Expr
  | .int width => goIntType unsigned width
  | .double => return .ident "float64"
  | .float => return .ident "float32"
  | .opaquePtr => do
    TypeM.useImport "unsafe"
    return unsafePointer
  | .ptr t => return .star (← goType false t)
  | .func ret params varArg => do
    let params := namelessFields (← goTypes params)
    let tail := if varArg then [FieldDecl.mk [] variadicType] else []
    let results ← goResults ret
    return .func (params ++ tail) results
  | .named name => do
    TypeM.useNamed name
    return .ident (goName name)
  | .struct ts => return .struct (numberedFields (← goTypes ts))
  | .array count t => return goArray count (← goType false t)
  | t => TypeM.refuse (.noCounterpart t)

/-- The Go types of a list of types. -/
def goTypes : List Ty → TypeM (List Expr)
  | [] => return []
  | t :: ts => return (← goType false t) :: (← goTypes ts)

/-- The results of a function: none for `void`. -/
def goResults : Ty → TypeM (List FieldDecl)
  | .void => return []
  | t => return [FieldDecl.mk [] (← goType false t)]

end

/-- The struct of an identified struct's declaration. Without a body it is
empty. -/
def goStruct (body : Option (List Ty)) : TypeM Expr := do
  return .struct (numberedFields (← goTypes (body.getD [])))

/-- The Go type of a function. Parameters have names if there is one for each. -/
def goSignature (names : List String) (params : List Ty) (ret : Ty) (varArg : Bool) :
    TypeM FuncType := do
  let types ← goTypes params
  let named := names.length = params.length && !params.isEmpty
  let fields := if named then names.zipWith (fun n t => FieldDecl.mk [n] t) types
    else namelessFields types
  let tail := if varArg then [FieldDecl.mk (if named then ["args"] else []) variadicType] else []
  return { params := fields ++ tail, results := ← goResults ret }

/-- The zero of a type, for `undef`, `poison` and `zeroinitializer`. -/
def zeroValue : Ty → TypeM Expr
  | .int width => do
    if width = 1 then return .ident "false"
    let _ ← goIntType false width
    return .lit .int "0"
  | .float | .double => return .lit .float "0.0"
  | .opaquePtr | .ptr _ | .func .. => return .ident "nil"
  | .named name => return .composite (← goType false (.named name)) []
  | .struct ts => return .composite (← goType false (.struct ts)) []
  | .array count t => return .composite (← goType false (.array count t)) []
  | t => TypeM.refuse (.noZero t)

end GoLift
