import GoLift.Lower.Draft
import GoLift.Number.Literal

/-!
# Lowering values

A local becomes its variable. A function becomes its name, and a global
variable `&g`, because its value is the address of its storage. Constants
become literals of the same value: an integer is read in the signed range of
its width, a single-precision number is rounded first, and an aggregate is a
composite literal built element by element.
-/

set_option autoImplicit false

namespace GoLift

open Go (Expr)

/-- The number congruent to `n` in the signed range of a width. -/
def signedOf (width : Nat) (n : Int) : Int :=
  n.bmod (Nat.pow 2 width)

/-- The expression of a double. What has no literal comes from `math`. -/
def floatExpr : Double → DraftM Expr
  | .nan => do
    DraftM.useImport "math"
    return .call (.selector (.ident "math") "NaN") []
  | .infinity negative => do
    DraftM.useImport "math"
    return .call (.selector (.ident "math") "Inf") [.lit .int (if negative then "-1" else "1")]
  | .finite negative m e => return .lit .float (floatLiteral negative m e)

/-- Does a payload count as true? -/
def Payload.isTrue : Payload → Bool
  | .int n => n != 0
  | .float x => !x.isZero
  | .list items => !items.isEmpty
  | .elements vs => !vs.isEmpty
  | .ref _ => true
  | .null | .undef => false

/-- The integer of a payload. -/
def Payload.integer : Payload → Except Abort Int
  | .int n => .ok n
  | .float x =>
    match x.truncate? with
    | some n => .ok n
    | none => .error (match x with | .nan => .nanInteger | _ => .infiniteInteger)
  | _ => .error .payload

/-- The double of a payload. -/
def Payload.number : Payload → Except Abort Double
  | .int n =>
    match Double.ofInt? n with
    | some x => .ok x
    | none => .error (.constant .doubleRange)
  | .float x => .ok x
  | _ => .error .payload

/-- Go on with a result, or stop. -/
def DraftM.ofAbort {α : Type} : Except Abort α → DraftM α
  | .ok a => return a
  | .error a => DraftM.stop a

/-- The constant of a scalar type. -/
def scalarExpr (type : Ty) (p : Payload) : DraftM Expr :=
  match type with
  | .int 1 => return .ident (if p.isTrue then "true" else "false")
  | .int width => do
    let _ ← DraftM.goType (.int width)
    let n ← DraftM.ofAbort p.integer
    return .lit .int (toString (signedOf width n))
  | .double => do floatExpr (← DraftM.ofAbort p.number)
  | .float => do
    let x ← DraftM.ofAbort p.number
    match x.toSingle? with
    | some x => floatExpr x
    | none => DraftM.stop .singleRange
  | .struct _ | .named _ | .array .. => DraftM.stop .payload
  | type => DraftM.refuse (.constantType type)

/-- The expression of a global. -/
def globalExpr (scope : Scope) (name : String) : Expr :=
  if scope.globals.contains name then .unary .addr (.ident (goName name))
  else .ident (goName name)

/-- Does a type have elements that a composite literal can list? -/
def Ty.isComposite : Ty → Bool
  | .struct _ | .named _ | .array .. => true
  | _ => false

mutual

/-- The expression of a value. -/
def Value.lower (scope : Scope) : Value → DraftM Expr
  | .localRef name _ => DraftM.localVar name
  | .globalRef name _ => return globalExpr scope name
  | .const type p => p.lower scope type

/-- The expression of a constant. -/
def Payload.lower (scope : Scope) (type : Ty) : Payload → DraftM Expr
  | .ref (.localRef name _) => DraftM.localVar name
  | .ref (.globalRef name _) => return globalExpr scope name
  | .ref (.const t p) => scalarExpr type (.ref (.const t p))
  | .null | .undef => DraftM.zeroValue type
  | .elements vs =>
    if type.isComposite then do
      let elts ← Value.lowerAll scope vs
      return .composite (← DraftM.goType type) elts
    else scalarExpr type (.elements vs)
  | p => scalarExpr type p

/-- The expressions of a list of values. -/
def Value.lowerAll (scope : Scope) : List Value → DraftM (List Expr)
  | [] => return []
  | v :: vs => return (← v.lower scope) :: (← Value.lowerAll scope vs)

end

/-- The type a value was declared with: that of its binding, if it has one. -/
def Value.declaredType (scope : Scope) : Value → Ty
  | .localRef name type => (scope.bindings.get? name).getD type
  | v => v.type

/-- Where a value of a type is stored. A global variable is its own storage, a
typed pointer is followed, and an opaque pointer is converted first. -/
def Value.location (scope : Scope) (elem : Ty) (ptr : Value) : DraftM Expr := do
  match ptr with
  | .globalRef name _ =>
    if scope.globals.contains name then return .ident (goName name)
  | _ => pure ()
  let target ← ptr.lower scope
  if (ptr.declaredType scope).isOpaquePtr then
    return .star (.call (.paren (.star (← DraftM.goType elem))) [target])
  else return .star target

end GoLift
