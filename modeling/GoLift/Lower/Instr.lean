import GoLift.IR.Program
import GoLift.Lower.Value

/-!
# Lowering instructions and terminators

Each instruction becomes an assignment of its result, a store, or a call. A phi
becomes nothing here: its copies belong to the blocks before it. Where Go has
no such expression, a conditional statement takes its place (`select`, and
numbers made from a `bool`).

**Signedness lives in the operation.** Integers are signed in the emitted code,
and an unsigned operation converts its operands and converts the result back.

A terminator becomes a statement only if control leaves the function there;
branches are what the reduction to structured statements takes apart.
-/

set_option autoImplicit false

namespace GoLift

open Go (Expr Stmt BinaryOp)

/-! ### Tables of operations -/

/-- Operations that are an operator of Go. -/
def plainOps : List (String × BinaryOp) :=
  [("add", .add), ("sub", .sub), ("mul", .mul), ("sdiv", .div), ("srem", .rem), ("shl", .shl),
    ("ashr", .shr), ("and", .and), ("or", .or), ("xor", .xor), ("fadd", .add), ("fsub", .sub),
    ("fmul", .mul), ("fdiv", .div)]

/-- Operations that are an operator on unsigned operands. -/
def unsignedOps : List (String × BinaryOp) :=
  [("udiv", .div), ("urem", .rem), ("lshr", .shr)]

/-- Operations on truth values. -/
def boolOps : List (String × BinaryOp) :=
  [("and", .land), ("or", .lor), ("xor", .ne)]

/-- Comparisons of signed integers. -/
def signedPreds : List (String × BinaryOp) :=
  [("eq", .eq), ("ne", .ne), ("sgt", .gt), ("sge", .ge), ("slt", .lt), ("sle", .le)]

/-- Comparisons of unsigned integers. -/
def unsignedPreds : List (String × BinaryOp) :=
  [("ugt", .gt), ("uge", .ge), ("ult", .lt), ("ule", .le)]

/-- Comparisons that are false if an operand is not a number, as Go's are. -/
def orderedPreds : List (String × BinaryOp) :=
  [("oeq", .eq), ("ogt", .gt), ("oge", .ge), ("olt", .lt), ("ole", .le)]

/-- Comparisons that are true if an operand is not a number: the negation of the
opposite one. -/
def unorderedPreds : List (String × BinaryOp) :=
  [("ugt", .le), ("uge", .lt), ("ult", .ge), ("ule", .gt)]

/-- `T(v)`. -/
def convert (type value : Expr) : Expr := .call type [value]

/-- A call of a function by its name. -/
def callNamed (name : String) (args : List Expr) : Expr := .call (.ident name) args

/-- An integer literal. -/
def intLit (text : String) : Expr := .lit .int text

namespace Lower

variable (scope : Scope)

/-- A value converted to the unsigned type of its width. -/
def unsignedValue (type : Ty) (v : Value) : DraftM Expr := do
  let t ← DraftM.goUnsigned type
  return convert t (← v.lower scope)

/-- Assign an expression to a binding. -/
def assignTo (dest : String) (rhs : Expr) : DraftM (List Stmt) := do
  return [.set (← DraftM.localVar dest) rhs]

/-! ### Binary operations and comparisons -/

/-- The expression of a binary operation. -/
def binaryExpr (op : String) (type : Ty) (left right : Value) : DraftM Expr := do
  let l ← left.lower scope
  let r ← right.lower scope
  match (if type.isBool then boolOps.lookup op else none).or (plainOps.lookup op),
    unsignedOps.lookup op with
  | some o, _ => return .binary l o r
  | none, some o => do
    let l ← unsignedValue scope type left
    let r ← unsignedValue scope type right
    return convert (← DraftM.goType type) (.binary l o r)
  | none, none =>
    if op == "frem" then do
      DraftM.useImport "math"
      let mod := Expr.selector (.ident "math") "Mod"
      match type with
      | .float =>
        let wide (e : Expr) := convert (.ident "float64") e
        return convert (.ident "float32") (.call mod [wide l, wide r])
      | _ => return .call mod [l, r]
    else DraftM.refuse (.unsupported (.binary op))

/-- The expression of an integer comparison. -/
def icmpExpr (pred : String) (type : Ty) (left right : Value) : DraftM Expr := do
  match signedPreds.lookup pred, unsignedPreds.lookup pred with
  | some o, _ =>
    let l ← left.lower scope
    return .binary l o (← right.lower scope)
  | none, some o =>
    let l ← unsignedValue scope type left
    return .binary l o (← unsignedValue scope type right)
  | none, none => DraftM.refuse (.unsupported (.icmp pred))

/-- The expression of a comparison of numbers that may not be numbers. -/
def fcmpOf (pred : String) (l r : Expr) : Option Expr :=
  let differ := Expr.binary (.binary l .lt r) .lor (.binary l .gt r)
  match orderedPreds.lookup pred, unorderedPreds.lookup pred with
  | some o, _ => some (.binary l o r)
  | none, some o => some (Expr.binary l o r).negate
  | none, none =>
    match pred with
    | "une" => some (.binary l .ne r)
    | "one" => some differ
    | "ueq" => some differ.negate
    | "ord" => some (.binary (.binary l .eq l) .land (.binary r .eq r))
    | "uno" => some (.binary (.binary l .ne l) .lor (.binary r .ne r))
    | _ => none

/-- The expression of a floating-point comparison. -/
def fcmpExpr (pred : String) (left right : Value) : DraftM Expr := do
  let l ← left.lower scope
  let r ← right.lower scope
  match fcmpOf pred l r with
  | some e => return e
  | none => DraftM.refuse (.unsupported (.fcmp pred))

/-! ### Casts -/

/-- A pointer as `unsafe.Pointer`; an opaque pointer already is one. -/
def asUnsafePointer (source : Value) (value : Expr) : DraftM Expr := do
  DraftM.useImport "unsafe"
  if (source.declaredType scope).isOpaquePtr then return value
  else return convert unsafePointer value

/-- The number that a true `bool` becomes under a cast, if the cast makes numbers
of them. -/
def boolCastUnit? (op : String) : Option Expr :=
  match op with
  | "zext" => some (intLit "1")
  | "sext" => some (intLit "-1")
  | "uitofp" => some (.lit .float "1.0")
  | _ => none

/-- The expression of a cast, given the lowered operand and target type. -/
def castExpr (op : String) (source : Value) (target : Ty) (value goTarget : Expr) :
    DraftM Expr := do
  match op with
  | "zext" | "uitofp" =>
    let t ← DraftM.goUnsigned (source.declaredType scope)
    return convert goTarget (convert t value)
  | "fptoui" =>
    let t ← DraftM.goUnsigned target
    return convert goTarget (convert t value)
  | "trunc" | "sext" | "fptrunc" | "fpext" | "fptosi" | "sitofp" => return convert goTarget value
  | "bitcast" =>
    match target with
    | .ptr _ => return convert goTarget (← asUnsafePointer scope source value)
    | _ => return convert goTarget value
  | "ptrtoint" =>
    let p ← asUnsafePointer scope source value
    return convert goTarget (callNamed "uintptr" [p])
  | "inttoptr" =>
    DraftM.useImport "unsafe"
    let p := convert unsafePointer (callNamed "uintptr" [value])
    return if target.isOpaquePtr then p else convert goTarget p
  | _ => DraftM.refuse (.unsupported (.cast op))

/-- The statements of a cast. -/
def castStmts (dest op : String) (source : Value) (target : Ty) : DraftM (List Stmt) := do
  let d ← DraftM.localVar dest
  let value ← source.lower scope
  match boolCastUnit? op, (source.declaredType scope).isBool with
  | some unit, true =>
    let zero ← DraftM.zeroValue target
    return [.set d zero, .ifElse value [.set d unit] none]
  | _, _ =>
    if op == "trunc" && target.isBool then
      return [.set d (.binary (.paren (.binary value .and (intLit "1"))) .ne (intLit "0"))]
    else
      let goTarget ← DraftM.goType target
      return [.set d (← castExpr scope op source target value goTarget)]

/-! ### Instructions -/

/-- Does the count of an allocation say one? -/
def isOne : Value → Bool
  | .const _ (.int n) => n == 1
  | .const _ (.float x) => x.isOne
  | _ => false

/-- The statements of an instruction. -/
def instr : Instr → DraftM (List Stmt)
  | .binary dest op type left right => do
    assignTo dest (← binaryExpr scope op type left right)
  | .icmp dest pred type left right => do
    assignTo dest (← icmpExpr scope pred type left right)
  | .fcmp dest pred _ left right => do
    assignTo dest (← fcmpExpr scope pred left right)
  | .alloca dest type count => do
    if count.all isOne then
      let d ← DraftM.localVar dest
      return [.set d (callNamed "new" [← DraftM.goType type])]
    else DraftM.refuse (.unsupported .dynamicAlloca)
  | .load dest type ptr => do
    let d ← DraftM.localVar dest
    return [.set d (← ptr.location scope type)]
  | .store type value ptr => do
    let place ← ptr.location scope type
    return [.set place (← value.lower scope)]
  | .cast dest op value target => castStmts scope dest op value target
  | .call dest _ callee args => do
    let fn ← callee.lower scope
    let call := Expr.call fn (← Value.lowerAll scope args)
    match dest with
    | some dest => assignTo dest call
    | none => return [.expr call]
  | .select dest cond ifTrue ifFalse => do
    let c ← cond.lower scope
    let d ← DraftM.localVar dest
    let t ← ifTrue.lower scope
    let f ← ifFalse.lower scope
    return [.ifElse c [.set d t] (some (.block [.set d f]))]
  | .gep .. => DraftM.refuse (.unsupported (.instruction "GetElementPtr"))
  | .phi .. => return []
  | .unknown kind => DraftM.refuse (.unsupported (.instruction kind))

/-- The statements of a list of instructions, in order. -/
def instrs : List Instr → DraftM (List Stmt)
  | [] => return []
  | i :: is => return (← instr scope i) ++ (← instrs is)

/-! ### Terminators -/

/-- The statement with which control leaves the function. A branch cannot be one:
the block it goes to is gone when this is asked. -/
def exitStmts : Option Terminator → DraftM (List Stmt)
  | some (.ret none) => return [.ret []]
  | some (.ret (some v)) => return [.ret [← v.lower scope]]
  | some .unreachable => return [.expr (callNamed "panic" [.lit .string "\"unreachable\""])]
  | some (.br target) => DraftM.refuse (.branchExit (Terminator.br target).kind)
  | some (.condBr c t f) => DraftM.refuse (.branchExit (Terminator.condBr c t f).kind)
  | some t => DraftM.refuse (.unsupported (.terminator t.kind))
  | none => DraftM.refuse .openEnd

end Lower

end GoLift
