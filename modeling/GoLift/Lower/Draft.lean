import GoLift.Lower.Type

/-!
# The draft of a function

While a function is lowered, a `Draft` holds what has been decided so far: the
identifiers of its bindings, what its code needs at the top of the file, which
variables its body must declare, and a trace of noteworthy events. **A draft
only grows, and it is kept when a step fails.** What never changes during the
work, the types of the bindings and the names of global variables, is in the
`Scope`.
-/

set_option autoImplicit false

namespace GoLift

open Go (Expr)

/-- Something worth telling about the course of the work. -/
inductive Event
  /-- The copies out of a block go through temporaries. -/
  | captured (label : String) (copies : Nat)
  /-- A primitive became one block. -/
  | reduced (primitive label : String)
  | finished (function : String) (primitives : Nat)
  /-- A function failed and the rest goes on. -/
  | skipped (function why : String)
  /-- A function failed and the rest is left undone. -/
  | stopped (function : String)
  | wrote (path : String)
  | verified (source : String)

/-- What is fixed while a function is lowered. -/
structure Scope where
  /-- The types of the bindings. -/
  bindings : Table Ty := {}
  /-- The global variables, as opposed to functions. -/
  globals : List String := []

/-- What has been decided about a function. -/
structure Draft where
  names : NameTable := {}
  records : Records := {}
  /-- The variables to declare, with their types. -/
  declared : List (String × Ty) := []
  trace : List Event := []

/-- Work on a draft. -/
abbrev DraftM := ExceptT Fault (StateM Draft)

namespace DraftM

/-- Fail for a cause. -/
def refuse {α : Type} (c : Cause) : DraftM α := throw c.fault

/-- Stop without a diagnostic. -/
def stop {α : Type} (a : Abort) : DraftM α := throw (.abort a)

/-- Work that only touches the records. -/
def ofTypeM {α : Type} (x : TypeM α) : DraftM α := fun d =>
  let (result, records) := x d.records
  (result, { d with records })

/-- The identifier of a binding. -/
def nameOf (raw : String) : DraftM String := do
  let (name, names) := (← get).names.bind raw
  modify ({ · with names })
  return name

/-- The identifier of a binding, as an expression. -/
def localVar (raw : String) : DraftM Expr :=
  return .ident (← nameOf raw)

/-- A new variable that nothing else uses. -/
def temporary (type : Ty) : DraftM String := do
  let (name, names) := (← get).names.fresh "tmp"
  modify (fun d => { d with names, declared := d.declared ++ [(name, type)] })
  return name

/-- Tell of an event. -/
def tell (e : Event) : DraftM Unit :=
  modify (fun d => { d with trace := d.trace ++ [e] })

/-- The Go type of a type. -/
def goType (t : Ty) : DraftM Expr := ofTypeM (GoLift.goType false t)

/-- The unsigned Go type of a type. -/
def goUnsigned (t : Ty) : DraftM Expr := ofTypeM (GoLift.goType true t)

/-- The zero of a type. -/
def zeroValue (t : Ty) : DraftM Expr := ofTypeM (GoLift.zeroValue t)

/-- Note that a package is used. -/
def useImport (package : String) : DraftM Unit := ofTypeM (TypeM.useImport package)

end DraftM

end GoLift
