import GoLift.Lower.Instr

/-!
# The bindings of a function

Before anything of a function is lowered, every binding gets its identifier:
parameters first, then instruction results in block order. Temporaries that are
made later can therefore never collide with one.
-/

set_option autoImplicit false

namespace GoLift

/-- The binding that an instruction makes, with its type. -/
def Instr.result : Instr → Except Abort (Option (String × Ty))
  | .binary dest _ type _ _ | .load dest type _ | .phi dest type _ => .ok (some (dest, type))
  | .icmp dest .. | .fcmp dest .. => .ok (some (dest, .int 1))
  | .alloca _ .metadata _ => .error .metadataMemory
  | .alloca dest type _ =>
    match type.pointer? with
    | some t => .ok (some (dest, t))
    | none => .error .voidPointer
  | .store .. => .ok none
  | .cast dest _ _ target => .ok (some (dest, target))
  | .call dest ret _ _ => .ok (dest.map (·, ret))
  | .select dest _ ifTrue _ => .ok (some (dest, ifTrue.type))
  | .gep dest .. => .ok (some (dest, .opaquePtr))
  | .unknown kind => .error (.resultless kind)

/-- The bindings of a list of blocks, in order. -/
def resultsOf (blocks : List Block) : Except Abort (List (String × Ty)) := do
  let results ← (blocks.flatMap Block.instrs).mapM Instr.result
  return results.filterMap id

/-- The identifiers of a list of bindings, in order. -/
def NameTable.bindAll (t : NameTable) : List String → List String × NameTable
  | [] => ([], t)
  | raw :: raws =>
    let (name, t) := t.bind raw
    let (names, t) := t.bindAll raws
    (name :: names, t)

/-- A function set up for lowering. -/
structure Setup where
  scope : Scope
  draft : Draft
  /-- The identifiers of the parameters. -/
  params : List String

/-- Name every binding of a function. -/
def Function.setup (f : Function) (globals : List String) : Except Abort Setup := do
  let results ← resultsOf f.body
  let (params, names) := NameTable.bindAll {} (f.params.map Param.name)
  let (locals, names) := names.bindAll (results.map Prod.fst)
  let bindings := f.params.map (fun p => (p.name, p.type)) ++ results
  return {
    scope := { bindings := Table.ofList bindings, globals }
    draft := { names, declared := locals.zip (results.map Prod.snd) }
    params }

end GoLift
