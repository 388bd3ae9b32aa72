import GoLift.Fault
import GoLift.IR.Program
import GoLift.Source.Literal
import GoLift.Source.Tree

/-!
# From syntax trees to modules

Building goes through a tree in the order of the source. **What can still go
wrong in a tree is only about meaning**: constants that do not fit their type,
values that are missing, labels and bodies that are given twice.

The bodies of identified structs are the state of the work, because a struct
may be used before it is defined: a constant that lists the elements of a
struct needs its body to be there already.
-/

set_option autoImplicit false

namespace GoLift

/-- The identified struct of a name; the empty name belongs to none. -/
def Ty.identified (name : String) : Except Abort Ty :=
  if name.isEmpty then .error .unnamedStruct else .ok (.named name)

/-- The pointer to a type, if there is one. -/
def Ty.pointerTo (t : Ty) : Except Abort Ty :=
  match t.pointer? with
  | some p => .ok p
  | none => .error .voidPointer

/-- Give an identified struct its body, which it can have only once. -/
def Bodies.define (bodies : Bodies) (name : String) (elements : List Ty) : Except Abort Bodies :=
  if bodies.contains name then .error (.bodyTwice name) else .ok (bodies.put name elements)

namespace Source

/-- Building, with the bodies given so far. -/
abbrev Build := StateT Bodies (Except Fault)

namespace Build

variable {α : Type}

/-- Fail for a cause. -/
def refuse (c : Cause) : Build α := throw c.fault

/-- A result, or a stop. -/
def ofAbort : Except Abort α → Build α
  | .ok a => return a
  | .error a => throw (.abort a)

/-- The number of a width or a length. -/
def numeral (digits : List Char) : Build Int :=
  match readInt digits with
  | .ok n => return n
  | .error f => throw (.abort (.constant f))

/-! ### Types -/

mutual

/-- The type of a tree. -/
def type : TypeTree → Build Ty
  | .int digits => return .int (← numeral digits).toNat
  | .void => return .void
  | .float => return .float
  | .double => return .double
  | .ptr => return .opaquePtr
  | .pointer t => do ofAbort (← type t).pointerTo
  | .array count t => do
    let element ← type t
    return .array (← numeral count) element
  | .struct ts => return .struct (← types ts)
  | .named name => ofAbort (Ty.identified name)
  | .func ret params varArg => do
    let params ← types params
    return .func (← type ret) params varArg

/-- The types of a list of trees. -/
def types : List TypeTree → Build (List Ty)
  | [] => return []
  | t :: ts => return (← type t) :: (← types ts)

end

/-! ### Values -/

/-- The constant of a type with a payload. -/
def constant (line : Nat) (t : Ty) (payload : Except ConstantFault Payload) : Build Value := do
  let bodies ← get
  match payload >>= Value.constant? bodies t with
  | .ok v => return v
  | .error f => throw (f.inSource t line)

/-- Build the elements of a constant. A width or a length with too many digits in
one of their types is a fault of the constant. -/
def elements (line : Nat) (t : Ty) (build : Build α) : Build α := fun bodies =>
  match build bodies with
  | .error (.abort (.constant (.tooManyDigits count))) =>
    .error ((ConstantFault.tooManyDigits count).inSource t line)
  | result => result

/-- The payload of an integer literal: under a floating-point type, the number
near it. -/
def intPayload (t : Ty) (text : List Char) : Except ConstantFault Payload := do
  let n ← readInt text
  match t with
  | .float | .double =>
    match Double.ofInt? n with
    | some x => return .float x
    | none => throw .doubleRange
  | _ => return .int n

/-- The payload of a string. -/
def stringPayload (body : List Char) : Except ConstantFault Payload := do
  return .list ((← stringBytes body).map (fun b => .int b.toNat))

mutual

/-- The value of a tree, at a type. -/
def value (t : Ty) : ValueTree → Build Value
  | .localName name => return .localRef name t
  | .globalName name => return .globalRef name t
  | .int line text => constant line t (intPayload t text)
  | .decimal line text => constant line t (.ok (.float (readDouble text)))
  | .hexFloat line digits => constant line t (Payload.float <$> readPattern digits)
  | .true line => constant line t (.ok (.int 1))
  | .false line => constant line t (.ok (.int 0))
  | .null line | .zero line => constant line t (.ok .null)
  | .undef line => constant line t (.ok .undef)
  | .cstring line body => constant line t (stringPayload body)
  | .struct line items | .array line items => do
    let vs ← elements line t (typedAll items)
    constant line t (.ok (.list (vs.map Payload.ref)))

/-- The value of a tree with its type. -/
def typed : TypedTree → Build Value
  | .mk t v => do
    let t ← type t
    value t v

/-- The values of a list of trees. -/
def typedAll : List TypedTree → Build (List Value)
  | [] => return []
  | v :: vs => return (← typed v) :: (← typedAll vs)

end

/-! ### Instructions and terminators -/

/-- A call whose result goes to `dest`. A function type says what it returns. -/
def call (dest : Option String) (c : CallTree) : Build Instr := do
  let t ← type c.type
  let ret :=
    match t with
    | .func ret _ _ => ret
    | t => t
  let callee ← value t c.callee
  return .call dest ret callee (← typedAll c.args)

/-- The incoming values of a phi. -/
def incoming (t : Ty) : List (ValueTree × String) → Build (List (String × Value))
  | [] => return []
  | (v, label) :: rest => return (label, ← value t v) :: (← incoming t rest)

/-- The instruction that assigns an operation's result. -/
def op (dest : String) : OpTree → Build Instr
  | .binary o t l r => do
    let t ← type t
    let l ← value t l
    return .binary dest o t l (← value t r)
  | .icmp p t l r => do
    let t ← type t
    let l ← value t l
    return .icmp dest p t l (← value t r)
  | .fcmp p t l r => do
    let t ← type t
    let l ← value t l
    return .fcmp dest p t l (← value t r)
  | .alloca t count => do
    let count ←
      match count with
      | some c => pure (some (← typed c))
      | none => pure none
    return .alloca dest (← type t) count
  | .load t p => do
    let t ← type t
    return .load dest t (← typed p)
  | .cast o v t => do
    let v ← typed v
    return .cast dest o v (← type t)
  | .select c t f => do
    let c ← typed c
    let t ← typed t
    return .select dest c t (← typed f)
  | .gep t p is => do
    let t ← type t
    let p ← typed p
    return .gep dest t p (← typedAll is)
  | .phi t is => do
    let t ← type t
    return .phi dest t (← incoming t is)
  | .call c => call (some dest) c

/-- The instruction of a tree. -/
def instr : InstrTree → Build Instr
  | .assign dest o => op dest o
  | .store (.mk t v) p => do
    let t ← type t
    let v ← value t v
    return .store t v (← typed p)
  | .call c => call none c

/-- The instructions of a list of trees. -/
def instrs : List InstrTree → Build (List Instr)
  | [] => return []
  | i :: is => return (← instr i) :: (← instrs is)

/-- The cases of a switch. -/
def cases : List (TypedTree × String) → Build (List (Value × String))
  | [] => return []
  | (v, label) :: rest => return (← typed v, label) :: (← cases rest)

/-- The terminator of a tree. -/
def terminator : TerminatorTree → Build Terminator
  | .ret line t none => do
    let t ← type t
    if t.isVoid then return .ret none else refuse (.valueMissing t line)
  | .ret _ t (some v) => do
    let t ← type t
    return .ret (some (← value t v))
  | .br target => return .br target
  | .condBr digits c ifTrue ifFalse => do
    let width ← numeral digits
    return .condBr (← value (.int width.toNat) c) ifTrue ifFalse
  | .switch t v default cs => do
    let t ← type t
    let cs ← cases cs
    return .switch (← value t v) default cs
  | .unreachable => return .unreachable

/-! ### Functions -/

/-- The block of a tree under a label. -/
def block (name : String) (b : BlockTree) : Build Block := do
  let instrs ← instrs b.instrs
  return { name, instrs, terminator := some (← terminator b.terminator) }

/-- The blocks of labelled trees. -/
def blocks : List (String × BlockTree) → Build (List Block)
  | [] => return []
  | (label, b) :: rest => return (← block label b) :: (← blocks rest)

/-- The parameters of a list of trees. -/
def params : List (TypeTree × Option String) → Build (List Param)
  | [] => return []
  | (t, name) :: rest => return { name := name.getD "", type := ← type t } :: (← params rest)

/-- The label of an entry block without one: the number after those of the
numbered parameters. -/
def entryLabel (params : List Param) : String :=
  toString (params.filter (fun p => Text.isNumeral p.name)).length

/-- The head of a function. -/
def header (ret : TypeTree) (name : String) (ps : ParamsTree) : Build Function := do
  let ret ← type ret
  return { name, ret, params := ← params ps.params, varArg := ps.varArg }

/-- A function with its blocks. No two blocks may have one label. -/
def function (line : Nat) (head : Function) (label : Option String) (first : BlockTree)
    (rest : List (String × BlockTree)) : Build Function := do
  let b ← block (label.getD (entryLabel head.params)) first
  let bs ← blocks rest
  let dupes := repeated ((b :: bs).map Block.name)
  if dupes.isEmpty then return { head with blocks := some (b :: bs) }
  else refuse (.repeatedLabels head.name dupes line)

/-! ### Modules -/

/-- The element types that a type definition gives. -/
def structBody (line : Nat) (name : String) (body : TypeTree) : Build (List Ty) := do
  match ← type body with
  | .struct ts => return ts
  | _ => refuse (.notStruct name line)

/-- Define the struct of a name, if a body is given. -/
def defineStruct (line : Nat) (name : String) (body : Option TypeTree) : Build Unit := do
  let _ ← ofAbort (Ty.identified name)
  match body with
  | none => pure ()
  | some body =>
    let ts ← structBody line name body
    set (← ofAbort ((← get).define name ts))

/-- The module with one more item. -/
def item (m : Module) : ItemTree → Build Module
  | .typeDef line name body => do
    defineStruct line name body
    return { m with types := m.types ++ [name] }
  | .globalDef name constant t init => do
    let type ← type t
    let init ← value type init
    return { m with globals := m.globals ++ [{ name, type, init := some init, constant }] }
  | .externGlobal name constant t => do
    let type ← type t
    return { m with globals := m.globals ++ [{ name, type, constant }] }
  | .declare ret name ps => do
    let f ← header ret name ps
    return { m with functions := m.functions ++ [f] }
  | .define line ret name ps label first rest => do
    let head ← header ret name ps
    let f ← function line head label first rest
    return { m with functions := m.functions ++ [f] }

/-- The module with more items. -/
def items (m : Module) : List ItemTree → Build Module
  | [] => return m
  | i :: is => do
    let m ← item m i
    items m is

/-- The module of a list of trees. -/
def module (name : String) (trees : List ItemTree) : Except Fault Module :=
  match items { name } trees {} with
  | .ok (m, bodies) => .ok { m with bodies }
  | .error f => .error f

end Build

end Source

end GoLift
