import GoLift.IR.Value

/-!
# Programs of the intermediate representation

Instructions, terminators, blocks, functions and modules. Only structure is
recorded: what an instruction means in the emitted language is decided where it
is lowered, and where control goes is read off terminators by `Flow`.

An instruction or terminator of a kind this program knows nothing about is kept
with the name of its kind, so that the function it stands in can be refused.
-/

set_option autoImplicit false

namespace GoLift

/-- An instruction that does not end a block. -/
inductive Instr
  /-- `dest = op type left, right`. -/
  | binary (dest op : String) (type : Ty) (left right : Value)
  /-- `dest = icmp pred type left, right`. -/
  | icmp (dest pred : String) (type : Ty) (left right : Value)
  /-- `dest = fcmp pred type left, right`. -/
  | fcmp (dest pred : String) (type : Ty) (left right : Value)
  /-- `dest = alloca type, count`. -/
  | alloca (dest : String) (type : Ty) (count : Option Value)
  /-- `dest = load type, ptr`. -/
  | load (dest : String) (type : Ty) (ptr : Value)
  /-- `store type value, ptr`. -/
  | store (type : Ty) (value ptr : Value)
  /-- `dest = op value to target`. -/
  | cast (dest op : String) (value : Value) (target : Ty)
  /-- `dest = call ret callee(args)`, or a call whose result is not bound. -/
  | call (dest : Option String) (ret : Ty) (callee : Value) (args : List Value)
  /-- `dest = select cond, ifTrue, ifFalse`. -/
  | select (dest : String) (cond ifTrue ifFalse : Value)
  /-- `dest = getelementptr source, ptr, indices`. -/
  | gep (dest : String) (source : Ty) (ptr : Value) (indices : List Value)
  /-- `dest = phi type [value, label], ...`: the value of the edge control came
  along. -/
  | phi (dest : String) (type : Ty) (incoming : List (String × Value))
  /-- An instruction of an unknown kind. -/
  | unknown (kind : String)

/-- The end of a block. -/
inductive Terminator
  /-- Go to a block. -/
  | br (target : String)
  /-- Go to one of two blocks. -/
  | condBr (cond : Value) (ifTrue ifFalse : String)
  /-- Leave the function. -/
  | ret (value : Option Value)
  /-- Go to one of many blocks. -/
  | switch (value : Value) (default : String) (cases : List (Value × String))
  /-- Control never gets here. -/
  | unreachable
  /-- A terminator of an unknown kind. -/
  | unknown (kind : String)

/-- The name of a terminator's kind. -/
def Terminator.kind : Terminator → String
  | .br _ => "Br"
  | .condBr .. => "CondBr"
  | .ret _ => "Ret"
  | .switch .. => "Switch"
  | .unreachable => "Unreachable"
  | .unknown kind => kind

/-- Does control leave the function here? -/
def Terminator.leaves : Terminator → Bool
  | .ret _ => true
  | .unreachable => true
  | _ => false

/-- A labelled list of instructions with an end. -/
structure Block where
  name : String
  instrs : List Instr := []
  terminator : Option Terminator := none

/-- A parameter of a function; its name is empty if it has none. -/
structure Param where
  name : String
  type : Ty

/-- A function. Without blocks it is a declaration; otherwise control starts at
the first block. -/
structure Function where
  name : String
  ret : Ty
  params : List Param := []
  varArg : Bool := false
  blocks : Option (List Block) := none

/-- The blocks of a function, none for a declaration. -/
def Function.body (f : Function) : List Block :=
  f.blocks.getD []

/-- A variable of the module; the value is the address of its storage. -/
structure GlobalVar where
  name : String
  type : Ty
  init : Option Value := none
  constant : Bool := false

/-- A module. `types` names each struct definition, in order; `bodies` holds
what they define. -/
structure Module where
  name : String
  functions : List Function := []
  globals : List GlobalVar := []
  types : List String := []
  bodies : Bodies := {}

/-- The names of the global variables. -/
def Module.globalNames (m : Module) : List String :=
  m.globals.map GlobalVar.name

end GoLift
