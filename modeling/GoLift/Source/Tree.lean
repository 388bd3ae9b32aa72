import GoLift.Source.Token

/-!
# Syntax trees

**The grammar of modules, as types**: each rule is a constructor, and each place
of a rule that a token can vary in is an argument. Lines are kept where a later
complaint names one: that of the first token of a value, of `ret`, of a
function definition and of a type definition.
-/

set_option autoImplicit false

namespace GoLift.Source

/-- A type. -/
inductive TypeTree
  /-- `i` with these digits. -/
  | int (digits : List Char)
  | void
  | float
  | double
  | ptr
  | pointer (pointee : TypeTree)
  /-- An array of a written length. -/
  | array (count : List Char) (element : TypeTree)
  | struct (elements : List TypeTree)
  | named (name : String)
  | func (ret : TypeTree) (params : List TypeTree) (varArg : Bool)
deriving Inhabited

mutual

/-- A value without its type. -/
inductive ValueTree
  | localName (name : String)
  | globalName (name : String)
  | int (line : Nat) (text : List Char)
  | decimal (line : Nat) (text : List Char)
  | hexFloat (line : Nat) (text : List Char)
  | true (line : Nat)
  | false (line : Nat)
  | null (line : Nat)
  | undef (line : Nat)
  | zero (line : Nat)
  /-- The text between the quotes. -/
  | cstring (line : Nat) (body : List Char)
  | struct (line : Nat) (items : List TypedTree)
  | array (line : Nat) (items : List TypedTree)

/-- A value with its type. -/
inductive TypedTree
  | mk (type : TypeTree) (value : ValueTree)

end

instance : Inhabited ValueTree := ⟨.localName ""⟩

instance : Inhabited TypedTree := ⟨.mk default default⟩

/-- A call. -/
structure CallTree where
  type : TypeTree
  callee : ValueTree
  args : List TypedTree

/-- What an assignment assigns. -/
inductive OpTree
  | binary (op : String) (type : TypeTree) (left right : ValueTree)
  | icmp (pred : String) (type : TypeTree) (left right : ValueTree)
  | fcmp (pred : String) (type : TypeTree) (left right : ValueTree)
  | alloca (type : TypeTree) (count : Option TypedTree)
  | load (type : TypeTree) (ptr : TypedTree)
  | cast (op : String) (value : TypedTree) (target : TypeTree)
  | select (cond ifTrue ifFalse : TypedTree)
  | gep (source : TypeTree) (ptr : TypedTree) (indices : List TypedTree)
  | phi (type : TypeTree) (incoming : List (ValueTree × String))
  | call (c : CallTree)

/-- An instruction. -/
inductive InstrTree
  | assign (dest : String) (op : OpTree)
  | store (value ptr : TypedTree)
  | call (c : CallTree)

/-- A terminator. -/
inductive TerminatorTree
  | ret (line : Nat) (type : TypeTree) (value : Option ValueTree)
  | br (target : String)
  | condBr (digits : List Char) (cond : ValueTree) (ifTrue ifFalse : String)
  | switch (type : TypeTree) (value : ValueTree) (default : String)
    (cases : List (TypedTree × String))
  | unreachable

/-- A block without its label. -/
structure BlockTree where
  instrs : List InstrTree
  terminator : TerminatorTree

/-- Parameters, and whether more may follow. -/
structure ParamsTree where
  params : List (TypeTree × Option String) := []
  varArg : Bool := false

/-- A definition or declaration of a module. -/
inductive ItemTree
  /-- `none` stands for a body that is not given. -/
  | typeDef (line : Nat) (name : String) (body : Option TypeTree)
  | globalDef (name : String) (constant : Bool) (type : TypeTree) (init : ValueTree)
  | externGlobal (name : String) (constant : Bool) (type : TypeTree)
  | declare (ret : TypeTree) (name : String) (params : ParamsTree)
  /-- The first block may go without a label. -/
  | define (line : Nat) (ret : TypeTree) (name : String) (params : ParamsTree)
    (label : Option String) (first : BlockTree) (rest : List (String × BlockTree))

end GoLift.Source
