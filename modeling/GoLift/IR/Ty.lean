import GoLift.Table

/-!
# Types of the intermediate representation

**An identified struct is only its name.** Its body is given, at most once, by
a separate definition that may come later than its first use, so bodies live
in a `Bodies` table and a type never contains one. This also makes every type
a finite tree, however recursive the structs are.

A pointer either records its pointee or is opaque; a pointer to an opaque
pointer is itself opaque, and there is no pointer to `void`. `Ty.pointer?` is
the constructor that keeps to these rules.
-/

set_option autoImplicit false

namespace GoLift

/-- A type. -/
inductive Ty
  /-- An integer of the given number of bits. -/
  | int (width : Nat)
  | void
  | half
  | float
  | double
  | label
  | metadata
  /-- A pointer that does not say what it points to. -/
  | opaquePtr
  /-- A pointer to values of one type. -/
  | ptr (pointee : Ty)
  | array (count : Int) (element : Ty)
  | vector (count : Int) (element : Ty)
  /-- A struct given by its element types. -/
  | struct (elements : List Ty)
  | func (ret : Ty) (params : List Ty) (varArg : Bool)
  /-- A struct given by its name. -/
  | named (name : String)
deriving Repr, Inhabited, BEq

/-- The bodies of the identified structs that have one. -/
abbrev Bodies := Table (List Ty)

namespace Ty

/-! ### Tests -/

/-- Is the type LLVM's `ptr`? -/
def isOpaquePtr : Ty → Bool
  | opaquePtr => true
  | _ => false

/-- Is the type the one-bit integer? -/
def isBool : Ty → Bool
  | int 1 => true
  | _ => false

/-- Is the type `void`? -/
def isVoid : Ty → Bool
  | void => true
  | _ => false

mutual

/-- Can a constant of one type stand where the other type is asked for? An opaque
pointer agrees with every pointer, a struct with a name only with its own, and
labels with nothing. -/
def agrees : Ty → Ty → Bool
  | int w, int w' => w == w'
  | void, void | half, half | float, float | double, double | metadata, metadata => true
  | opaquePtr, opaquePtr | opaquePtr, ptr _ | ptr _, opaquePtr => true
  | ptr t, ptr t' => agrees t t'
  | array n t, array n' t' => n == n' && agrees t t'
  | vector n t, vector n' t' => n == n' && agrees t t'
  | struct ts, struct ts' => agreeAll ts ts'
  | func r ts v, func r' ts' v' => agrees r r' && agreeAll ts ts' && v == v'
  | named n, named n' => n == n'
  | _, _ => false

/-- Do the types of two lists agree one by one? -/
def agreeAll : List Ty → List Ty → Bool
  | [], [] => true
  | t :: ts, t' :: ts' => agrees t t' && agreeAll ts ts'
  | _, _ => false

end

/-- The type of pointers to a type; there is none for `void`. -/
def pointer? : Ty → Option Ty
  | void => none
  | opaquePtr => some opaquePtr
  | t => some (ptr t)

/-! ### Text -/

/-- The name of an identified struct between quotes; a backslash and a quote are
written by their codes. -/
def quotedName (name : String) : String :=
  let code (c : Char) : String :=
    if c == '\\' then "\\5c" else if c == '"' then "\\22" else String.singleton c
  "\"" ++ String.join (name.toList.map code) ++ "\""

/-- Items of a parameter list, with dots at the end of a variadic one. -/
def paramTexts (params : List String) (varArg : Bool) : String :=
  ", ".intercalate (if varArg then params ++ ["..."] else params)

mutual

/-- A type as it is written in the source. -/
def text : Ty → String
  | int w => "i" ++ toString w
  | void => "void"
  | half => "half"
  | float => "float"
  | double => "double"
  | label => "label"
  | metadata => "metadata"
  | opaquePtr => "ptr"
  | ptr t => t.text ++ "*"
  | array n t => "[" ++ toString n ++ " x " ++ t.text ++ "]"
  | vector n t => "<" ++ toString n ++ " x " ++ t.text ++ ">"
  | struct ts => "\x7b" ++ ", ".intercalate (texts ts) ++ "\x7d"
  | func r ts v => r.text ++ " (" ++ paramTexts (texts ts) v ++ ")"
  | named n => "%" ++ quotedName n

/-- The texts of a list of types. -/
def texts : List Ty → List String
  | [] => []
  | t :: ts => t.text :: texts ts

end

end Ty

end GoLift
