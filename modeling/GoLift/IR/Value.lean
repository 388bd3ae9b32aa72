import GoLift.IR.Ty
import GoLift.Number.Double

/-!
# Values

An operand is a local, a global or a constant. A constant is a type with a
`Payload`, and **the payload is not checked against the type** except where an
aggregate is filled: `Value.constant?` gives every element of an array, vector
or struct a constant of its own, and keeps any other payload as it is.
-/

set_option autoImplicit false

namespace GoLift

mutual

/-- An operand of an instruction, with its type. -/
inductive Value
  /-- A parameter or an instruction's result. -/
  | localRef (name : String) (type : Ty)
  /-- A function or a global variable. -/
  | globalRef (name : String) (type : Ty)
  | const (type : Ty) (payload : Payload)

/-- What a constant says beside its type. -/
inductive Payload
  /-- `null` or `zeroinitializer`. -/
  | null
  /-- `undef` or `poison`. -/
  | undef
  | int (n : Int)
  | float (x : Double)
  /-- Another operand in the place of a literal. -/
  | ref (v : Value)
  /-- The elements of an aggregate. -/
  | elements (vs : List Value)
  /-- A list under a type that has no elements. -/
  | list (items : List Payload)

end

instance : Inhabited Payload := ⟨.null⟩

instance : Inhabited Value := ⟨.const .void .null⟩

/-- The type a value is written with. -/
def Value.type : Value → Ty
  | .localRef _ t => t
  | .globalRef _ t => t
  | .const t _ => t

/-! ### Building constants -/

/-- Why a constant cannot be built. -/
inductive ConstantFault
  /-- There is no constant of type `void`. -/
  | void
  /-- The elements of a struct without a body are not known. -/
  | bodiless (name : String)
  /-- The number of items is not the number of elements of the type. -/
  | wrongSize (type : Ty) (items : Nat)
  /-- An array of negative length has no elements. -/
  | negativeLength
  /-- The length of an array does not fit a machine word. -/
  | lengthTooLarge
  /-- A vector repeats a constant of another type. -/
  | elementType
  /-- An integer is written with too many digits. -/
  | tooManyDigits (count : Nat)
  /-- An escape in a string is not two hexadecimal digits. -/
  | badDigits (shown : String)
  /-- An escape in a string is a negative number. -/
  | negativeByte
  /-- An escape in a string is cut off. -/
  | shortEscape (body : String)
  /-- An integer has no finite double near it. -/
  | doubleRange
  /-- A bit pattern has more than 64 bits. -/
  | patternTooWide

namespace Value

/-- The types of the elements of an aggregate filled with `n` items; `none` for
a type without elements. -/
def slots (bodies : Bodies) (type : Ty) (n : Nat) : Except ConstantFault (Option (List Ty)) :=
  let exactly (ts : List Ty) : Except ConstantFault (Option (List Ty)) :=
    if ts.length = n then .ok (some ts) else .error (.wrongSize type n)
  let repeatedly (count : Int) (t : Ty) : Except ConstantFault (Option (List Ty)) :=
    if count < 0 then .error .negativeLength
    else if ((Nat.pow 2 63 : Nat) : Int) ≤ count then .error .lengthTooLarge
    else if count = n then .ok (some (List.replicate n t))
    else .error (.wrongSize type n)
  match type with
  | .array count t => repeatedly count t
  | .vector count t => repeatedly count t
  | .struct ts => exactly ts
  | .named name =>
    match bodies.get? name with
    | some ts => exactly ts
    | none => .error (.bodiless name)
  | _ => .ok none

/-- A constant whose payload is kept, apart from what a scalar type decides: an
integer's `null` is zero, and a vector repeats its payload. -/
def plainConstant : Ty → Payload → Except ConstantFault Value
  | .void, _ => .error .void
  | .int w, .null => .ok (.const (.int w) (.int 0))
  | .vector count t, .ref (.const t' p) =>
    if t'.agrees t then
      .ok (.const (.vector count t) (.elements (List.replicate count.toNat (.const t' p))))
    else .error .elementType
  | .vector count t, p => do
    let item ← plainConstant t p
    return .const (.vector count t) (.elements (List.replicate count.toNat item))
  | t, p => .ok (.const t p)

mutual

/-- The constant of a type with a payload as it was written. A list under an
aggregate type fills its elements. -/
def constant? (bodies : Bodies) (type : Ty) : Payload → Except ConstantFault Value
  | .list items =>
    match type with
    | .void => .error .void
    | type => do
      match ← slots bodies type items.length with
      | some ts => return .const type (.elements (← constants? bodies ts items))
      | none => return .const type (.list items)
  | p => plainConstant type p

/-- The elements of an aggregate. An item that is a constant keeps its own type;
any other becomes a constant of the element's type. -/
def constants? (bodies : Bodies) : List Ty → List Payload → Except ConstantFault (List Value)
  | t :: ts, p :: ps => do
    let v ←
      match p with
      | .ref (.const t' p') => pure (.const t' p')
      | p => constant? bodies t p
    return v :: (← constants? bodies ts ps)
  | _, _ => return []

end

end Value

end GoLift
