import GoLift.File.Fault
import GoLift.IR.Value
import GoLift.Json.Reader
import GoLift.Text.Utf8

/-!
# Faults

**A fault is its cause.** Whatever can go wrong with an input is a constructor
of `Cause`; the class of error it belongs to, its wording, the labels it names
and its notes are read off the cause. A cause is reported together with the
`Site` it happened at, the function and the phase of work, which is filled in
by whoever knows it and never overwritten.

Some inputs are not diagnosed at all: the work stops with an `Abort`, which no
policy of the caller keeps from ending the whole run.
-/

set_option autoImplicit false

namespace GoLift

/-! ### Classes of error -/

/-- The classes of error. -/
inductive Reason
  /-- An error of no particular class. -/
  | general
  /-- The input breaks a rule of the representation. -/
  | malformed
  /-- A primitive names a member that is not live. -/
  | unresolved
  /-- The primitives did not reduce the function to one block. -/
  | incomplete
  /-- An instruction, terminator or kind of primitive without a counterpart. -/
  | unsupported
  /-- A type without a counterpart. -/
  | unsupportedType
  /-- The input of a function is missing or cannot be decoded. -/
  | unavailable
deriving DecidableEq, Repr

/-- The stable code of a class. -/
def Reason.code : Reason → String
  | .general => "decompile-error"
  | .malformed => "malformed-input"
  | .unresolved => "unresolved-reference"
  | .incomplete => "reduction-incomplete"
  | .unsupported => "unsupported-construct"
  | .unsupportedType => "unsupported-type"
  | .unavailable => "input-unavailable"

/-- An error ready to be shown. -/
structure Diagnostic where
  reason : Reason
  message : String
  function : Option String := none
  phase : Option String := none
  labels : List String := []
  notes : List String := []
  /-- How many blocks an incomplete reduction left. -/
  remaining : Nat := 0

/-- The error on one line, for people. -/
def Diagnostic.human (d : Diagnostic) : String :=
  let head := "[" ++ d.reason.code ++ "] " ++ d.message
  let labels :=
    if d.labels.isEmpty then [] else ["labels=(" ++ ", ".intercalate d.labels ++ ")"]
  " ".intercalate (head :: labels ++ d.notes.map ("note: " ++ ·))

/-! ### Causes -/

/-- The wording of a fault in a constant, where reading reports it. The other
faults stop the work. -/
def ConstantFault.message? : ConstantFault → Option String
  | .wrongSize t n =>
    some ("wrong constant size for " ++ t.text ++ ": got " ++ toString n ++ " elements")
  | .negativeLength => some "__len__() should return >= 0"
  | .tooManyDigits n =>
    some ("Exceeds the limit (" ++ toString Text.maxDecimalDigits ++
      " digits) for integer string conversion: value has " ++ toString n ++
      " digits; use sys.set_int_max_str_digits() to increase the limit")
  | .badDigits shown => some ("invalid literal for int() with base 16: " ++ shown)
  | .negativeByte => some "byte must be in range(0, 256)"
  | _ => none

/-- A thing that has no counterpart in the emitted language. -/
inductive Construct
  | instruction (kind : String)
  | binary (op : String)
  | icmp (pred : String)
  | fcmp (pred : String)
  | cast (op : String)
  | dynamicAlloca
  | terminator (kind : String)
  | primitive (kind : String)
  /-- A many-way branch in the condition of a primitive. -/
  | switchIn (primitive label : String)

/-- The construct in words. -/
def Construct.text : Construct → String
  | .instruction kind => "instruction " ++ kind
  | .binary op => "binary operator '" ++ op ++ "'"
  | .icmp pred => "icmp predicate '" ++ pred ++ "'"
  | .fcmp pred => "fcmp predicate '" ++ pred ++ "'"
  | .cast op => "cast '" ++ op ++ "'"
  | .dynamicAlloca => "dynamic alloca"
  | .terminator kind => "terminator " ++ kind
  | .primitive kind => "primitive kind '" ++ kind ++ "'"
  | .switchIn region _ => "terminator Switch in " ++ region

/-- What is wrong with a record of a primitive feed. -/
inductive RecordFault
  | notObject
  | kind
  | nodes
  | members
  | key (name : String)

/-- The fault in words. -/
def RecordFault.text : RecordFault → String
  | .notObject => "expected an object"
  | .kind => "missing or non-string 'prim'"
  | .nodes => "'nodes' must map role names to block labels"
  | .members => "'members' must be a list of block labels"
  | .key name => "'" ++ name ++ "' must be a string"

/-- What is wrong with a primitive feed. -/
inductive FeedFault
  /-- The document is not JSON. -/
  | notJson (message : String)
  | notList
  | record (index : Nat) (fault : RecordFault)

/-- The fault in words. -/
def FeedFault.text : FeedFault → String
  | .notJson message => "invalid JSON: " ++ message
  | .notList => "expected a list of primitive records"
  | .record index fault => "primitive record #" ++ toString index ++ ": " ++ fault.text

/-- What is wrong with an input. -/
inductive Cause
  /-- No module continues like this. `context` shows the place. -/
  | unparsable (source : String) (line column : Nat) (context : String)
  | shortEscape (body : String)
  | constant (type : Ty) (why : String) (line : Nat)
  /-- A value is returned without being given. -/
  | valueMissing (type : Ty) (line : Nat)
  | repeatedLabels (function : String) (labels : List String) (line : Nat)
  /-- A name is defined as something else than a struct. -/
  | notStruct (name : String) (line : Nat)
  /-- A block has no terminator. -/
  | openBlock (label : String)
  | unknownTarget (block target : String)
  | phiRepeats (dest block : String) (labels : List String)
  | phiMismatch (dest block : String) (missing extra : List String)
  | intWidth (width : Nat)
  | noCounterpart (type : Ty)
  | noZero (type : Ty)
  | constantType (type : Ty)
  | unsupported (construct : Construct)
  /-- A branch is left when the function has been reduced. -/
  | branchExit (kind : String)
  /-- Nothing ends the function. -/
  | openEnd
  | duplicateLabel (label : String)
  | missingRoles (primitive : String) (roles : List String)
  | memberRepeated (primitive label : String)
  /-- A member is not live; `consumer` took it, if anything did. -/
  | memberDead (primitive label role : String) (consumer : Option String)
  | nodeTaken (label primitive : String)
  | condNotBranch (label primitive : String)
  | notSuccessor (target cond primitive : String)
  | bodyStays (label primitive : String)
  | armsMismatch (primitive cond first second : String)
  /-- The blocks with these labels are left. -/
  | incomplete (labels : List String)
  | noFeed (function : String)
  | feed (source : String) (fault : FeedFault)
  | feedUnreadable (path : String) (fault : FileFault)
  | feedEncoding (path : String) (fault : Text.Utf8Fault)
  | sourceUnreadable (fault : FileFault)
  | sourceEncoding (fault : Text.Utf8Fault)

namespace Cause

/-- The name of a type's kind in messages. -/
def kindOfType : Ty → String
  | .int _ => "IntType"
  | .void => "VoidType"
  | .half => "HalfType"
  | .float => "FloatType"
  | .double => "DoubleType"
  | .label => "LabelType"
  | .metadata => "MetaDataType"
  | .opaquePtr => "PointerType"
  | .ptr _ => "_TypedPointerType"
  | .array .. => "ArrayType"
  | .vector .. => "VectorType"
  | .struct _ => "LiteralStructType"
  | .func .. => "FunctionType"
  | .named _ => "IdentifiedStructType"

/-- The class of error a cause belongs to. -/
def reason : Cause → Reason
  | unparsable .. | shortEscape _ | constant .. | valueMissing .. | repeatedLabels ..
  | notStruct .. | openBlock _ | unknownTarget .. | phiRepeats .. | phiMismatch ..
  | branchExit _ | openEnd | duplicateLabel _ | missingRoles .. | nodeTaken ..
  | condNotBranch .. | notSuccessor .. | bodyStays .. | armsMismatch .. => .malformed
  | intWidth _ | noCounterpart _ | noZero _ | constantType _ => .unsupportedType
  | unsupported _ => .unsupported
  | memberRepeated .. | memberDead .. => .unresolved
  | incomplete _ => .incomplete
  | noFeed _ | feed .. | feedUnreadable .. | feedEncoding .. | sourceUnreadable _
  | sourceEncoding _ => .unavailable

/-- Text between single quotes. -/
def tick (s : String) : String := "'" ++ s ++ "'"

/-- Why a member is not live. -/
def deadness : Option String → String
  | some consumer => if consumer.isEmpty then "no such block" else "already consumed by " ++ consumer
  | none => "no such block"

/-- The wording of a cause. -/
def message : Cause → String
  | unparsable source line column _ =>
    source ++ ":" ++ toString line ++ ":" ++ toString column ++ ": cannot parse IR"
  | shortEscape body => "bad string escape in c\"" ++ body ++ "\""
  | constant type why _ => "invalid constant of type " ++ tick type.text ++ ": " ++ why
  | valueMissing type _ => "ret of type " ++ tick type.text ++ " needs a value"
  | repeatedLabels function labels _ =>
    "function '@" ++ function ++ "' defines block label(s) more than once: " ++
      ", ".intercalate labels
  | notStruct name _ => "type '%" ++ name ++ "' must be a struct"
  | openBlock label => "block " ++ tick label ++ " has no terminator"
  | unknownTarget block target =>
    "terminator of block " ++ tick block ++ " references unknown label " ++ tick target
  | phiRepeats dest block _ =>
    "phi '%" ++ dest ++ "' in block " ++ tick block ++ " lists predecessor(s) more than once"
  | phiMismatch dest block _ _ =>
    "phi '%" ++ dest ++ "' in block " ++ tick block ++
      " does not match the block's predecessors"
  | intWidth width => "integer width " ++ toString width ++ " has no Go counterpart"
  | noCounterpart type =>
    "type " ++ tick type.text ++ " (" ++ kindOfType type ++ ") has no Go counterpart"
  | noZero type => "type " ++ tick type.text ++ " has no zero value"
  | constantType type =>
    "support for constant of type " ++ tick type.text ++ " not yet implemented"
  | unsupported construct => "support for " ++ construct.text ++ " not yet implemented"
  | branchExit kind => "control leaves the function body through a branch (" ++ kind ++ ")"
  | openEnd => "block has no terminator"
  | duplicateLabel label => "duplicate block label " ++ tick label
  | missingRoles primitive roles =>
    "primitive " ++ primitive ++ " is missing role(s): " ++ ", ".intercalate roles
  | memberRepeated primitive label =>
    "primitive " ++ primitive ++ " references " ++ tick label ++ " more than once"
  | memberDead primitive label role consumer =>
    "primitive " ++ primitive ++ " member " ++ tick label ++ " (" ++ role ++
      ") is not live: " ++ deadness consumer
  | nodeTaken label primitive =>
    "node name " ++ tick label ++ " of primitive " ++ primitive ++ " is already a live block"
  | condNotBranch label primitive =>
    "cond member " ++ tick label ++ " of " ++ primitive ++
      " does not end in a conditional branch"
  | notSuccessor target cond primitive =>
    tick target ++ " is not a successor of cond member " ++ tick cond ++ " in " ++ primitive
  | bodyStays label primitive =>
    "body " ++ tick label ++ " of " ++ primitive ++ " does not leave the function"
  | armsMismatch primitive cond _ _ =>
    "arms of " ++ primitive ++ " are not the successors of cond member " ++ tick cond
  | incomplete labels =>
    "control flow recovery failed: expected 1 block after reduction, got " ++
      toString labels.length
  | noFeed function => "no primitive list for function " ++ tick function
  | feed source fault => source ++ ": " ++ fault.text
  | feedUnreadable path fault =>
    "cannot read primitive feed " ++ tick path ++ ": " ++ fault.message
  | feedEncoding path fault =>
    "primitive feed " ++ tick path ++ " is not valid UTF-8: " ++ fault.message
  | sourceUnreadable fault => "cannot read IR file: " ++ fault.message
  | sourceEncoding fault => "IR file is not valid UTF-8: " ++ fault.message

/-- The labels a cause names. -/
def labels : Cause → List String
  | openBlock label | duplicateLabel label => [label]
  | unknownTarget block target => [block, target]
  | phiRepeats _ _ labels => labels
  | phiMismatch _ block missing extra => block :: missing ++ extra
  | unsupported (.switchIn _ label) => [label]
  | memberRepeated _ label | memberDead _ label _ _ => [label]
  | nodeTaken label _ | condNotBranch label _ | bodyStays label _ => [label]
  | notSuccessor target cond _ => [cond, target]
  | armsMismatch _ cond first second => [cond, first, second]
  | incomplete labels => labels
  | _ => []

/-- A list of labels under a heading, unless it is empty. -/
def listing (heading : String) (labels : List String) : List String :=
  if labels.isEmpty then [] else [heading ++ ": " ++ ", ".intercalate labels]

/-- The notes of a cause. -/
def notes : Cause → List String
  | unparsable _ _ _ context => [context]
  | constant _ _ line | valueMissing _ line | repeatedLabels _ _ line | notStruct _ line =>
    ["line " ++ toString line]
  | phiMismatch _ _ missing extra =>
    listing "missing incoming for" missing ++ listing "not a predecessor" extra
  | _ => []

end Cause

/-! ### Aborts -/

/-- Work that stops without a diagnostic. -/
inductive Abort
  /-- A pointer to `void` is asked for. -/
  | voidPointer
  /-- Memory is asked for to hold metadata. -/
  | metadataMemory
  /-- A constant, or a number in a type, cannot be built, in a way that is not
  diagnosed. -/
  | constant (fault : ConstantFault)
  /-- A struct is given a second body. -/
  | bodyTwice (name : String)
  /-- A struct has the empty name. -/
  | unnamedStruct
  /-- A finite number is infinite in single precision. -/
  | singleRange
  /-- An infinity has no integer part. -/
  | infiniteInteger
  /-- Not-a-number has no integer part. -/
  | nanInteger
  /-- A constant's payload does not suit its type. -/
  | payload
  /-- A node cannot be printed in its place. -/
  | unprintable (place kind : String)
  /-- A binary operator has no precedence. -/
  | operator (symbol : String)
  /-- The successors of an unknown terminator are asked for. -/
  | terminator (kind : String)
  /-- An instruction of an unknown kind is asked for its result. -/
  | resultless (kind : String)
  /-- No block has the label. -/
  | noBlock (label : String)
  /-- A consumed block's label is not in the label map. -/
  | unmapped (label : String)
  /-- No block has the handle. -/
  | handle (handle : Int)
  /-- A module is lowered without a source of primitives. -/
  | noFeeds
  /-- A JSON document holds an integer of too many digits. -/
  | longInteger
  /-- The number of jobs is left blank. -/
  | jobsBlank
  /-- There is emitted code, and where it goes is left blank. -/
  | outputBlank
  /-- A file or directory cannot be made or written, or a path cannot be used. -/
  | file (fault : FileFault)

/-- The wording of an abort, where it has one. -/
def Abort.message? : Abort → Option String
  | .unprintable place kind =>
    some (if place.isEmpty then "cannot print " ++ kind else "cannot print " ++ place ++ " " ++ kind)
  | .terminator kind => some ("unknown terminator " ++ kind)
  | .noFeeds => some "either prims or options.graphs_dir is required"
  | _ => none

/-! ### Faults at their site -/

/-- Where a fault happened, as far as it is known. -/
structure Site where
  function : Option String := none
  phase : Option String := none
deriving DecidableEq, Repr

/-- Anything that keeps work from being done. -/
inductive Fault
  | report (cause : Cause) (site : Site)
  | abort (abort : Abort)

/-- A text that says something. -/
def informative (s : Option String) : Option String :=
  s.filter (!·.isEmpty)

/-- Fill in where a reported fault happened, unless it already says so. -/
def Fault.within (function phase : String) : Fault → Fault
  | .report cause site =>
    .report cause
      { function := (informative site.function).or (some function)
        phase := (informative site.phase).or (some phase) }
  | .abort a => .abort a

/-- The diagnostic of a cause. -/
def Cause.diagnostic (c : Cause) (site : Site) : Diagnostic where
  reason := c.reason
  message := c.message
  function := site.function
  phase := site.phase
  labels := c.labels
  notes := c.notes
  remaining :=
    match c with
    | .incomplete labels => labels.length
    | _ => 0

/-- A cause reported from nowhere in particular. -/
def Cause.fault (c : Cause) : Fault := .report c {}

/-- A fault in a constant of a type, on a line of the source. -/
def ConstantFault.inSource (f : ConstantFault) (type : Ty) (line : Nat) : Fault :=
  match f, f.message? with
  | .shortEscape body, _ => (Cause.shortEscape body).fault
  | _, some why => (Cause.constant type why line).fault
  | f, none => .abort (.constant f)

end GoLift
