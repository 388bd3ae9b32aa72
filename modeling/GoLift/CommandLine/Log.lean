import GoLift.Lower.Draft

/-!
# The log

What is told of an event, by which part of the program, and how urgent it is. A
line of the log gives the level first. **Only what the user must know is told
unasked**: everything else is for a verbose run.
-/

set_option autoImplicit false

namespace GoLift

namespace CommandLine

/-- How urgent a line of the log is. -/
inductive Level
  | debug
  | warning
deriving DecidableEq, Repr

/-- The level as it is written. -/
def Level.text : Level → String
  | debug => "DEBUG"
  | warning => "WARNING"

end CommandLine

namespace Event

open CommandLine (Level)

/-- How urgent an event is. -/
def level : Event → Level
  | skipped .. => .warning
  | _ => .debug

/-- The part of the program that tells of an event. -/
def teller : Event → String
  | captured .. => "ll2go.stage1.resolve"
  | reduced .. => "ll2go.stage2.reducer"
  | finished .. | skipped .. | stopped _ => "ll2go.decompiler"
  | wrote _ => "ll2go.driver"
  | verified _ => "ll2go.verify"

/-- What is told of an event. -/
def text : Event → String
  | captured label copies =>
    "phi copies out of " ++ label ++ " need temporaries (" ++ toString copies ++ " assignments)"
  | reduced primitive label => "reduced " ++ primitive ++ " into '" ++ label ++ "'"
  | finished function primitives =>
    "decompiled @" ++ function ++ " (" ++ toString primitives ++ " primitives)"
  | skipped function why => "skipping @" ++ function ++ ": " ++ why
  | stopped function => "stopping at @" ++ function ++ " (fail-fast)"
  | wrote path => "wrote " ++ path
  | verified source => source ++ ": LLVM verifier accepted the module"

/-- Is an event told? -/
def isTold (verbose : Bool) (e : Event) : Bool :=
  verbose || e.level == .warning

/-- The line of the log for an event. -/
def line (e : Event) : String :=
  e.level.text ++ " " ++ e.teller ++ ": " ++ e.text ++ "\n"

end Event

end GoLift
