import GoLift.File.Path
import GoLift.Text.Integer
import GoLift.Text.Quoted

/-!
# Reading the command line

A command line is a list of arguments. An argument is an *option* or an
*operand*; after `--` every argument is an operand.

* A long option may be cut short as far as it stays the only one, and may carry
  its value after an equals sign.
* Short options may be written together behind one dash; what follows one that
  takes a value is its value. An equals sign is skipped only behind the first of
  them.
* An option that takes a value and carries none takes the next argument, which
  must be an operand.
* An option that carries `--` is given, but its value is left blank.

**Only the first run of operands names the inputs**: operands after a further
option are left over. What is left over is reported last, after everything that
is wrong with the options themselves.
-/

set_option autoImplicit false

namespace GoLift.CommandLine

open Text

/-! ### The options -/

/-- The options. -/
inductive Switch
  | help
  | graphsDir
  | output
  | keepGoing
  | flushPartial
  | verify
  | jobs
  | json
  | verbose
deriving DecidableEq, Repr

namespace Switch

/-- All options, in the order in which they are listed. -/
def all : List Switch :=
  [help, graphsDir, output, keepGoing, flushPartial, verify, jobs, json, verbose]

/-- The names of an option. -/
def names : Switch → List String
  | help => ["-h", "--help"]
  | graphsDir => ["--graphs-dir"]
  | output => ["-o", "--output"]
  | keepGoing => ["--keep-going"]
  | flushPartial => ["--flush-partial"]
  | verify => ["--verify"]
  | jobs => ["--jobs"]
  | json => ["--json"]
  | verbose => ["-v", "--verbose"]

/-- Does the option take a value? -/
def takesValue : Switch → Bool
  | graphsDir | output | jobs => true
  | _ => false

/-- The option in messages. -/
def title (s : Switch) : String := "/".intercalate s.names

/-- Every name with its option. -/
def table : List (List Char × Switch) :=
  all.flatMap (fun s => s.names.map (fun n => (n.toList, s)))

/-- The option of a full name. -/
def ofName? (name : List Char) : Option Switch := table.lookup name

end Switch

/-- The value of an option that is given. -/
inductive Given (α : Type)
  /-- Nothing is there to read. -/
  | blank
  | value (a : α)

/-- A value, or what holds where it is left blank. -/
def Given.getD {α : Type} : Given α → α → α
  | blank, default => default
  | value a, _ => a

/-- What is asked for. -/
structure Settings where
  /-- Where the primitive feeds are, if not beside the input. -/
  graphsDir : Option (Given Path) := none
  /-- Where the emitted code goes, if not to standard output. -/
  output : Option (Given Path) := none
  keepGoing : Bool := false
  flushPartial : Bool := false
  verify : Bool := false
  jobs : Given Int := .value 1
  json : Bool := false
  verbose : Bool := false

/-- Settings for a list of inputs. -/
structure Request where
  settings : Settings
  sources : List Path

/-- Do several inputs share the settings? -/
def Request.many (r : Request) : Bool := 1 < r.sources.length

/-- What is wrong with a command line. -/
inductive Misuse
  /-- An option is cut too short. -/
  | ambiguous (argument : String) (candidates : List String)
  | valueMissing (s : Switch)
  /-- A value is given to an option that takes none. -/
  | valueIgnored (s : Switch) (value : String)
  | notInteger (s : Switch) (value : String)
  | noSource
  /-- Arguments are left over. -/
  | leftOver (arguments : List String)
  | sharedGraphsDir
  | tooFewJobs
deriving DecidableEq, Repr

/-- The misuse in words. -/
def Misuse.message : Misuse → String
  | ambiguous argument candidates =>
    "ambiguous option: " ++ argument ++ " could match " ++ ", ".intercalate candidates
  | valueMissing s => "argument " ++ s.title ++ ": expected one argument"
  | valueIgnored s value =>
    "argument " ++ s.title ++ ": ignored explicit argument " ++ quoted value
  | notInteger s value => "argument " ++ s.title ++ ": invalid int value: " ++ quoted value
  | noSource => "the following arguments are required: source"
  | leftOver arguments => "unrecognized arguments: " ++ " ".intercalate arguments
  | sharedGraphsDir => "--graphs-dir accepts a single input file"
  | tooFewJobs => "--jobs must be at least 1"

/-- Why no work is done. -/
inductive Stop
  /-- Only help is asked for. -/
  | help
  | misuse (m : Misuse)
  /-- The number of jobs is left blank. -/
  | jobsBlank
deriving DecidableEq, Repr

/-! ### Arguments -/

/-- An argument. -/
inductive Argument
  | operand (text : String)
  /-- Two dashes, behind which every argument is an operand. -/
  | dashes
  /-- An option, with the text that it carries in its own argument. -/
  | option (s : Switch) (long : Bool) (attached : Option (List Char))
  /-- Something like an option that is none. -/
  | unknown (text : String)

/-- A text up to its first equals sign, and what follows that sign, if there is
one. -/
def splitEquals (cs : List Char) : List Char × Option (List Char) :=
  match cs.dropWhile (· != '=') with
  | [] => (cs, none)
  | _ :: value => (cs.takeWhile (· != '='), some value)

/-- Is the text a negative number, which is an operand? -/
def isNegativeNumber (cs : List Char) : Bool :=
  let cs := if cs.getLast? = some '\n' then cs.dropLast else cs
  match cs with
  | '-' :: number =>
    match number.dropWhile isDecimal with
    | [] => !number.isEmpty
    | '.' :: fraction => !fraction.isEmpty && fraction.all isDecimal
    | _ => false
  | _ => false

/-- The options that an argument may mean: those whose long name it starts, or
the one whose short name starts it. -/
def candidates (cs : List Char) : List (List Char × Argument) :=
  match cs with
  | '-' :: '-' :: _ =>
    let (start, value) := splitEquals cs
    (Switch.table.filter (fun e => start.isPrefixOf e.1)).map (fun e =>
      (e.1, .option e.2 true value))
  | '-' :: c :: rest =>
    match Switch.ofName? ['-', c] with
    | some s => [(['-', c], .option s false (some rest))]
    | none => []
  | _ => []

/-- Is the name one with two dashes? -/
def isLong : List Char → Bool
  | '-' :: '-' :: _ => true
  | _ => false

/-- The option that is written in full, with a value after an equals sign if
there is one. -/
def exactOption? (cs : List Char) : Option Argument :=
  match Switch.ofName? cs, splitEquals cs with
  | some s, _ => some (.option s (isLong cs) none)
  | none, (name, some value) =>
    (Switch.ofName? name).map (fun s => .option s (isLong name) (some value))
  | none, (_, none) => none

/-- What an argument that starts with a dash is. -/
def dashed (text : String) : Except Misuse Argument :=
  let cs := text.toList
  match exactOption? cs, candidates cs with
  | some a, _ => .ok a
  | none, [(_, a)] => .ok a
  | none, [] =>
    if isNegativeNumber cs || cs.contains ' ' then .ok (.operand text) else .ok (.unknown text)
  | none, several => .error (.ambiguous text (several.map (fun e => String.ofList e.1)))

/-- What an argument is. -/
def argument (text : String) : Except Misuse Argument :=
  match text.toList with
  | '-' :: _ :: _ => dashed text
  | _ => .ok (.operand text)

/-- What the arguments of a command line are. -/
def arguments : List String → Except Misuse (List Argument)
  | [] => .ok []
  | a :: as =>
    if a == "--" then .ok (.dashes :: as.map .operand)
    else do return (← argument a) :: (← arguments as)

/-! ### Options written together -/

/-- How an argument with options ends. -/
inductive Ending
  | done
  /-- The last option has its value. -/
  | value (s : Switch) (text : String)
  /-- The last option takes the next argument. -/
  | awaits (s : Switch)

/-- The options in one argument: those without a value, and how it ends. -/
structure Cluster where
  flags : List Switch := []
  ending : Ending := .done

/-- An option to which nothing is attached. -/
def Cluster.bare (s : Switch) : Cluster :=
  if s.takesValue then { ending := .awaits s } else { flags := [s] }

/-- A further option before those of a cluster. -/
def Cluster.cons (s : Switch) (c : Cluster) : Cluster :=
  { c with flags := s :: c.flags }

/-- A short option with attached text, which is its value or holds further short
options. -/
def shortCluster (s : Switch) : List Char → Except Misuse Cluster
  | [] =>
    if s.takesValue then .ok { ending := .value s "" } else .error (.valueIgnored s "")
  | c :: cs =>
    if s.takesValue then .ok { ending := .value s (String.ofList (c :: cs)) }
    else
      match Switch.ofName? ['-', c] with
      | none => .error (.valueIgnored s (String.ofList (c :: cs)))
      | some s' =>
        match cs with
        | [] => .ok ((Cluster.bare s').cons s)
        | d :: ds => Cluster.cons s <$> shortCluster s' (d :: ds)

/-- The options of an argument. -/
def cluster (s : Switch) (long : Bool) : Option (List Char) → Except Misuse Cluster
  | none => .ok (.bare s)
  | some text =>
    if !long then shortCluster s text
    else if s.takesValue then .ok { ending := .value s (String.ofList text) }
    else .error (.valueIgnored s (String.ofList text))

/-! ### The whole line -/

/-- The operands that name inputs: none seen yet, still in the first run of
operands, or all of them. -/
inductive Sources
  | none
  | running (paths : List String)
  | finished (paths : List String)

/-- What has been seen of a command line. -/
structure Seen where
  settings : Settings := {}
  sources : Sources := .none
  leftOver : List String := []

namespace Seen

/-- Something that belongs nowhere. -/
def stray (seen : Seen) (text : String) : Seen :=
  { seen with leftOver := seen.leftOver ++ [text] }

/-- An operand. -/
def operand (seen : Seen) (text : String) : Seen :=
  match seen.sources with
  | .none => { seen with sources := .running [text] }
  | .running paths => { seen with sources := .running (paths ++ [text]) }
  | .finished _ => seen.stray text

/-- `--`, which is left over where an operand would be. -/
def dashes (seen : Seen) : Seen :=
  match seen.sources with
  | .finished _ => seen.stray "--"
  | _ => seen

/-- An option ends a run of operands. -/
def interrupted (seen : Seen) : Seen :=
  match seen.sources with
  | .running paths => { seen with sources := .finished paths }
  | _ => seen

/-- The integer of a value. -/
def integer (s : Switch) (text : String) : Except Stop Int :=
  let cs := text.toList
  match readInteger 10 cs with
  | some n =>
    if maxDecimalDigits < (cs.filter isDecimal).length then .error (.misuse (.notInteger s text))
    else .ok n
  | none => .error (.misuse (.notInteger s text))

/-- The value that a text gives. Two dashes give none. -/
def given {α : Type} (read : String → Except Stop α) (text : String) : Except Stop (Given α) :=
  if text == "--" then .ok .blank else .value <$> read text

/-- An option with its value, if it takes one. -/
def switch (seen : Seen) (s : Switch) (value : String) : Except Stop Seen :=
  let o := seen.settings
  let on (o : Settings) : Except Stop Seen := .ok { seen with settings := o }
  let path (text : String) : Except Stop Path := .ok (Path.ofString text)
  match s with
  | .help => .error .help
  | .graphsDir => do on { o with graphsDir := some (← given path value) }
  | .output => do on { o with output := some (← given path value) }
  | .keepGoing => on { o with keepGoing := true }
  | .flushPartial => on { o with flushPartial := true }
  | .verify => on { o with verify := true }
  | .jobs => do on { o with jobs := ← given (integer s) value }
  | .json => on { o with json := true }
  | .verbose => on { o with verbose := true }

/-- Options without values. -/
def flags (seen : Seen) (ss : List Switch) : Except Stop Seen :=
  ss.foldlM (fun seen s => seen.switch s "") seen

/-- All arguments, one after the other. -/
def read (seen : Seen) : List Argument → Except Stop Seen
  | [] => .ok seen
  | .operand text :: rest => (seen.operand text).read rest
  | .dashes :: rest => seen.dashes.read rest
  | .unknown text :: rest => (seen.interrupted.stray text).read rest
  | .option s long attached :: rest =>
    match cluster s long attached with
    | .error m => .error (.misuse m)
    | .ok c =>
      match c.ending, rest with
      | .done, rest => do (← seen.interrupted.flags c.flags).read rest
      | .value s text, rest => do (← (← seen.interrupted.flags c.flags).switch s text).read rest
      | .awaits s, .operand text :: rest => do
        (← (← seen.interrupted.flags c.flags).switch s text).read rest
      | .awaits s, _ => .error (.misuse (.valueMissing s))

/-- The operands that name inputs. -/
def paths (seen : Seen) : List String :=
  match seen.sources with
  | .none => []
  | .running paths | .finished paths => paths

/-- The request that has been seen, if it is one. -/
def request (seen : Seen) : Except Stop Request :=
  let r : Request := { settings := seen.settings, sources := seen.paths.map Path.ofString }
  let misuse (m : Misuse) : Except Stop Request := .error (.misuse m)
  if r.sources.isEmpty then misuse .noSource
  else if !seen.leftOver.isEmpty then misuse (.leftOver seen.leftOver)
  else if seen.settings.graphsDir.isSome && r.many then misuse .sharedGraphsDir
  else
    match seen.settings.jobs with
    | .blank => .error .jobsBlank
    | .value n => if n < 1 then misuse .tooFewJobs else .ok r

end Seen

/-- The request of a command line. -/
def Request.ofArguments (texts : List String) : Except Stop Request :=
  match arguments texts with
  | .error m => .error (.misuse m)
  | .ok as => do (← Seen.read {} as).request

end GoLift.CommandLine
