import GoLift.CommandLine.Log
import GoLift.CommandLine.Options
import GoLift.Decompile
import GoLift.File.Store
import GoLift.Go.Printer
import GoLift.Source.Reader
import GoLift.Text.Lines

/-!
# Running a command line

Every input is read, decompiled with the feeds of its functions, and emitted:
to standard output, to a file, or as part of a JSON payload. **A run only needs
four operations on files**, given by `Files`, so the same run works on a
`Store` and on a real file system.

The feeds of all functions are read before the work on an input starts. Reading
changes nothing and a feed's fault is kept until its function asks for it, so
nobody can tell.
-/

set_option autoImplicit false

namespace GoLift.CommandLine

open Text

/-! ### Files -/

/-- What a run needs of files. -/
structure Files (m : Type → Type) where
  read : Path → m (Except FileFault (List UInt8))
  isDirectory : Path → m Bool
  /-- Make a directory and those it is in, as far as they are missing. -/
  makeDirectory : Path → m (Except FileFault Unit)
  write : Path → List UInt8 → m (Except FileFault Unit)

/-- A step that keeps the store if it fails. -/
def attemptOn (f : Store → Except FileFault Store) : StateM Store (Except FileFault Unit) :=
  fun s =>
    match f s with
    | .ok s' => (.ok (), s')
    | .error fault => (.error fault, s)

/-- The files of a store. -/
def storeFiles : Files (StateM Store) where
  read p := fun s => (s.read p, s)
  isDirectory p := fun s => (s.isDirectory p, s)
  makeDirectory p := attemptOn (·.makeDirectory p)
  write p bytes := attemptOn (·.write p bytes)

/-- A fault in reading a file. A path that cannot be one stops the work. -/
def readFault (cause : FileFault → Cause) : FileFault → Fault
  | .nullCharacter => .abort (.file .nullCharacter)
  | f => (cause f).fault

/-- The characters of a text file; every line ends in a line feed. -/
def textOf (unreadable : FileFault → Cause) (illFormed : Utf8Fault → Cause) :
    Except FileFault (List UInt8) → Except Fault (List Char)
  | .error f => .error (readFault unreadable f)
  | .ok bytes =>
    match decodeUtf8 bytes with
    | .ok cs => .ok (unifyNewlines cs)
    | .error f => .error (illFormed f).fault

/-! ### Feeds -/

/-- Where the feeds of an input are. -/
def feedDirectory (s : Settings) (source : Path) : Path :=
  (s.graphsDir.getD .blank).getD (source.sibling (source.stem ++ "_graphs"))

/-- Where the feed of a function is. -/
def feedPath (directory : Path) (function : String) : Path :=
  directory.join (Path.ofString (function ++ ".json"))

/-- The primitives of a feed, given what reading it comes to. -/
def feedOf (path : Path) (content : Except FileFault (List UInt8)) :
    Except Fault (List Primitive) := do
  let text ← textOf (.feedUnreadable path.text) (.feedEncoding path.text) content
  Primitive.ofFeed path.text text

variable {m : Type → Type} [Monad m]

/-- The feeds of functions. -/
def readFeeds (files : Files m) (directory : Path) :
    List Function → m (Table (Except Fault (List Primitive)))
  | [] => return {}
  | f :: fs => do
    let path := feedPath directory f.name
    let feed := feedOf path (← files.read path)
    return (← readFeeds files directory fs).put f.name feed

/-- Feeds that have been read. -/
def feedSource (feeds : Table (Except Fault (List Primitive))) : FeedSource := fun name =>
  (feeds.get? name).getD (.error (Cause.noFeed name).fault)

/-! ### One input -/

/-- What becomes of an input. -/
structure Emission where
  /-- The emitted code, if there is any. -/
  text : Option String := none
  errors : List Report := []
  events : List Event := []

/-- An input that comes to nothing. -/
def failed (events : List Event) : Fault → Except Abort Emission
  | .abort a => .error a
  | .report cause site => .ok { errors := [{ cause, site }], events }

/-- The policy of settings. -/
def Settings.policy (s : Settings) : Policy where
  keepGoing := s.keepGoing
  flushPartial := s.flushPartial
  jobs := s.jobs.getD 1

/-- What is told of an input before it is read. A module that the verifier
rejects is not the concern of this program. -/
def preamble (s : Settings) (source : Path) : List Event :=
  if s.verify then [.verified source.stem] else []

/-- Emit a module, given the feeds of its functions. -/
def emit (s : Settings) (before : List Event) (mod : Module) (feeds : FeedSource) :
    Except Abort Emission :=
  let (result, events) := mod.decompile feeds s.policy
  let events := before ++ events
  match result with
  | .error f => failed events f
  | .ok r =>
    match r.file with
    | none => .ok { errors := r.errors, events }
    | some file => do
      return { text := some (← Go.Printer.file file), errors := r.errors, events }

/-- The module of an input, given what reading it comes to. -/
def moduleOf (source : Path) (content : Except FileFault (List UInt8)) : Except Fault Module :=
  match textOf .sourceUnreadable .sourceEncoding content with
  | .error (.report cause _) => .error (.report cause { phase := some "reader" })
  | .error f => .error f
  | .ok text => Source.readModule source.stem text

/-- Is the input a text, so that it gets as far as the verifier? -/
def isText (content : Except FileFault (List UInt8)) : Bool :=
  match content with
  | .ok bytes => (decodeUtf8 bytes).toBool
  | .error _ => false

/-- Read an input and the feeds of its functions, and emit its module. -/
def process (files : Files m) (s : Settings) (source : Path) : m (Except Abort Emission) := do
  let content ← files.read source
  let before := if isText content then preamble s source else []
  match moduleOf source content with
  | .error f => return failed before f
  | .ok mod =>
    let defined := mod.functions.filter (·.blocks.isSome)
    let feeds ← readFeeds files (feedDirectory s source) defined
    return emit s before mod (feedSource feeds)

/-! ### Reports -/

/-- A diagnostic as a member of the JSON payload. -/
def diagnosticJson (source : Path) (d : Diagnostic) : String :=
  let list (xs : List String) : String := Json.listText (xs.map Json.stringText)
  Json.objectText
    [("phase", Json.stringText ((informative d.phase).getD "reader")),
      ("reason_code", Json.stringText d.reason.code),
      ("message", Json.stringText d.message),
      ("severity", Json.stringText "error"),
      ("file", Json.stringText source.text),
      ("function", Json.optionText d.function),
      ("labels", list d.labels),
      ("line", "null"),
      ("column", "null"),
      ("notes", list d.notes)]

/-- A diagnostic as a line of standard error. -/
def diagnosticLine (source : Path) (d : Diagnostic) : String :=
  source.text ++ ":" ++ (informative d.function).getD "?" ++ ": error: " ++ d.human ++ "\n"

/-- What a run has come to so far. -/
structure Transcript where
  exitCode : Nat := 0
  out : String := ""
  err : String := ""
  /-- The diagnostics of the payload. -/
  diagnostics : List String := []
  /-- The emitted code of the payload, by input. -/
  sources : Table String := {}

namespace Transcript

/-- Tell of events. -/
def tell (t : Transcript) (s : Settings) (events : List Event) : Transcript :=
  { t with err := t.err ++ String.join ((events.filter (·.isTold s.verbose)).map Event.line) }

/-- Report what is wrong with an input. -/
def report (t : Transcript) (s : Settings) (source : Path) (errors : List Report) : Transcript :=
  let ds := errors.map Report.diagnostic
  let t := if ds.isEmpty then t else { t with exitCode := 1 }
  if s.json then { t with diagnostics := t.diagnostics ++ ds.map (diagnosticJson source) }
  else { t with err := t.err ++ String.join (ds.map (diagnosticLine source)) }

/-- Show emitted code that goes to no file. -/
def display (t : Transcript) (s : Settings) (source : Path) (text : String) : Transcript :=
  if s.json then { t with sources := t.sources.put source.text text }
  else { t with out := t.out ++ text }

/-- The JSON payload. -/
def payload (t : Transcript) : String :=
  let sources := Json.objectText (t.sources.map Json.stringText).entries
  Json.objectText
    ([("exit_code", toString t.exitCode), ("diagnostics", Json.listText t.diagnostics)] ++
      if t.sources.entries.isEmpty then [] else [("sources", sources)])

/-- The end of a run. -/
def close (t : Transcript) (s : Settings) : Transcript :=
  if s.json then { t with out := t.out ++ t.payload ++ "\n" } else t

end Transcript

/-! ### Whole runs -/

/-- Where the emitted code of an input goes, if to a file. A directory, which is
made where several inputs need one, gets a file for each input. -/
def destination (files : Files m) (r : Request) (source : Path) :
    m (Except Abort (Option Path)) := do
  match r.settings.output with
  | none => return .ok none
  | some .blank => return .error .outputBlank
  | some (.value output) =>
    if r.many || (← files.isDirectory output) then
      match ← files.makeDirectory output with
      | .ok _ => return .ok (some (output.join { parts := [source.stem ++ ".go"] }))
      | .error f => return .error (.file f)
    else return .ok (some output)

/-- Put emitted code where it belongs. -/
def deliver (files : Files m) (r : Request) (source : Path) (t : Transcript) (text : String) :
    m (Except Abort Transcript) := do
  match ← destination files r source with
  | .error a => return .error a
  | .ok none => return .ok (t.display r.settings source text)
  | .ok (some path) =>
    match ← files.write path text.toUTF8.toList with
    | .ok _ => return .ok (t.tell r.settings [.wrote path.text])
    | .error f => return .error (.file f)

/-- Work on one input. -/
def runOne (files : Files m) (r : Request) (t : Transcript) (source : Path) :
    m (Except Abort Transcript) := do
  match ← process files r.settings source with
  | .error a => return .error a
  | .ok emission =>
    let t := (t.tell r.settings emission.events).report r.settings source emission.errors
    match emission.text with
    | none => return .ok t
    | some text => deliver files r source t text

/-- Work on all inputs. -/
def runAll (files : Files m) (r : Request) (t : Transcript) :
    List Path → m (Except Abort Transcript)
  | [] => return .ok t
  | source :: rest => do
    match ← runOne files r t source with
    | .error a => return .error a
    | .ok t => runAll files r t rest

/-- What is shown when help is asked for. -/
def usage : String :=
  "usage: ll2go [options] source [source ...]\n\noptions: " ++
    ", ".intercalate (Switch.all.map Switch.title) ++ "\n"

/-- Run a command line. -/
def run (files : Files m) (arguments : List String) : m (Except Abort Transcript) := do
  match Request.ofArguments arguments with
  | .error .help => return .ok { out := usage }
  | .error .jobsBlank => return .error .jobsBlank
  | .error (.misuse misuse) =>
    return .ok { exitCode := 2, err := "ll2go: error: " ++ misuse.message ++ "\n" }
  | .ok r =>
    match ← runAll files r {} r.sources with
    | .error a => return .error a
    | .ok t => return .ok (t.close r.settings)

end GoLift.CommandLine
