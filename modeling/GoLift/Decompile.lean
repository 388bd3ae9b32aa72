import GoLift.Assembly
import GoLift.Region.Feed

/-!
# Decompiling functions and modules

A function is worked on in five phases: its phi copies, its instructions, its
primitives, the reduction, and the assembly. A fault says in which function and
phase it happened. **Functions share nothing**, so a failing one cannot touch
another; what becomes of the rest of the module is the caller's `Policy`.
-/

set_option autoImplicit false

namespace GoLift

open Go (FuncDecl File)

/-- Where a function's primitives come from. -/
abbrev FeedSource := String → Except Fault (List Primitive)

/-- Feeds given by a table. -/
def FeedSource.ofTable (feeds : Table (List Primitive)) : FeedSource := fun name =>
  match feeds.get? name with
  | some ps => .ok ps
  | none => .error (Cause.noFeed name).fault

/-- A fault that a diagnostic reports. -/
structure Report where
  cause : Cause
  site : Site

/-- The report ready to be shown. -/
def Report.diagnostic (r : Report) : Diagnostic := r.cause.diagnostic r.site

/-- A function that was decompiled. -/
structure FunctionResult where
  name : String
  decl : FuncDecl
  /-- What the declaration needs at the top of the file. -/
  records : Records

/-! ### Functions -/

/-- Say where the faults of some work happen. -/
def DraftM.inPhase {α : Type} (function phase : String) (x : DraftM α) : DraftM α := fun d =>
  match x d with
  | (.error f, d) => (.error (f.within function phase), d)
  | (.ok a, d) => (.ok a, d)

/-- Work on a function with blocks. -/
def Function.decompileM (f : Function) (setup : Setup) (feeds : FeedSource) : DraftM FuncDecl := do
  let scope := setup.scope
  let buffers ← DraftM.inPhase f.name "phi" (phiBuffers scope f.body)
  let registry ← DraftM.inPhase f.name "translate" (Registry.seed scope buffers f.body)
  let prims ← DraftM.inPhase f.name "feed" (DraftM.ofExcept (feeds f.name))
  let block ← DraftM.inPhase f.name "reduce" (registry.reduce scope prims)
  let decl ← DraftM.inPhase f.name "assemble" (f.assemble scope setup.params block)
  DraftM.tell (.finished f.name prims.length)
  return decl

/-- Decompile a function; what happened on the way comes with the result. A
declaration needs no primitives. -/
def Function.decompile (f : Function) (globals : List String) (feeds : FeedSource) :
    Except Fault FunctionResult × List Event :=
  match f.blocks with
  | none =>
    match f.declaration {} with
    | (.ok decl, records) => (.ok { name := f.name, decl, records }, [])
    | (.error fault, _) => (.error (fault.within f.name "translate"), [])
  | some _ =>
    match f.setup globals with
    | .error a => (.error (.abort a), [])
    | .ok setup =>
      match f.decompileM setup feeds setup.draft with
      | (.ok decl, d) => (.ok { name := f.name, decl, records := d.records }, d.trace)
      | (.error fault, d) => (.error fault, d.trace)

/-! ### Modules -/

/-- What to do about functions that fail. -/
structure Policy where
  /-- Go on with the next function. -/
  keepGoing : Bool := false
  /-- If the work ends at a failing function, still emit the ones before it. -/
  flushPartial : Bool := false
  /-- How many functions may be worked on at a time. -/
  jobs : Int := 1

/-- A function that was worked on. -/
structure Outcome where
  name : String
  result : Except Report FunctionResult

/-- The outcome of a module. -/
structure ModuleResult where
  /-- The file, unless nothing may be emitted. -/
  file : Option File
  /-- The functions in the file. -/
  kept : List FunctionResult
  /-- The functions that failed. -/
  errors : List Report

/-- Has the outcome a fault? -/
def Outcome.failed (o : Outcome) : Bool :=
  match o.result with
  | .error _ => true
  | .ok _ => false

/-- Work on functions in order; `stopEarly` ends it at the first that fails. A
function that stops without a diagnostic stops everything. -/
def runFunctions (globals : List String) (feeds : FeedSource) (stopEarly : Bool) :
    List Function → Except Abort (List Outcome) × List Event
  | [] => (.ok [], [])
  | f :: fs =>
    let (result, events) := f.decompile globals feeds
    match result with
    | .error (.abort a) => (.error a, events)
    | .error (.report cause site) =>
      let o : Outcome := { name := f.name, result := .error { cause, site } }
      if stopEarly then (.ok [o], events)
      else
        let (rest, events') := runFunctions globals feeds stopEarly fs
        ((o :: ·) <$> rest, events ++ events')
    | .ok r =>
      let (rest, events') := runFunctions globals feeds stopEarly fs
      (({ name := f.name, result := .ok r } :: ·) <$> rest, events ++ events')

/-- The functions to keep, the errors to report, and what to tell about them. -/
def Policy.settle (policy : Policy) :
    List Outcome → List FunctionResult × List Report × List Event
  | [] => ([], [], [])
  | o :: os =>
    match o.result with
    | .ok r =>
      let (kept, errors, events) := policy.settle os
      (r :: kept, errors, events)
    | .error e =>
      if policy.keepGoing then
        let (kept, errors, events) := policy.settle os
        (kept, e :: errors, .skipped o.name e.diagnostic.human :: events)
      else ([], [e], [.stopped o.name])

/-- What several functions need together. -/
def Records.merge (rs : List Records) : Records where
  imports := firsts (rs.flatMap Records.imports)
  named := firsts (rs.flatMap Records.named)

/-- Decompile a module under a policy. With several jobs every function is worked
on before the first failing one is looked at. -/
def Module.decompile (m : Module) (feeds : FeedSource) (policy : Policy) :
    Except Fault ModuleResult × List Event :=
  let parallel := decide (1 < policy.jobs) && decide (1 < m.functions.length)
  let (outcomes, events) :=
    runFunctions m.globalNames feeds (!policy.keepGoing && !parallel) m.functions
  match outcomes with
  | .error a => (.error (.abort a), events)
  | .ok outcomes =>
    let (kept, errors, told) := policy.settle outcomes
    let events := events ++ told
    if !errors.isEmpty && !policy.keepGoing && !policy.flushPartial then
      (.ok { file := none, kept, errors }, events)
    else
      match m.file (kept.map FunctionResult.decl) (Records.merge (kept.map FunctionResult.records)) with
      | .ok file => (.ok { file := some file, kept, errors }, events)
      | .error f => (.error (f.within "" "assemble"), events)

end GoLift
