import GoLift.Decompile
import Mathlib.Data.List.Forall2
import Mathlib.Data.List.TakeWhile

/-!
# What becomes of a module's functions

A function comes to an outcome, a result or a report, or it stops without a diagnostic
(`Function.outcome`). If every function comes to an outcome, **the outcome of the module can be
read off theirs** (`Module.decompile_of_outcomes`): how far the work went before it looked at them
makes no difference, because what lies behind the first failure is either wanted or never looked
at (`Policy.settle_upToFailure`).

A file is made from the results to keep and from what the module says outside of its functions.
So a failing function cannot be told from one that is not there (`Module.failures_isolated`):
`Module.keeping` is what is left of a module when its failing functions are taken out, and
`Module.upToFailure` what is left when it ends before the first of them.
-/

set_option autoImplicit false

namespace GoLift

open Go (File)

/-! ### One function -/

namespace Function

variable (f : Function) (globals : List String) (feeds : FeedSource)

/-- The outcome of a function, unless it stops without a diagnostic. -/
def outcome : Except Abort Outcome :=
  match (f.decompile globals feeds).1 with
  | .ok result => .ok { name := f.name, result := .ok result }
  | .error (.report cause site) => .ok { name := f.name, result := .error { cause, site } }
  | .error (.abort a) => .error a

/-- The result of a function that is decompiled. -/
def result? : Option FunctionResult :=
  (f.decompile globals feeds).1.toOption

/-- The report of a function that fails. -/
def report? : Option Report :=
  match (f.decompile globals feeds).1 with
  | .error (.report cause site) => some { cause, site }
  | _ => none

/-- Is the function decompiled? -/
def succeeds : Bool :=
  (f.result? globals feeds).isSome

end Function

variable {f : Function} {fs : List Function} {globals : List String} {feeds : FeedSource}
  {m : Module} {policy : Policy} {o : Outcome} {os : List Outcome}

/-- A function that comes to an outcome succeeds or fails. -/
theorem Function.outcome_cases (h : f.outcome globals feeds = .ok o) :
    (∃ r, o.result = .ok r ∧ f.result? globals feeds = some r ∧ f.report? globals feeds = none) ∨
      ∃ e, o.result = .error e ∧ f.result? globals feeds = none ∧
        f.report? globals feeds = some e := by
  unfold Function.outcome at h
  unfold Function.result? Function.report?
  split at h
  · next r hr =>
    cases h
    exact .inl ⟨r, rfl, by rw [hr]; rfl, by rw [hr]⟩
  · next cause site hr =>
    cases h
    exact .inr ⟨{ cause, site }, rfl, by rw [hr]; rfl, by rw [hr]⟩
  · cases h

/-- A function that is decompiled has a result. -/
theorem Function.decompile_ok (h : f.succeeds globals feeds = true) :
    ∃ r, (f.decompile globals feeds).1 = .ok r := by
  unfold Function.succeeds Function.result? at h
  cases hd : (f.decompile globals feeds).1 with
  | error e => simp [hd, Except.toOption] at h
  | ok r => exact ⟨r, rfl⟩

/-- A function that is decompiled has no report. -/
theorem Function.report?_eq_none (h : f.succeeds globals feeds = true) :
    f.report? globals feeds = none := by
  obtain ⟨r, hr⟩ := Function.decompile_ok h
  rw [Function.report?, hr]

/-- Functions that are not decompiled have no results. -/
theorem Function.filterMap_result? :
    (fs.filter (·.succeeds globals feeds)).filterMap (·.result? globals feeds) =
      fs.filterMap (·.result? globals feeds) := by
  rw [List.filterMap_filter]
  refine List.filterMap_congr fun f _ => ?_
  unfold Function.succeeds
  cases f.result? globals feeds <;> rfl

/-! ### Working on the functions in order -/

/-- The functions come to these outcomes. -/
def ComeTo (globals : List String) (feeds : FeedSource) : List Function → List Outcome → Prop :=
  List.Forall₂ fun f o => f.outcome globals feeds = .ok o

/-- If each function comes to an outcome, they come to a list of outcomes. -/
theorem ComeTo.of_each (h : ∀ f ∈ fs, ∃ o, f.outcome globals feeds = .ok o) :
    ∃ os, ComeTo globals feeds fs os := by
  induction fs with
  | nil => exact ⟨[], .nil⟩
  | cons f fs ih =>
    obtain ⟨⟨o, ho⟩, hfs⟩ := List.forall_mem_cons.1 h
    obtain ⟨os, hos⟩ := ih hfs
    exact ⟨o :: os, .cons ho hos⟩

/-- The outcomes up to the first failure. -/
def Outcome.upToFailure : List Outcome → List Outcome
  | [] => []
  | o :: os => if o.failed then [o] else o :: upToFailure os

/-- The work goes on behind a function that has come to an outcome, unless that is a failure at
which it ends. -/
theorem runFunctions_cons (stopEarly : Bool) :
    (runFunctions globals feeds stopEarly (f :: fs)).1 = (do
      let o ← f.outcome globals feeds
      if stopEarly && o.failed then return [o]
      else return o :: (← (runFunctions globals feeds stopEarly fs).1)) := by
  unfold Function.outcome
  rw [runFunctions]
  rcases hd : f.decompile globals feeds with ⟨⟨cause, site⟩ | b, events⟩
  · cases stopEarly <;> rfl
  · rfl
  · cases stopEarly <;> rfl

/-- Without an early end, every function is worked on. -/
theorem ComeTo.runFunctions_all (h : ComeTo globals feeds fs os) :
    (runFunctions globals feeds false fs).1 = .ok os := by
  induction h with
  | nil => rfl
  | cons ho _ ih =>
    rw [runFunctions_cons, ho, ih]
    rfl

/-- With an early end, the outcomes are those up to the first failure. -/
theorem ComeTo.runFunctions_early (h : ComeTo globals feeds fs os) :
    (runFunctions globals feeds true fs).1 = .ok (Outcome.upToFailure os) := by
  induction h with
  | nil => rfl
  | @cons f o fs os ho _ ih =>
    rw [runFunctions_cons, ho, ih, Outcome.upToFailure]
    show (if (true && o.failed) = true then _ else _) = _
    cases o.failed <;> rfl

/-! ### Settling the outcomes -/

namespace Policy

variable (policy : Policy) (globals : List String) (feeds : FeedSource) (fs : List Function)

/-- The results that a policy keeps: all of them, or the ones before the first failure. -/
def results : List FunctionResult :=
  (if policy.keepGoing then fs else fs.takeWhile (·.succeeds globals feeds)).filterMap
    (·.result? globals feeds)

/-- The reports that a policy gives: all of them, or the first. -/
def reports : List Report :=
  if policy.keepGoing then fs.filterMap (·.report? globals feeds)
  else (fs.filterMap (·.report? globals feeds)).take 1

variable {globals feeds fs}

theorem settle_eq (h : ComeTo globals feeds fs os) :
    (policy.settle os).1 = policy.results globals feeds fs ∧
      (policy.settle os).2.1 = policy.reports globals feeds fs := by
  unfold results reports
  induction h with
  | nil => cases policy.keepGoing <;> exact ⟨rfl, rfl⟩
  | cons ho _ ih =>
    rcases Function.outcome_cases ho with ⟨r, hr, hresult, hreport⟩ | ⟨e, he, hresult, hreport⟩ <;>
      cases hkeep : policy.keepGoing <;>
      simp_all [settle, Function.succeeds]

variable {policy}

/-- What lies behind the first failure is not looked at. -/
theorem settle_upToFailure (h : policy.keepGoing = false) :
    policy.settle (Outcome.upToFailure os) = policy.settle os := by
  induction os with
  | nil => rfl
  | cons o os ih =>
    rw [Outcome.upToFailure, settle]
    unfold Outcome.failed
    rcases ho : o.result with e | r
    · simp [settle, ho, h]
    · simp [settle, ho, ih]

end Policy

/-! ### The outcome of a module -/

namespace Module

/-- The file of the functions to keep. -/
def keptFile (m : Module) (kept : List FunctionResult) : Except Fault File :=
  match m.file (kept.map FunctionResult.decl) (Records.merge (kept.map FunctionResult.records)) with
  | .ok file => .ok file
  | .error f => .error (f.within "" "assemble")

/-- The outcome of a module with these results to keep and reports to give. -/
def conclude (m : Module) (policy : Policy) (kept : List FunctionResult) (errors : List Report) :
    Except Fault ModuleResult :=
  if !errors.isEmpty && !policy.keepGoing && !policy.flushPartial then
    .ok { file := none, kept, errors }
  else return { file := some (← m.keptFile kept), kept, errors }

theorem decompile_eq (m : Module) (feeds : FeedSource) (policy : Policy) :
    (m.decompile feeds policy).1 =
      match (runFunctions m.globalNames feeds (!policy.keepGoing &&
        !(decide (1 < policy.jobs) && decide (1 < m.functions.length))) m.functions).1 with
      | .error a => .error (.abort a)
      | .ok os => m.conclude policy (policy.settle os).1 (policy.settle os).2.1 := by
  unfold decompile conclude keptFile
  simp only
  generalize runFunctions _ _ _ _ = ran
  rcases ran with ⟨a | os, events⟩
  · rfl
  · simp only
    split
    · simp
    · cases m.file _ _ <;> simp

/-- **If every function comes to an outcome, so does the module, and it depends on theirs
only.** -/
theorem decompile_of_outcomes (h : ComeTo m.globalNames feeds m.functions os) :
    (m.decompile feeds policy).1 =
      m.conclude policy (policy.results m.globalNames feeds m.functions)
        (policy.reports m.globalNames feeds m.functions) := by
  obtain ⟨hkept, herrors⟩ := policy.settle_eq h
  rw [decompile_eq, ← hkept, ← herrors]
  generalize hearly : (!policy.keepGoing && _) = early
  cases early with
  | false => rw [h.runFunctions_all]
  | true =>
    have hkeep : policy.keepGoing = false := by
      simpa using (Bool.and_eq_true_iff.1 hearly).1
    rw [h.runFunctions_early]
    simp only [Policy.settle_upToFailure hkeep]

/-- No function stops without a diagnostic. -/
def Diagnosed (m : Module) (feeds : FeedSource) : Prop :=
  ∀ f ∈ m.functions, ∀ a, (f.decompile m.globalNames feeds).1 ≠ .error (.abort a)

theorem Diagnosed.outcomes (h : m.Diagnosed feeds) :
    ∃ os, ComeTo m.globalNames feeds m.functions os := by
  refine ComeTo.of_each fun f hf => ?_
  unfold Function.outcome
  split
  · exact ⟨_, rfl⟩
  · exact ⟨_, rfl⟩
  · next a ha => exact absurd ha (h f hf a)

theorem Diagnosed.decompile_eq (h : m.Diagnosed feeds) :
    (m.decompile feeds policy).1 =
      m.conclude policy (policy.results m.globalNames feeds m.functions)
        (policy.reports m.globalNames feeds m.functions) :=
  let ⟨_, hos⟩ := h.outcomes
  decompile_of_outcomes hos

/-- What becomes of the file: it is made, or nothing may be emitted, or it cannot be made. -/
def fileOutcome (m : Module) (feeds : FeedSource) (policy : Policy) : Except Fault (Option File) :=
  ModuleResult.file <$> (m.decompile feeds policy).1

theorem conclude_file {kept : List FunctionResult} {errors : List Report} :
    ModuleResult.file <$> m.conclude policy kept errors =
      if !errors.isEmpty && !policy.keepGoing && !policy.flushPartial then .ok none
      else some <$> m.keptFile kept := by
  unfold conclude
  split
  · rfl
  · cases m.keptFile kept <;> rfl

/-- The results and the reports stand in the outcome as they are, and the file is made from these
results. -/
theorem conclude_ok {kept : List FunctionResult} {errors : List Report} {result : ModuleResult}
    (h : m.conclude policy kept errors = .ok result) :
    result.kept = kept ∧ result.errors = errors ∧
      ∀ file, result.file = some file → m.keptFile kept = .ok file := by
  unfold conclude at h
  split at h
  · cases h
    exact ⟨rfl, rfl, fun file hfile => nomatch hfile⟩
  · cases hk : m.keptFile kept with
    | error e =>
      rw [hk] at h
      cases h
    | ok file =>
      rw [hk] at h
      cases h
      refine ⟨rfl, rfl, fun file' hfile => ?_⟩
      cases hfile
      rfl

/-! ### Taking functions out -/

section Parts

variable (m : Module) (feeds : FeedSource)

/-- The functions that are decompiled. -/
def decompiled : List Function :=
  m.functions.filter (·.succeeds m.globalNames feeds)

/-- The functions before the first failing one. -/
def beforeFailure : List Function :=
  m.functions.takeWhile (·.succeeds m.globalNames feeds)

/-- The module without its failing functions. -/
def keeping : Module := { m with functions := m.decompiled feeds }

/-- The module cut off before its first failing function. -/
def upToFailure : Module := { m with functions := m.beforeFailure feeds }

end Parts

theorem succeeds_of_mem_beforeFailure (hf : f ∈ m.beforeFailure feeds) :
    f.succeeds m.globalNames feeds = true := by
  unfold beforeFailure at hf
  have hsucceeds := List.mem_takeWhile_imp hf
  exact hsucceeds

/-- A module all of whose functions are decompiled has the file of all their results. -/
theorem fileOutcome_of_succeeds (hfs : ∀ f ∈ fs, f.succeeds m.globalNames feeds = true) :
    ({ m with functions := fs } : Module).fileOutcome feeds policy =
      some <$> m.keptFile (fs.filterMap (·.result? m.globalNames feeds)) := by
  have hd : ({ m with functions := fs } : Module).Diagnosed feeds := by
    intro f hf a ha
    obtain ⟨r, hr⟩ := Function.decompile_ok (hfs f hf)
    exact nomatch hr.symm.trans ha
  have hreports : policy.reports m.globalNames feeds fs = [] := by
    have hnone : fs.filterMap (·.report? m.globalNames feeds) = [] :=
      List.filterMap_eq_nil_iff.2 fun f hf => Function.report?_eq_none (hfs f hf)
    simp [Policy.reports, hnone]
  have hresults : policy.results m.globalNames feeds fs =
      fs.filterMap (·.result? m.globalNames feeds) := by
    simp [Policy.results, List.takeWhile_eq_self_iff.2 hfs]
  show ModuleResult.file <$> _ = _
  rw [hd.decompile_eq, conclude_file]
  show (if (!(policy.reports m.globalNames feeds fs).isEmpty && _ && _) = true then _
    else some <$> m.keptFile (policy.results m.globalNames feeds fs)) = _
  rw [hreports, hresults]
  rfl

theorem Diagnosed.fileOutcome_eq (hd : m.Diagnosed feeds) :
    m.fileOutcome feeds policy =
      if !(policy.reports m.globalNames feeds m.functions).isEmpty && !policy.keepGoing &&
          !policy.flushPartial then .ok none
      else some <$> m.keptFile (policy.results m.globalNames feeds m.functions) := by
  rw [fileOutcome, hd.decompile_eq, conclude_file]

/-- Nothing is reported exactly if every function is decompiled. -/
theorem Diagnosed.reports_eq_nil (hd : m.Diagnosed feeds) :
    policy.reports m.globalNames feeds m.functions = [] ↔
      ∀ f ∈ m.functions, f.succeeds m.globalNames feeds = true := by
  have hnone : policy.reports m.globalNames feeds m.functions = [] ↔
      m.functions.filterMap (·.report? m.globalNames feeds) = [] := by
    unfold Policy.reports
    cases policy.keepGoing <;> simp
  rw [hnone, List.filterMap_eq_nil_iff]
  refine forall₂_congr fun f hf => ⟨fun h => ?_, Function.report?_eq_none⟩
  unfold Function.report? at h
  unfold Function.succeeds Function.result?
  rcases hr : (f.decompile m.globalNames feeds).1 with ⟨⟨cause, site⟩ | a⟩ | r
  · rw [hr] at h
    cases h
  · exact absurd hr (hd f hf a)
  · rfl

/-- **A failing function is as good as absent.** If the work goes on, the file is the one of the
module without the failing functions; if it ends and what comes before is flushed, the file is the
one of the module that ends before the first of them; otherwise there is no file exactly if a
function fails. The reports are those of the failing functions in order, or the first of them. The
file is made from the results that are kept, and these are results of functions that succeed. -/
theorem failures_isolated (hd : m.Diagnosed feeds) :
    (policy.keepGoing = true →
      m.fileOutcome feeds policy = (m.keeping feeds).fileOutcome feeds policy) ∧
    (policy.keepGoing = false → policy.flushPartial = true →
      m.fileOutcome feeds policy = (m.upToFailure feeds).fileOutcome feeds policy) ∧
    (policy.keepGoing = false → policy.flushPartial = false →
      (m.fileOutcome feeds policy = .ok none ↔
        ∃ f ∈ m.functions, f.succeeds m.globalNames feeds = false)) ∧
    ∀ result, (m.decompile feeds policy).1 = .ok result →
      result.errors =
        (if policy.keepGoing then m.functions.filterMap (·.report? m.globalNames feeds)
        else (m.functions.filterMap (·.report? m.globalNames feeds)).take 1) ∧
      result.kept =
        (if policy.keepGoing then m.decompiled feeds else m.beforeFailure feeds).filterMap
          (·.result? m.globalNames feeds) ∧
      ∀ file, result.file = some file → m.keptFile result.kept = .ok file := by
  refine ⟨fun hkeep => ?_, fun hkeep hflush => ?_, fun hkeep hflush => ?_, fun result hok => ?_⟩
  · have hall : ∀ f ∈ m.decompiled feeds, f.succeeds m.globalNames feeds = true :=
      fun f hf => (List.mem_filter.1 hf).2
    rw [hd.fileOutcome_eq, keeping, fileOutcome_of_succeeds hall, decompiled,
      Function.filterMap_result?]
    simp [hkeep, Policy.results]
  · have hall : ∀ f ∈ m.beforeFailure feeds, f.succeeds m.globalNames feeds = true :=
      fun f => succeeds_of_mem_beforeFailure
    rw [hd.fileOutcome_eq, upToFailure, fileOutcome_of_succeeds hall, beforeFailure]
    simp [hkeep, hflush, Policy.results]
  · have hsome : (∃ f ∈ m.functions, f.succeeds m.globalNames feeds = false) ↔
        policy.reports m.globalNames feeds m.functions ≠ [] := by
      rw [Ne, hd.reports_eq_nil]
      simp
    rw [hsome, hd.fileOutcome_eq]
    cases hr : policy.reports m.globalNames feeds m.functions with
    | nil => cases m.keptFile _ <;> simp
    | cons e es => simp [hkeep, hflush]
  · obtain ⟨hkept, herrors, hfile⟩ := conclude_ok (hd.decompile_eq.symm.trans hok)
    refine ⟨herrors, ?_, hkept ▸ hfile⟩
    rw [hkept, Policy.results, decompiled, beforeFailure]
    cases policy.keepGoing
    · rfl
    · exact Function.filterMap_result?.symm

end Module

namespace Mixed

/-- A declaration that is translated. -/
def good : Function := { name := "good", ret := .void }

/-- A declaration that fails at its last parameter, when an import and a struct are recorded. -/
def bad : Function where
  name := "bad"
  ret := .void
  params := [{ name := "", type := .opaquePtr }, { name := "", type := .named "S" },
    { name := "", type := .half }]

/-- A failing function before one that succeeds. -/
def program : Module := { name := "mixed", functions := [bad, good] }

/-- No function has primitives. -/
def noFeeds : FeedSource := FeedSource.ofTable {}

/-- Going on after a failing function. -/
def goingOn : Policy := { keepGoing := true }

theorem declaration_good : good.declaration {} = (.ok { name := "good", type := {} }, {}) := by
  simp only [good, Function.declaration, Function.signature, goSignature, List.map_nil, goTypes,
    goResults]
  rfl

theorem declaration_bad :
    bad.declaration {} =
      (.error (Cause.noCounterpart .half).fault, { imports := ["unsafe"], named := ["S"] }) := by
  simp only [bad, Function.declaration, Function.signature, goSignature, List.map_cons,
    List.map_nil, goTypes, goType]
  rfl

theorem decompile_good :
    good.decompile [] noFeeds =
      (.ok { name := "good", decl := { name := "good", type := {} }, records := {} }, []) := by
  have hblocks : good.blocks = none := rfl
  simp only [Function.decompile, hblocks, declaration_good]
  rfl

theorem decompile_bad :
    bad.decompile [] noFeeds =
      (.error ((Cause.noCounterpart .half).fault.within "bad" "translate"), []) := by
  have hblocks : bad.blocks = none := rfl
  simp only [Function.decompile, hblocks, declaration_bad]
  rfl

theorem diagnosed : program.Diagnosed noFeeds := by
  have hbad : ∀ a, (bad.decompile [] noFeeds).1 ≠ .error (.abort a) := by
    rw [decompile_bad]
    exact nofun
  have hgood : ∀ a, (good.decompile [] noFeeds).1 ≠ .error (.abort a) := by
    rw [decompile_good]
    exact nofun
  exact List.forall_mem_cons.2 ⟨hbad, List.forall_mem_singleton.2 hgood⟩

theorem succeeds_good : good.succeeds [] noFeeds = true := by
  rw [Function.succeeds, Function.result?, decompile_good]
  rfl

theorem keeping_eq : program.keeping noFeeds = { program with functions := [good] } := by
  have hbad : bad.succeeds [] noFeeds = false := by
    rw [Function.succeeds, Function.result?, decompile_bad]
    rfl
  show { program with functions := [bad, good].filter (·.succeeds [] noFeeds) } = _
  simp [hbad, succeeds_good]

/-- What the failing declaration records is not in the file. -/
theorem records_dropped :
    program.Diagnosed noFeeds ∧ (bad.declaration {}).2 = { imports := ["unsafe"], named := ["S"] } ∧
      program.fileOutcome noFeeds goingOn =
        ({ program with functions := [good] } : Module).fileOutcome noFeeds goingOn ∧
      ∃ file, program.fileOutcome noFeeds goingOn = .ok (some file) ∧ file.imports = [] := by
  have hfile : program.fileOutcome noFeeds goingOn =
      ({ program with functions := [good] } : Module).fileOutcome noFeeds goingOn :=
    keeping_eq ▸ (Module.failures_isolated diagnosed).1 rfl
  have hresults : [good].filterMap (·.result? program.globalNames noFeeds) =
      [{ name := "good", decl := { name := "good", type := {} }, records := {} }] := by
    show [good].filterMap (·.result? [] noFeeds) = _
    simp [Function.result?, decompile_good, Except.toOption]
  refine ⟨diagnosed, by rw [declaration_bad], hfile, ?_⟩
  rw [hfile, Module.fileOutcome_of_succeeds (List.forall_mem_singleton.2 succeeds_good), hresults]
  refine ⟨_, rfl, ?_⟩
  exact List.mergeSort_nil

end Mixed

end GoLift
