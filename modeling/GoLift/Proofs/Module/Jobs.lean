import GoLift.Proofs.Module.Outcomes

/-!
# Whether the number of jobs can be seen

One job ends the work at the first failing function; several jobs finish every function and cut
the outcomes off afterwards. The functions up to the first failing one come to the same either way
(`runFunctions_append`), so **the only way to tell is a function behind the first failing one that
stops without a diagnostic** (`Module.hiddenAbort?`): one job does not get to it, and with several
jobs it stops everything (`Module.jobs_unseen_iff`).

`Crashing` is a module whose outcome depends on the number of jobs.
-/

set_option autoImplicit false

namespace GoLift

/-- What stops a function that comes to no outcome. -/
def Function.abort? (f : Function) (globals : List String) (feeds : FeedSource) : Option Abort :=
  match f.outcome globals feeds with
  | .error a => some a
  | .ok _ => none

variable {f : Function} {fs before after : List Function} {globals : List String}
  {feeds : FeedSource} {m : Module} {policy : Policy} {a : Abort}

theorem Function.abort?_eq_some :
    f.abort? globals feeds = some a ↔ f.outcome globals feeds = .error a := by
  unfold Function.abort?
  cases f.outcome globals feeds <;> simp

/-- A function comes to an outcome unless something stops it. -/
theorem Function.abort?_eq_none :
    f.abort? globals feeds = none ↔ ∃ o, f.outcome globals feeds = .ok o := by
  unfold Function.abort?
  cases f.outcome globals feeds <;> simp

/-- A function that is decompiled comes to an outcome that is no failure. -/
theorem Function.outcome_of_succeeds (h : f.succeeds globals feeds = true) :
    ∃ o, f.outcome globals feeds = .ok o ∧ o.failed = false := by
  obtain ⟨r, hr⟩ := Function.decompile_ok h
  refine ⟨_, by rw [Function.outcome, hr], rfl⟩

/-- A function that is reported comes to an outcome that is a failure. -/
theorem Function.outcome_of_report? {e : Report} (h : f.report? globals feeds = some e) :
    ∃ o, f.outcome globals feeds = .ok o ∧ o.failed = true := by
  unfold Function.report? at h
  split at h
  · next hr =>
    refine ⟨_, by rw [Function.outcome, hr], rfl⟩
  · cases h

/-! ### Runs of the work -/

/-- Behind functions that do not end the work, it goes on. -/
theorem runFunctions_append {stopEarly : Bool}
    (h : ∀ f ∈ before, ∃ o, f.outcome globals feeds = .ok o ∧ (stopEarly && o.failed) = false) :
    ∃ os, ∀ fs, (runFunctions globals feeds stopEarly (before ++ fs)).1 =
      (os ++ ·) <$> (runFunctions globals feeds stopEarly fs).1 := by
  induction before with
  | nil => exact ⟨[], fun fs => (id_map _).symm⟩
  | cons f before ih =>
    obtain ⟨⟨o, ho, hgo⟩, hbefore⟩ := List.forall_mem_cons.1 h
    obtain ⟨os, hos⟩ := ih hbefore
    refine ⟨o :: os, fun fs => ?_⟩
    rw [List.cons_append, runFunctions_cons, ho, hos]
    show (if (stopEarly && o.failed) = true then _ else _) = _
    rw [hgo]
    cases (runFunctions globals feeds stopEarly fs).1 <;> rfl

/-- The first function that stops without a diagnostic stops the work, unless that has ended
before. -/
theorem runFunctions_abort {stopEarly : Bool}
    (hbefore : ∀ f ∈ before, ∃ o, f.outcome globals feeds = .ok o ∧ (stopEarly && o.failed) = false)
    (ha : f.outcome globals feeds = .error a) :
    (runFunctions globals feeds stopEarly (before ++ f :: after)).1 = .error a := by
  obtain ⟨os, hos⟩ := runFunctions_append hbefore
  rw [hos, runFunctions_cons, ha]
  rfl

/-- If every function is worked on, the first one that stops without a diagnostic stops the
work. -/
theorem runFunctions_all_abort (h : fs.findSome? (·.abort? globals feeds) = some a) :
    (runFunctions globals feeds false fs).1 = .error a := by
  obtain ⟨before, f, after, rfl, ha, hbefore⟩ := List.findSome?_eq_some_iff.1 h
  refine runFunctions_abort (fun g hg => ?_) (Function.abort?_eq_some.1 ha)
  obtain ⟨o, ho⟩ := Function.abort?_eq_none.1 (hbefore g hg)
  exact ⟨o, ho, rfl⟩

/-- With an early end, what lies behind the first failing function is not worked on. -/
theorem runFunctions_early_failing (hbefore : ∀ f ∈ before, f.succeeds globals feeds = true)
    {e : Report} (hf : f.report? globals feeds = some e) :
    (runFunctions globals feeds true (before ++ f :: after)).1 =
      (runFunctions globals feeds true (before ++ [f])).1 := by
  have hgo : ∀ g ∈ before, ∃ o, g.outcome globals feeds = .ok o ∧ (true && o.failed) = false :=
    fun g hg => Function.outcome_of_succeeds (hbefore g hg)
  obtain ⟨os, hos⟩ := runFunctions_append hgo
  obtain ⟨o, ho, hfailed⟩ := Function.outcome_of_report? hf
  rw [hos, hos, runFunctions_cons, runFunctions_cons, ho]
  show _ <$> (if (true && o.failed) = true then _ else _) =
    _ <$> (if (true && o.failed) = true then _ else _)
  rw [hfailed]
  rfl

/-! ### One job and several -/

/-- The policy for one job. -/
def Policy.oneJob (policy : Policy) : Policy := { policy with jobs := 1 }

theorem Policy.settle_oneJob (os : List Outcome) : policy.oneJob.settle os = policy.settle os := by
  induction os with
  | nil => rfl
  | cons o os ih =>
    rw [Policy.settle, Policy.settle, ih]
    rfl

namespace Module

/-- What stops a function behind the first one that is not decompiled, if that one is reported. -/
def hiddenAbort? (m : Module) (feeds : FeedSource) : Option Abort :=
  match m.functions.dropWhile (·.succeeds m.globalNames feeds) with
  | [] => none
  | f :: after =>
    (f.report? m.globalNames feeds).bind fun _ => after.findSome? (·.abort? m.globalNames feeds)

theorem functions_split (m : Module) (feeds : FeedSource) :
    m.functions = m.beforeFailure feeds ++
      m.functions.dropWhile (·.succeeds m.globalNames feeds) :=
  List.takeWhile_append_dropWhile.symm

/-- The functions before the first failing one, that one, and what hides behind it. -/
theorem hiddenAbort?_eq_some (h : m.hiddenAbort? feeds = some a) :
    ∃ f after e, m.functions = m.beforeFailure feeds ++ f :: after ∧
      f.report? m.globalNames feeds = some e ∧
      after.findSome? (·.abort? m.globalNames feeds) = some a := by
  unfold hiddenAbort? at h
  split at h
  · cases h
  · next f after hdrop =>
    obtain ⟨e, he, ha⟩ := Option.bind_eq_some_iff.1 h
    exact ⟨f, after, e, hdrop ▸ m.functions_split feeds, he, ha⟩

theorem outcome_of_mem_beforeFailure (hf : f ∈ m.beforeFailure feeds) :
    ∃ o, f.outcome m.globalNames feeds = .ok o ∧ o.failed = false :=
  Function.outcome_of_succeeds (succeeds_of_mem_beforeFailure hf)

theorem exists_outcome_of_mem_beforeFailure (hf : f ∈ m.beforeFailure feeds) :
    ∃ o, f.outcome m.globalNames feeds = .ok o :=
  (outcome_of_mem_beforeFailure hf).imp fun _ ho => ho.1

/-- Behind the functions before the first failing one stands one that is not decompiled. -/
theorem not_succeeds_of_dropWhile
    (h : m.functions.dropWhile (·.succeeds m.globalNames feeds) = f :: after) :
    f.succeeds m.globalNames feeds = false := by
  have hhead := List.head?_dropWhile_not (fun g => g.succeeds m.globalNames feeds) m.functions
  rw [h] at hhead
  exact hhead

/-- If nothing is hidden, either every function comes to an outcome, or the work is stopped in the
same way whether or not it may end early. -/
theorem outcomes_or_abort (h : m.hiddenAbort? feeds = none) :
    (∃ os, ComeTo m.globalNames feeds m.functions os) ∨
      ∃ a, ∀ stopEarly,
        (runFunctions m.globalNames feeds stopEarly m.functions).1 = .error a := by
  have hsplit := m.functions_split feeds
  unfold hiddenAbort? at h
  split at h
  · next hdrop =>
    left
    rw [hsplit, hdrop, List.append_nil]
    exact ComeTo.of_each fun f => exists_outcome_of_mem_beforeFailure
  · next f after hdrop =>
    rw [hdrop] at hsplit
    cases ho : f.outcome m.globalNames feeds with
    | error a =>
      right
      refine ⟨a, fun stopEarly => ?_⟩
      rw [hsplit]
      refine runFunctions_abort (fun g hg => ?_) ho
      obtain ⟨o, hok, hfailed⟩ := outcome_of_mem_beforeFailure hg
      exact ⟨o, hok, by rw [hfailed, Bool.and_false]⟩
    | ok o =>
      left
      have hfails := not_succeeds_of_dropWhile hdrop
      have hafter : after.findSome? (·.abort? m.globalNames feeds) = none := by
        rcases Function.outcome_cases ho with ⟨r, -, hresult, -⟩ | ⟨e, -, -, hreport⟩
        · rw [Function.succeeds, hresult] at hfails
          cases hfails
        · rw [hreport] at h
          exact h
      rw [hsplit]
      refine ComeTo.of_each fun g hg => ?_
      rcases List.mem_append.1 hg with hg | hg
      · exact exists_outcome_of_mem_beforeFailure hg
      · rcases List.mem_cons.1 hg with rfl | hg
        · exact ⟨o, ho⟩
        · exact Function.abort?_eq_none.1 (List.findSome?_eq_none_iff.1 hafter g hg)

/-- If nothing is hidden, the number of jobs makes no difference. -/
theorem decompile_oneJob_of_none (h : m.hiddenAbort? feeds = none) :
    (m.decompile feeds policy).1 = (m.decompile feeds policy.oneJob).1 := by
  rcases outcomes_or_abort h with ⟨os, hos⟩ | ⟨a, ha⟩
  · rw [decompile_of_outcomes hos, decompile_of_outcomes hos]
    rfl
  · rw [decompile_eq, decompile_eq, ha, ha]

/-- If the work goes on after a failing function, the number of jobs makes no difference. -/
theorem decompile_oneJob_of_keepGoing (h : policy.keepGoing = true) :
    (m.decompile feeds policy).1 = (m.decompile feeds policy.oneJob).1 := by
  have hone : policy.oneJob.keepGoing = true := h
  rw [decompile_eq, decompile_eq, h, hone]
  simp only [Bool.not_true, Bool.false_and, Policy.settle_oneJob]
  rfl

/-- With several jobs, what is hidden stops everything. -/
theorem decompile_jobs_of_hidden (hjobs : 1 < policy.jobs) (h : m.hiddenAbort? feeds = some a) :
    (m.decompile feeds policy).1 = .error (.abort a) := by
  obtain ⟨f, after, e, hfs, he, ha⟩ := hiddenAbort?_eq_some h
  have hne : after ≠ [] := by
    rintro rfl
    cases ha
  have hmany : 1 < m.functions.length := by
    have := List.length_pos_iff.2 hne
    rw [hfs, List.length_append, List.length_cons]
    omega
  have hbefore : (m.beforeFailure feeds).findSome? (·.abort? m.globalNames feeds) = none := by
    refine List.findSome?_eq_none_iff.2 fun g hg => ?_
    exact Function.abort?_eq_none.2 (exists_outcome_of_mem_beforeFailure hg)
  have hf : f.abort? m.globalNames feeds = none :=
    Function.abort?_eq_none.2 ((Function.outcome_of_report? he).imp fun o ho => ho.1)
  have hall : m.functions.findSome? (·.abort? m.globalNames feeds) = some a := by
    rw [hfs, List.findSome?_append, hbefore, Option.none_or, List.findSome?_cons, hf]
    exact ha
  rw [decompile_eq]
  simp only [hjobs, hmany, decide_true, Bool.and_self, Bool.not_true, Bool.and_false]
  rw [runFunctions_all_abort hall]

/-- With one job, what is hidden is not reached: the functions before the failing one are kept,
and its report is given. -/
theorem decompile_oneJob_of_hidden (hkeep : policy.keepGoing = false)
    (h : m.hiddenAbort? feeds = some a) :
    ∃ e, (m.decompile feeds policy.oneJob).1 = m.conclude policy
      ((m.beforeFailure feeds).filterMap (·.result? m.globalNames feeds)) [e] := by
  obtain ⟨f, after, e, hfs, he, -⟩ := hiddenAbort?_eq_some h
  have hall : ∀ g ∈ m.beforeFailure feeds, g.succeeds m.globalNames feeds = true :=
    fun g => succeeds_of_mem_beforeFailure
  -- The module that ends with the failing function comes to the same.
  let cut : Module := { m with functions := m.beforeFailure feeds ++ [f] }
  have hcut : (m.decompile feeds policy.oneJob).1 = (cut.decompile feeds policy.oneJob).1 := by
    have hone : policy.oneJob.keepGoing = false := hkeep
    have hearly : ∀ n : Nat, (!false && !(decide (1 < policy.oneJob.jobs) && decide (1 < n))) = true :=
      fun _ => rfl
    rw [decompile_eq, decompile_eq, hone, hearly, hearly, hfs, runFunctions_early_failing hall he]
    rfl
  have hcome : ∃ os, ComeTo m.globalNames feeds (m.beforeFailure feeds ++ [f]) os := by
    refine ComeTo.of_each fun g hg => ?_
    rcases List.mem_append.1 hg with hg | hg
    · exact exists_outcome_of_mem_beforeFailure hg
    · rw [List.mem_singleton.1 hg]
      exact (Function.outcome_of_report? he).imp fun o ho => ho.1
  obtain ⟨os, hos⟩ := hcome
  have hfails : f.succeeds m.globalNames feeds = false := by
    refine Bool.eq_false_iff.2 fun hs => ?_
    rw [Function.report?_eq_none hs] at he
    cases he
  have hresults : policy.results m.globalNames feeds (m.beforeFailure feeds ++ [f]) =
      (m.beforeFailure feeds).filterMap (·.result? m.globalNames feeds) := by
    simp [Policy.results, hkeep, List.takeWhile_append_of_pos hall, hfails]
  have hreports : policy.reports m.globalNames feeds (m.beforeFailure feeds ++ [f]) = [e] := by
    have hnone : (m.beforeFailure feeds).filterMap (·.report? m.globalNames feeds) = [] :=
      List.filterMap_eq_nil_iff.2 fun g hg => Function.report?_eq_none (hall g hg)
    simp [Policy.reports, hkeep, hnone, he]
  refine ⟨e, ?_⟩
  rw [hcut, ← hresults, ← hreports]
  exact decompile_of_outcomes hos

/-- **Only what hides behind a failing function tells one job from several**, unless the work goes
on after failing functions. Several jobs stop with it. One job comes to an end, except if the file
of what stands before the failing function, were it to be flushed, could not be made for the same
reason. -/
theorem jobs_unseen_iff (hjobs : 1 < policy.jobs) :
    (m.decompile feeds policy).1 = (m.decompile feeds { policy with jobs := 1 }).1 ↔
      (policy.keepGoing = false → ∀ a, m.hiddenAbort? feeds = some a →
        policy.flushPartial = true ∧
          m.keptFile ((m.beforeFailure feeds).filterMap (·.result? m.globalNames feeds)) =
            .error (.abort a)) := by
  show (m.decompile feeds policy).1 = (m.decompile feeds policy.oneJob).1 ↔ _
  cases hkeep : policy.keepGoing with
  | true => exact iff_of_true (decompile_oneJob_of_keepGoing hkeep) nofun
  | false =>
    cases hhidden : m.hiddenAbort? feeds with
    | none => exact iff_of_true (decompile_oneJob_of_none hhidden) (fun _ => nofun)
    | some a =>
      obtain ⟨e, hone⟩ := decompile_oneJob_of_hidden hkeep hhidden
      rw [decompile_jobs_of_hidden hjobs hhidden, hone]
      unfold conclude
      cases hflush : policy.flushPartial with
      | false => simp [hkeep]
      | true =>
        cases m.keptFile _ with
        | error e => simp [eq_comm]
        | ok file => simp

end Module

namespace Crashing

/-- A function whose primitives are missing. -/
def unfed : Function where
  name := "bad"
  ret := .void
  blocks := some [{ name := "entry", terminator := some (.ret none) }]

/-- A function that asks for memory to hold nothing. -/
def crash : Function where
  name := "crash"
  ret := .void
  blocks := some [{
    name := "entry"
    instrs := [.alloca "p" .void none]
    terminator := some (.ret none) }]

/-- Only the second function has primitives. -/
def oneFeed : FeedSource := FeedSource.ofTable ⟨[("crash", [])]⟩

/-- A function that is reported, before one that stops without a diagnostic. -/
def program : Module := { name := "m", functions := [unfed, crash] }

/-- Two jobs, and an end at the first failing function. -/
def twoJobs : Policy := { jobs := 2 }

theorem hiddenAbort?_program : program.hiddenAbort? oneFeed = some .voidPointer := rfl

/-- One job reports the first function; two jobs stop with the second one. -/
theorem jobs_seen :
    1 < twoJobs.jobs ∧
      (program.decompile oneFeed twoJobs).1 ≠
        (program.decompile oneFeed { twoJobs with jobs := 1 }).1 ∧
      (program.decompile oneFeed twoJobs).1 = .error (.abort .voidPointer) ∧
      (program.decompile oneFeed { twoJobs with jobs := 1 }).1 = .ok {
        file := none
        kept := []
        errors := [{
          cause := .noFeed "bad"
          site := { function := some "bad", phase := some "feed" } }] } := by
  have hjobs : 1 < twoJobs.jobs := by decide
  refine ⟨hjobs, fun h => ?_, rfl, rfl⟩
  have hflush := ((Module.jobs_unseen_iff hjobs).1 h rfl .voidPointer hiddenAbort?_program).1
  exact nomatch hflush

end Crashing

end GoLift
