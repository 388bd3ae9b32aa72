import GoLift.Proofs.Go.Usable

/-!
# No name is handed out twice

What a name table answers depends on all that it was asked before: a number behind a name can make
it look like a temporary or like another name, and the temporaries of all hints are counted
together. `NameTable.history` is what a table decides over some calls, in whatever order they come.

* **Two calls decide on the same name exactly if they ask for the same binding**, and no call
  decides on a reserved name (`NameTable.history_distinct`). Whose a name is, is said by the call
  that decides on it (`NameTable.holds_call`), and no later call changes that
  (`NameTable.Holds.mono`).
* **Every search ends.** In a run, `NameTable.Runs`, nothing bounds the searches. Any list of calls
  has one run all the same, and it is their history (`NameTable.runs_iff`).
-/

set_option autoImplicit false

namespace GoLift

/-! ### Searches that nothing bounds -/

/-- A search for a candidate that is not in use begins with the `k`-th and ends with the `m`-th. -/
inductive Search (used : List String) (candidate : Nat → String) : Nat → Nat → Prop
  | found {k : Nat} (h : candidate k ∉ used) : Search used candidate k k
  | next {k m : Nat} (h : candidate k ∈ used) (hrest : Search used candidate (k + 1) m) :
      Search used candidate k m

variable {used : List String} {candidate : Nat → String}

theorem Search.unique {k m m' : Nat} (h : Search used candidate k m)
    (h' : Search used candidate k m') : m = m' := by
  induction h with
  | found hfree =>
    cases h' with
    | found => rfl
    | next hused => exact absurd hused hfree
  | next hused _ ih =>
    cases h' with
    | found hfree => exact absurd hused hfree
    | next _ hrest => exact ih hrest

/-- A bounded search that has found a free candidate has not been cut off. -/
theorem search_of_not_mem {start fuel : Nat}
    (h : candidate (firstFree used candidate start fuel) ∉ used) :
    Search used candidate start (firstFree used candidate start fuel) := by
  -- Only without fuel the search is cut off, and there its candidate is free by `h`.
  induction fuel generalizing start with
  | zero => exact .found h
  | succ fuel ih =>
    rw [firstFree] at h ⊢
    by_cases hstart : used.contains (candidate start) = true
    · rw [if_pos hstart] at h ⊢
      exact .next (by simpa using hstart) (ih h)
    · rw [if_neg hstart] at h ⊢
      exact .found h

/-- **A search among different candidates ends**, and the bounded one says where. -/
theorem search_iff (hinj : Function.Injective candidate) {start m : Nat} :
    Search used candidate start m ↔ m = firstFree used candidate start used.length := by
  have hends := search_of_not_mem (firstFree_not_mem hinj used start)
  constructor
  · intro h
    exact h.unique hends
  · intro h
    rw [h]
    exact hends

namespace NameTable

/-! ### Calls as they are searched for -/

/-- The name that a call decides on. It is the answer, or, for a reservation, what the binding is
answered with later. -/
def decided (t : NameTable) : Call → String
  | .bind raw | .reserve raw => (t.bind raw).1
  | .fresh hint => (t.fresh hint).1

/-- What a call does if nothing bounds its search: the name that it decides on, and the table that
it leaves. -/
inductive Does (t : NameTable) : Call → String → NameTable → Prop
  | known {raw x : String} (h : t.local? raw = some x) : t.Does (.bind raw) x t
  | bound {raw : String} {k : Nat} (h : t.local? raw = none)
      (hk : Search t.used (variant (goName raw)) 0 k) :
      t.Does (.bind raw) (variant (goName raw) k)
        { t with
          locals := t.locals.put raw (variant (goName raw) k)
          used := variant (goName raw) k :: t.used }
  | reserve {raw x : String} {t' : NameTable} (h : t.Does (.bind raw) x t') :
      t.Does (.reserve raw) x t'
  | fresh {hint : String} {k : Nat} (hk : Search t.used (temporary hint) t.counter k) :
      t.Does (.fresh hint) (temporary hint k)
        { t with
          used := temporary hint k :: t.used
          counter := k + 1 }

/-- Calls one after the other, with the names that they decide on. -/
inductive Runs : NameTable → List (Call × String) → Prop
  | nil {t : NameTable} : Runs t []
  | cons {t t' : NameTable} {c : Call} {x : String} {es : List (Call × String)}
      (h : t.Does c x t') (hes : Runs t' es) : Runs t ((c, x) :: es)

/-- What a table decides over some calls. -/
def history (t : NameTable) : List Call → List (Call × String)
  | [] => []
  | c :: cs => (c, t.decided c) :: (t.call c).history cs

variable {t t' : NameTable} {c : Call} {raw hint x : String} {owner : Option String}

theorem does_bind_iff : t.Does (.bind raw) x t' ↔ x = (t.bind raw).1 ∧ t' = (t.bind raw).2 := by
  cases hraw : t.local? raw with
  | some name =>
    rw [bind_of_local? hraw]
    constructor
    · intro h
      cases h with
      | known hx => exact ⟨Option.some.inj (hx.symm.trans hraw), rfl⟩
      | bound hnone => rw [hraw] at hnone; cases hnone
    · rintro ⟨rfl, rfl⟩
      exact .known hraw
  | none =>
    rw [bind_of_none hraw]
    constructor
    · intro h
      cases h with
      | known hx => rw [hraw] at hx; cases hx
      | bound _ hk =>
        obtain rfl := (search_iff (variant_injective _)).1 hk
        exact ⟨rfl, rfl⟩
    · rintro ⟨rfl, rfl⟩
      exact .bound hraw ((search_iff (variant_injective _)).2 rfl)

theorem does_fresh_iff :
    t.Does (.fresh hint) x t' ↔ x = (t.fresh hint).1 ∧ t' = (t.fresh hint).2 := by
  constructor
  · intro h
    cases h with
    | fresh hk =>
      obtain rfl := (search_iff (temporary_injective _)).1 hk
      exact ⟨rfl, rfl⟩
  · rintro ⟨rfl, rfl⟩
    exact .fresh ((search_iff (temporary_injective _)).2 rfl)

/-- **A call ends**, and in one way. -/
theorem does_iff : t.Does c x t' ↔ x = t.decided c ∧ t' = t.call c := by
  cases c with
  | bind raw => exact does_bind_iff
  | reserve raw =>
    refine Iff.trans ⟨?_, .reserve⟩ does_bind_iff
    intro h
    cases h with
    | reserve h => exact h
  | fresh hint => exact does_fresh_iff

theorem history_calls (t : NameTable) (cs : List Call) : (t.history cs).map Prod.fst = cs := by
  induction cs generalizing t with
  | nil => rfl
  | cons c cs ih => rw [history, List.map_cons, ih]

theorem runs_history (t : NameTable) (cs : List Call) : t.Runs (t.history cs) := by
  induction cs generalizing t with
  | nil => exact .nil
  | cons c cs ih => exact .cons (does_iff.2 ⟨rfl, rfl⟩) (ih _)

theorem Runs.eq_history {es : List (Call × String)} (h : t.Runs es) :
    es = t.history (es.map Prod.fst) := by
  induction h with
  | nil => rfl
  | cons hdoes _ ih =>
    obtain ⟨rfl, rfl⟩ := does_iff.1 hdoes
    rw [List.map_cons, history, ← ih]

/-- **Any list of calls has one run**, and it is their history. -/
theorem runs_iff {cs : List Call} {es : List (Call × String)} :
    es.map Prod.fst = cs ∧ t.Runs es ↔ es = t.history cs := by
  constructor
  · rintro ⟨rfl, h⟩
    exact h.eq_history
  · rintro rfl
    exact ⟨t.history_calls cs, t.runs_history cs⟩

/-! ### Whose a name is -/

/-- A name is in use, by the binding that owns it or by none. -/
structure Holds (t : NameTable) (x : String) (owner : Option String) : Prop where
  used : x ∈ t.used
  local?_iff : ∀ raw, t.local? raw = some x ↔ owner = some raw

theorem le_call (t : NameTable) (c : Call) : t.Le (t.call c) := by
  cases c with
  | bind raw | reserve raw => exact t.le_bind raw
  | fresh hint => exact t.le_fresh hint

/-- **A name has the same owner from then on.** -/
theorem Holds.mono (h : t.Holds x owner) (ht : t.Le t') : t'.Holds x owner where
  used := ht.used h.used
  local?_iff raw := by
    rw [← h.local?_iff raw]
    constructor
    · intro hx
      exact (ht.new hx).resolve_right (fun hnew => hnew h.used)
    · exact ht.local?

theorem Reserved.holds (h : t.Reserved x) : t.Holds x none where
  used := h.used
  local?_iff raw := by simp [h.unbound raw]

theorem reserved_reserving {names : List String} (h : x ∈ names) :
    (reserving names).Reserved x where
  used := h
  unbound raw hraw := by cases hraw

theorem holds_bind (ht : t.Sound) (raw : String) :
    (t.bind raw).2.Holds (t.bind raw).1 (some raw) := by
  have hsound := (t.le_bind raw).sound ht
  have hraw := t.local?_bind raw
  refine ⟨hsound.mem_used hraw, fun a => ?_⟩
  constructor
  · intro ha
    rw [hsound.injective hraw ha]
  · intro ha
    rwa [← Option.some.inj ha]

/-- What a call decides on is owned by the binding that it asks for, and a temporary by none. -/
theorem holds_call (ht : t.Sound) (c : Call) : (t.call c).Holds (t.decided c) c.raw? := by
  cases c with
  | bind raw | reserve raw => exact holds_bind ht raw
  | fresh hint => exact (reserved_fresh ht hint).holds

theorem Holds.bind_eq_iff (h : t.Holds x owner) (raw : String) :
    (t.bind raw).1 = x ↔ owner = some raw := by
  rw [← h.local?_iff raw]
  cases hraw : t.local? raw with
  | some name => rw [bind_of_local? hraw, Option.some_inj]
  | none =>
    have hne : t.pick raw ≠ x := fun hx => t.pick_not_mem raw (hx ▸ h.used)
    simp [bind_of_none hraw, hne]

/-- A call decides on a name that is in use exactly if it asks for its owner. -/
theorem Holds.decided_eq_iff (h : t.Holds x owner) (c : Call) :
    x = t.decided c ↔ ∃ raw, owner = some raw ∧ c.raw? = some raw := by
  rw [eq_comm]
  cases c with
  | bind raw | reserve raw => simpa [decided, Call.raw?] using h.bind_eq_iff raw
  | fresh hint =>
    have hne : (t.fresh hint).1 ≠ x := fun hx => t.fresh_not_mem hint (hx ▸ h.used)
    simpa [decided, Call.raw?] using hne

/-! ### Histories without repetitions -/

theorem Holds.history_eq_iff (h : t.Holds x owner) {cs : List Call} {e : Call × String}
    (he : e ∈ t.history cs) : x = e.2 ↔ ∃ raw, owner = some raw ∧ e.1.raw? = some raw := by
  induction cs generalizing t with
  | nil => cases he
  | cons c cs ih =>
    obtain rfl | he := List.mem_cons.1 he
    · exact h.decided_eq_iff c
    · exact ih (h.mono (t.le_call c)) he

theorem pairwise_history (ht : t.Sound) (cs : List Call) :
    (t.history cs).Pairwise fun e e' =>
      e.2 = e'.2 ↔ ∃ raw, e.1.raw? = some raw ∧ e'.1.raw? = some raw := by
  induction cs generalizing t with
  | nil => exact .nil
  | cons c cs ih =>
    refine .cons ?_ (ih ((t.le_call c).sound ht))
    -- The first call says whose its name is, and all later ones keep to that.
    intro e he
    exact (holds_call ht c).history_eq_iff he

/-- **No name is handed out twice.** Whatever identifiers are reserved and whatever is asked in
whatever order, every search ends, in one way. Two calls, one anywhere before the other, decide on
the same name exactly if both ask for the same binding; a temporary therefore differs from every
other name. No call decides on a reserved name. -/
theorem history_distinct (reserved : List String) (cs : List Call) :
    (∀ es, es.map Prod.fst = cs ∧ (reserving reserved).Runs es ↔
        es = (reserving reserved).history cs) ∧
      ((reserving reserved).history cs).Pairwise (fun e e' =>
        e.2 = e'.2 ↔ ∃ raw, e.1.raw? = some raw ∧ e'.1.raw? = some raw) ∧
      ∀ e ∈ (reserving reserved).history cs, e.2 ∉ reserved := by
  refine ⟨fun _ => runs_iff, pairwise_history (sound_reserving reserved) cs, ?_⟩
  intro e he hmem
  have hnone := ((reserved_reserving hmem).holds.history_eq_iff he).1 rfl
  simp at hnone

/-- A temporary takes the name of a binding that comes later, and a number takes another's. -/
example : ((reserving ["x"]).history
    [.fresh "a_", .bind "a.0", .bind "a_0_1", .bind "x", .fresh "x_", .bind "a.0"]).map Prod.snd =
      ["a_0", "a_0_1", "a_0_1_1", "x_1", "x_2", "a_0_1"] := by decide +kernel

end NameTable

end GoLift
