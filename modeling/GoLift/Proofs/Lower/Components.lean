import GoLift.Proofs.IR.Flow
import GoLift.Proofs.Lower.Forms
import GoLift.Proofs.Lower.Steady
import Mathlib.Data.List.Induction

/-!
# What the Go type of a type is made of

The types that stand in a type, down to identified structs and not into their bodies, are its
`components`. They are listed in the order in which Go writes them: the parameters of a function
before its result.

**The components alone tell what becomes of a type** (`goType_exact`): it has no Go type exactly if
one of them is `Unsupported`, and if it has one, exactly what its components need has been recorded.
`TypeM.Takes` says this of a step and a list of components, and is put together as lists are.
-/

set_option autoImplicit false

namespace GoLift

open Go (Expr)

/-! ### Components -/

/-- A type that stands in a type. -/
structure Component where
  type : Ty
  /-- Does it say what a function returns? -/
  isResult : Bool

mutual

/-- A type with the types in it. -/
def Ty.components (isResult : Bool) : Ty → List Component
  | .ptr t => ⟨.ptr t, isResult⟩ :: t.components false
  | .array count t => ⟨.array count t, isResult⟩ :: t.components false
  | .vector count t => ⟨.vector count t, isResult⟩ :: t.components false
  | .struct ts => ⟨.struct ts, isResult⟩ :: Ty.componentsOf ts
  | .func ret ts varArg =>
    ⟨.func ret ts varArg, isResult⟩ :: (Ty.componentsOf ts ++ ret.components true)
  | t => [⟨t, isResult⟩]

/-- The types of a list with the types in them. -/
def Ty.componentsOf : List Ty → List Component
  | [] => []
  | t :: ts => t.components false ++ Ty.componentsOf ts

end

namespace Component

/-- Has Go no type for a component? A function may return nothing. -/
def Unsupported (c : Component) : Prop :=
  match c.type with
  | .int width => width ∉ [1, 8, 16, 32, 64]
  | .half | .vector .. | .label | .metadata => True
  | .void => c.isResult = false
  | _ => False

/-- The identified struct that a component is. -/
def struct? (c : Component) : Option String :=
  match c.type with
  | .named name => some name
  | _ => none

end Component

namespace Records

/-- Record what a component needs. -/
def note (r : Records) (c : Component) : Records :=
  match c.type with
  | .opaquePtr => r.addImport "unsafe"
  | .named name => r.addNamed name
  | _ => r

theorem imports_addImport (r : Records) (p : String) :
    (r.addImport p).imports = if p ∈ r.imports then r.imports else r.imports ++ [p] := by
  simp only [addImport, List.contains_iff_mem]
  split <;> rfl

theorem named_addNamed (r : Records) (n : String) :
    (r.addNamed n).named = if n ∈ r.named then r.named else r.named ++ [n] := by
  simp only [addNamed, List.contains_iff_mem]
  split <;> rfl

theorem imports_note (r : Records) (c : Component) :
    (r.note c).imports =
      if c.type.isOpaquePtr then (r.addImport "unsafe").imports else r.imports := by
  obtain ⟨type, isResult⟩ := c
  cases type <;> simp [note, Ty.isOpaquePtr]

/-- After some components, `unsafe` is imported if one of them is an opaque pointer. -/
theorem imports_notes (r : Records) (cs : List Component) :
    (cs.foldl note r).imports =
      if cs.any (·.type.isOpaquePtr) then (r.addImport "unsafe").imports else r.imports := by
  induction cs generalizing r with
  | nil => rfl
  | cons c cs ih =>
    simp only [List.foldl_cons, List.any_cons, ih, imports_addImport, imports_note]
    by_cases hmem : "unsafe" ∈ r.imports <;>
      cases c.type.isOpaquePtr <;> cases cs.any (·.type.isOpaquePtr) <;> simp [hmem]

theorem named_note (r : Records) (c : Component) :
    (r.note c).named = c.struct?.elim r.named fun n => (r.addNamed n).named := by
  obtain ⟨type, isResult⟩ := c
  cases type <;> simp [note, Component.struct?]

/-- After some components, the structs among them are recorded behind those that were there, each at
its first place. -/
theorem named_notes (r : Records) (cs : List Component) :
    (cs.foldl note r).named =
      r.named ++ (firsts (cs.filterMap Component.struct?)).filter (· ∉ r.named) := by
  induction cs using List.reverseRecOn with
  | nil => simp [firsts]
  | append_singleton cs c ih =>
    rw [List.foldl_append, List.foldl_cons, List.foldl_nil, named_note, List.filterMap_append]
    cases hc : c.struct? with
    | none => simp [hc, ih]
    | some n =>
      have hfirsts : firsts (cs.filterMap Component.struct? ++ [n]) =
          if n ∈ firsts (cs.filterMap Component.struct?) then
            firsts (cs.filterMap Component.struct?)
          else firsts (cs.filterMap Component.struct?) ++ [n] := by
        simp [firsts]
      simp only [Option.elim, named_addNamed, ih, List.mem_append, List.mem_filter]
      simp only [List.filterMap_cons, hc, List.filterMap_nil, hfirsts]
      by_cases hold : n ∈ r.named <;>
        by_cases hnew : n ∈ firsts (cs.filterMap Component.struct?) <;>
          simp [hold, hnew]

end Records

/-! ### Steps and the components that they take -/

namespace TypeM

variable {α β : Type} {x : TypeM α} {f : α → TypeM β} {cs ds : List Component} {c : Component}

/-- A step fails exactly for what is unsupported among some components, and records what they
need. -/
structure Takes (x : TypeM α) (cs : List Component) : Prop where
  refuses : ∀ {r r' : Records} {e : Fault}, x r = (.error e, r') →
    (∃ cause : Cause, e = cause.fault ∧ cause.reason = .unsupportedType) ∧ ∃ c ∈ cs, c.Unsupported
  records : ∀ {r r' : Records} {a : α}, x r = (.ok a, r') →
    (∀ c ∈ cs, ¬ c.Unsupported) ∧ r' = cs.foldl Records.note r

namespace Takes

theorem pure (a : α) : Takes (Pure.pure a) [] where
  refuses h := by cases h
  records h := by
    cases h
    exact ⟨by simp, rfl⟩

theorem bind (hx : Takes x cs) (hf : ∀ a, Takes (f a) ds) : Takes (x >>= f) (cs ++ ds) where
  refuses {r r' e} h := by
    rw [bind_apply] at h
    rcases h₁ : x r with ⟨_ | a, r₁⟩
    · rw [h₁] at h
      cases h
      obtain ⟨hcause, c, hc, hunsupported⟩ := hx.refuses h₁
      exact ⟨hcause, c, List.mem_append_left _ hc, hunsupported⟩
    · rw [h₁] at h
      obtain ⟨hcause, c, hc, hunsupported⟩ := (hf a).refuses h
      exact ⟨hcause, c, List.mem_append_right _ hc, hunsupported⟩
  records {r r' b} h := by
    obtain ⟨a, r₁, h₁, h₂⟩ := bind_ok h
    obtain ⟨hcs, rfl⟩ := hx.records h₁
    obtain ⟨hds, rfl⟩ := (hf a).records h₂
    exact ⟨List.forall_mem_append.2 ⟨hcs, hds⟩, by rw [List.foldl_append]⟩

/-- A step whose result is put into a form. -/
theorem map {g : α → β} (hx : Takes x cs) : Takes (do return g (← x)) cs := by
  have h := hx.bind fun a => Takes.pure (g a)
  rwa [List.append_nil] at h

/-- A type in which others stand, and of which nothing is recorded. -/
theorem within (hx : Takes x cs) (hc : ¬ c.Unsupported) (hnote : ∀ r, Records.note r c = r) :
    Takes x (c :: cs) where
  refuses h := by
    obtain ⟨hcause, d, hd, hunsupported⟩ := hx.refuses h
    exact ⟨hcause, d, List.mem_cons_of_mem _ hd, hunsupported⟩
  records {r r' a} h := by
    obtain ⟨hcs, rfl⟩ := hx.records h
    exact ⟨List.forall_mem_cons.2 ⟨hc, hcs⟩, by rw [List.foldl_cons, hnote]⟩

/-- A type without others in it that is recorded. -/
theorem noted {a : α} (hx : ∀ r, x r = (.ok a, r.note c)) (hc : ¬ c.Unsupported) :
    Takes x [c] where
  refuses {r r' e} h := by
    rw [hx r] at h
    cases h
  records {r r' b} h := by
    rw [hx r] at h
    cases h
    exact ⟨by simpa using hc, rfl⟩

/-- A type that is unsupported. -/
theorem refused {cause : Cause} (hc : c.Unsupported) (hcause : cause.reason = .unsupportedType) :
    Takes (TypeM.refuse cause : TypeM α) (c :: cs) where
  refuses h := by
    cases h
    exact ⟨⟨cause, rfl, hcause⟩, c, List.mem_cons_self, hc⟩
  records h := by cases h

end Takes

theorem takes_goIntType (unsigned isResult : Bool) (width : Nat) :
    Takes (goIntType unsigned width) [⟨.int width, isResult⟩] := by
  unfold goIntType
  by_cases hone : width = 1
  · rw [if_pos hone]
    exact (Takes.pure _).within (by simp [Component.Unsupported, hone]) fun _ => rfl
  · rw [if_neg hone]
    by_cases hwidth : width ∈ goWidths
    · rw [if_pos (by simpa using hwidth)]
      refine (Takes.pure _).within (fun hnot => hnot ?_) fun _ => rfl
      exact List.mem_cons_of_mem _ hwidth
    · rw [if_neg (by simpa using hwidth)]
      refine .refused (fun hmem => ?_) rfl
      exact (List.mem_cons.1 hmem).elim hone hwidth

/-- What a function returns is its result, unless that is nothing. -/
theorem takes_goResults {t : Ty}
    (h : t ≠ .void → Takes (goType false t) (t.components true)) :
    Takes (goResults t) (t.components true) := by
  by_cases hvoid : t = .void
  · subst hvoid
    rw [goResults, Ty.components]
    · exact (Takes.pure _).within (by simp [Component.Unsupported]) fun _ => rfl
    all_goals simp
  · rw [goResults]
    · exact (h hvoid).map
    · exact hvoid

mutual

/-- **A type becomes a Go type as its components tell.** -/
theorem takes_goType (unsigned isResult : Bool) : ∀ (t : Ty), (t = .void → isResult = false) →
    Takes (goType unsigned t) (t.components isResult)
  | .int width, _ => by
      simpa only [goType, Ty.components] using takes_goIntType unsigned isResult width
  | .double, _ | .float, _ => by
      simpa only [goType, Ty.components] using
        (Takes.pure _).within (by simp [Component.Unsupported]) fun _ => rfl
  | .opaquePtr, _ => by
      simp only [goType, Ty.components]
      exact .noted (fun _ => rfl) (by simp [Component.Unsupported])
  | .named name, _ => by
      simp only [goType, Ty.components]
      exact .noted (fun _ => rfl) (by simp [Component.Unsupported])
  | .ptr t, _ => by
      simpa only [goType, Ty.components] using
        (takes_goType false false t fun _ => rfl).map.within (by simp [Component.Unsupported])
          fun _ => rfl
  | .array count t, _ => by
      simpa only [goType, Ty.components] using
        (takes_goType false false t fun _ => rfl).map.within (by simp [Component.Unsupported])
          fun _ => rfl
  | .struct ts, _ => by
      simpa only [goType, Ty.components] using
        (takes_goTypes ts).map.within (by simp [Component.Unsupported]) fun _ => rfl
  | .func ret ts varArg, _ => by
      have hresults := takes_goResults fun hvoid =>
        takes_goType false true ret fun h => absurd h hvoid
      simpa only [goType, Ty.components] using
        ((takes_goTypes ts).bind fun _ => hresults.map).within (by simp [Component.Unsupported])
          fun _ => rfl
  | .void, h => by
      simpa only [goType, Ty.components] using .refused (h rfl) rfl
  | .half, _ | .label, _ | .metadata, _ => by
      simpa only [goType, Ty.components] using .refused trivial rfl
  | .vector .., _ => by
      simpa only [goType, Ty.components] using .refused trivial rfl

theorem takes_goTypes : ∀ (ts : List Ty), Takes (goTypes ts) (Ty.componentsOf ts)
  | [] => by simpa only [goTypes, Ty.componentsOf] using .pure _
  | t :: ts => by
      simpa only [goTypes, Ty.componentsOf] using
        (takes_goType false false t fun _ => rfl).bind fun _ => (takes_goTypes ts).map

end

end TypeM

/-- **A type has a Go type exactly if none of its components is unsupported**, and what has been
recorded then is exactly what the components need: `unsafe` for opaque pointers, and each identified
struct at its first place, behind all that was recorded before. -/
theorem goType_exact (unsigned : Bool) (t : Ty) (r : Records) :
    ((∃ (cause : Cause) (r' : Records), goType unsigned t r = (.error cause.fault, r') ∧
        cause.reason = .unsupportedType) ↔ ∃ c ∈ t.components false, c.Unsupported) ∧
      ((∃ (x : Expr) (r' : Records), goType unsigned t r = (.ok x, r')) ↔
        ∀ c ∈ t.components false, ¬ c.Unsupported) ∧
      ∀ (x : Expr) (r' : Records), goType unsigned t r = (.ok x, r') →
        r'.imports = (if (t.components false).any (·.type.isOpaquePtr) then
          (r.addImport "unsafe").imports else r.imports) ∧
        r'.named = r.named ++
          (firsts ((t.components false).filterMap Component.struct?)).filter (· ∉ r.named) := by
  have htakes := TypeM.takes_goType unsigned false t fun _ => rfl
  refine ⟨⟨?_, ?_⟩, ⟨?_, ?_⟩, ?_⟩
  · intro h
    obtain ⟨cause, r', h, -⟩ := h
    exact (htakes.refuses h).2
  · intro hc
    obtain ⟨c, hc, hunsupported⟩ := hc
    rcases h : goType unsigned t r with ⟨e | x, r'⟩
    · obtain ⟨⟨cause, rfl, hcause⟩, -⟩ := htakes.refuses h
      exact ⟨cause, r', rfl, hcause⟩
    · exact absurd hunsupported ((htakes.records h).1 c hc)
  · intro h
    obtain ⟨x, r', h⟩ := h
    exact (htakes.records h).1
  · intro hsupported
    rcases h : goType unsigned t r with ⟨e | x, r'⟩
    · obtain ⟨-, c, hc, hunsupported⟩ := htakes.refuses h
      exact absurd hunsupported (hsupported c hc)
    · exact ⟨x, r', rfl⟩
  · intro x r' h
    obtain ⟨-, rfl⟩ := htakes.records h
    exact ⟨Records.imports_notes r _, Records.named_notes r _⟩

/-- What visits a list: it mentions `%S` twice, an opaque pointer and `%T`, and returns nothing. -/
def visitorType : Ty :=
  .ptr (.func .void [.ptr (.named "S"), .opaquePtr, .struct [.named "T", .named "S"]] false)

/-- With `%T` recorded before, the type of a visitor adds `unsafe` and `%S`, and it has no Go type
once it also takes nothing. -/
theorem visitorType_exact :
    (∃ x, goType false visitorType ⟨[], ["T"]⟩ = (.ok x, ⟨["unsafe"], ["T", "S"]⟩)) ∧
      ∃ cause r', goType false (.func .void [visitorType, .void] false) ⟨[], []⟩ =
        (.error (Cause.fault cause), r') := by
  obtain ⟨-, hgoes, hrecords⟩ := goType_exact false visitorType ⟨[], ["T"]⟩
  obtain ⟨hrefused, -, -⟩ := goType_exact false (.func .void [visitorType, .void] false) ⟨[], []⟩
  constructor
  · have hsupported : ∀ c ∈ visitorType.components false, ¬ c.Unsupported := by
      simp [visitorType, Ty.components, Ty.componentsOf, Component.Unsupported]
    obtain ⟨x, ⟨imports, named⟩, h⟩ := hgoes.2 hsupported
    obtain ⟨himports, hnamed⟩ := hrecords x _ h
    have himports : imports = ["unsafe"] := himports
    have hnamed : named = ["T", "S"] := hnamed
    subst himports hnamed
    exact ⟨x, h⟩
  · have hvoid : (⟨.void, false⟩ : Component) ∈
        (Ty.func .void [visitorType, .void] false).components false := by
      simp [visitorType, Ty.components, Ty.componentsOf]
    obtain ⟨cause, r', h, -⟩ := hrefused.2 ⟨_, hvoid, rfl⟩
    exact ⟨cause, r', h⟩

end GoLift
