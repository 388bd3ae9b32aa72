import GoLift.Assembly
import GoLift.Proofs.IR.Flow
import GoLift.Proofs.Lower.Emits
import Mathlib.Data.List.Forall2

/-!
# The structs to declare

Declaring a struct records the structs that its body mentions, behind those that are recorded
already, so the list that is worked off grows while it is worked off. `Declaring` is that work
without a bound on its steps. **It always comes to an end** (`declaring_iff`): a name is recorded
once, and only names that bodies mention are ever added.

When it succeeds, the recorded names are **the least set that contains those recorded before and is
closed under mention** (`Declaring.needed`), and each has its declaration.
-/

set_option autoImplicit false

namespace GoLift

open Go (Expr Decl)

/-! ### What is added to records -/

namespace Records

variable {ns ms : List String} {r r₁ r₂ : Records}

/-- The names that one record has beside those of another are among some, and each is new. -/
def Adds (ns : List String) (r r' : Records) : Prop :=
  ∃ new, r'.named = r.named ++ new ∧ new.Nodup ∧ ∀ n ∈ new, n ∈ ns ∧ n ∉ r.named

namespace Adds

theorem refl (ns : List String) (r : Records) : Adds ns r r :=
  ⟨[], by simp, by simp, by simp⟩

theorem mono (h : Adds ns r r₁) (hns : ns ⊆ ms) : Adds ms r r₁ := by
  obtain ⟨new, hnew, hnodup, hmem⟩ := h
  exact ⟨new, hnew, hnodup, fun n hn => ⟨hns (hmem n hn).1, (hmem n hn).2⟩⟩

theorem trans (h : Adds ns r r₁) (h' : Adds ns r₁ r₂) : Adds ns r r₂ := by
  obtain ⟨new, hnew, hnodup, hmem⟩ := h
  obtain ⟨new', hnew', hnodup', hmem'⟩ := h'
  refine ⟨new ++ new', by rw [hnew', hnew, List.append_assoc], ?_, fun n hn => ?_⟩
  · refine hnodup.append hnodup' fun n hn hn' => (hmem' n hn').2 ?_
    rw [hnew]
    exact List.mem_append_right _ hn
  · obtain hn | hn := List.mem_append.1 hn
    · exact hmem n hn
    · refine ⟨(hmem' n hn).1, fun hr => (hmem' n hn).2 ?_⟩
      rw [hnew]
      exact List.mem_append_left _ hr

theorem isPrefix (h : Adds ns r r₁) : r.named <+: r₁.named :=
  let ⟨new, hnew, _⟩ := h
  ⟨new, hnew.symm⟩

theorem mem (h : Adds ns r r₁) {n : String} (hn : n ∈ r₁.named) : n ∈ r.named ∨ n ∈ ns := by
  obtain ⟨new, hnew, -, hmem⟩ := h
  rw [hnew] at hn
  exact (List.mem_append.1 hn).imp_right fun hn => (hmem n hn).1

/-- Only so many names can be added as there are. -/
theorem length_le (h : Adds ns r r₁) : r₁.named.length ≤ r.named.length + ns.length := by
  obtain ⟨new, hnew, hnodup, hmem⟩ := h
  rw [hnew, List.length_append]
  have hle := hnodup.length_le_of_subset fun n hn => (hmem n hn).1
  omega

end Adds

theorem adds_addNamed (r : Records) (n : String) : Adds [n] r (r.addNamed n) := by
  unfold addNamed
  split
  · exact .refl _ _
  · next h => exact ⟨[n], rfl, by simp, by simpa using h⟩

end Records

namespace TypeM

variable {α β : Type} {ns ms : List String}

/-- A step records some names, and no others; if it fails, perhaps not all of them. -/
structure Mentions (x : TypeM α) (ns : List String) : Prop where
  adds : ∀ r, Records.Adds ns r (x r).2
  all : ∀ {r r' : Records} {a : α}, x r = (.ok a, r') → ns ⊆ r'.named

namespace Mentions

theorem pure (a : α) : Mentions (Pure.pure a) [] where
  adds r := .refl _ r
  all _ := List.nil_subset _

theorem refuse (c : Cause) (ns : List String) : Mentions (TypeM.refuse c : TypeM α) ns where
  adds r := .refl _ r
  all h := by cases h

theorem bind {x : TypeM α} {f : α → TypeM β} (hx : Mentions x ns) (hf : ∀ a, Mentions (f a) ms) :
    Mentions (x >>= f) (ns ++ ms) where
  adds r := by
    have hadds := (hx.adds r).mono (List.subset_append_left ns ms)
    rw [bind_apply]
    rcases h : x r with ⟨_ | a, r₁⟩ <;> rw [h] at hadds
    · exact hadds
    · exact hadds.trans (((hf a).adds r₁).mono (List.subset_append_right ns ms))
  all {r r' b} h := by
    rw [bind_apply] at h
    rcases h₁ : x r with ⟨_ | a, r₁⟩ <;> simp only [h₁] at h
    · cases h
    · have hprefix := ((hf a).adds r₁).isPrefix
      rw [h] at hprefix
      exact List.append_subset.2 ⟨List.Subset.trans (hx.all h₁) hprefix.subset, (hf a).all h⟩

theorem congr {x : TypeM α} (hx : Mentions x ns) (h : ∀ n, n ∈ ns ↔ n ∈ ms) : Mentions x ms where
  adds r := (hx.adds r).mono fun n => (h n).1
  all hx' n hn := hx.all hx' ((h n).2 hn)

/-- What follows records nothing. -/
theorem map {x : TypeM α} (hx : Mentions x ns) (f : α → β) :
    Mentions (do return f (← x)) ns := by
  simpa using hx.bind fun a => .pure (f a)

end Mentions

theorem mentions_useNamed (n : String) : Mentions (useNamed n) [n] where
  adds r := r.adds_addNamed n
  all {r r' a} h := by
    cases h
    simpa using Records.mem_addNamed.2 (.inr rfl)

theorem mentions_useImport (p : String) : Mentions (useImport p) [] where
  adds r := by
    show Records.Adds [] r (r.addImport p)
    exact ⟨[], by simp, by simp, by simp⟩
  all _ := List.nil_subset _

theorem mentions_goIntType (unsigned : Bool) (width : Nat) :
    Mentions (goIntType unsigned width) [] := by
  unfold goIntType
  split
  · exact .pure _
  · split
    · exact .pure _
    · exact .refuse _ _

theorem mentions_goResults {t : Ty} (h : Mentions (goType false t) t.mentioned) :
    Mentions (goResults t) t.mentioned := by
  cases t with
  | void => simpa only [goResults, Ty.mentioned] using .pure _
  | _ => simpa only [goResults] using h.map _

mutual

/-- **A type records the structs that it mentions.** -/
theorem mentions_goType (unsigned : Bool) : ∀ (t : Ty), Mentions (goType unsigned t) t.mentioned
  | .int width => by simpa only [goType, Ty.mentioned] using mentions_goIntType unsigned width
  | .double | .float => by simpa only [goType, Ty.mentioned] using .pure _
  | .opaquePtr => by
      simpa only [goType, Ty.mentioned] using (mentions_useImport _).map fun _ => unsafePointer
  | .ptr t => by simpa only [goType, Ty.mentioned] using (mentions_goType false t).map _
  | .func ret params varArg => by
      simp only [goType, Ty.mentioned]
      have hret := mentions_goResults (mentions_goType false ret)
      refine ((mentions_goTypes params).bind fun _ => hret.map _).congr fun n => ?_
      simp [or_comm]
  | .named name => by
      simpa only [goType, Ty.mentioned] using
        (mentions_useNamed name).map fun _ => Expr.ident (goName name)
  | .struct ts => by simpa only [goType, Ty.mentioned] using (mentions_goTypes ts).map _
  | .array count t => by simpa only [goType, Ty.mentioned] using (mentions_goType false t).map _
  | .void | .half | .label | .metadata => by simpa only [goType] using .refuse _ _
  | .vector .. => by simpa only [goType] using .refuse _ _

theorem mentions_goTypes : ∀ (ts : List Ty), Mentions (goTypes ts) (Ty.mentionedIn ts)
  | [] => by simpa only [goTypes, Ty.mentionedIn] using .pure _
  | t :: ts => by
      simpa only [goTypes, Ty.mentionedIn] using
        (mentions_goType false t).bind fun _ => (mentions_goTypes ts).map _

end

end TypeM

open TypeM

/-! ### Declaring structs -/

/-- The structs that the body of a struct mentions. -/
def Bodies.mentionedBy (bodies : Bodies) (name : String) : List String :=
  Ty.mentionedIn ((bodies.get? name).getD [])

theorem Bodies.mentionedBy_subset (bodies : Bodies) (name : String) :
    bodies.mentionedBy name ⊆ bodies.mentioned := by
  unfold mentionedBy mentioned
  cases h : bodies.get? name with
  | none => simp [Ty.mentionedIn]
  | some ts =>
    obtain ⟨l₁, l₂, hsplit, -⟩ := List.lookup_eq_some_iff.1 h
    simp [hsplit]

theorem mentions_structDecl (bodies : Bodies) (name : String) :
    Mentions (structDecl bodies name) (bodies.mentionedBy name) :=
  ((mentions_goTypes _).map fun ts => Expr.struct (numberedFields ts)).map _

theorem steady_structDecl (bodies : Bodies) (name : String) :
    TypeM.Steady (structDecl bodies name) :=
  ((steady_goTypes _).bind fun _ => .pure _).bind fun _ => .pure _

theorem emits_structDecl {P : Records → Prop} (bodies : Bodies) (name : String) :
    Emits Records.Le P (structDecl bodies name) (fun r d => name ∈ r.named →
      DeclForm (fun _ => False) r d) :=
  (emits_goStruct _).bind fun _ => .pure fun _ h hname => .struct hname h.2

/-- `Declaring bodies done r x r'`: to declare the structs that `r` records from the `done`-th on,
and those recorded on the way, ends with `x` and the records `r'`. -/
inductive Declaring (bodies : Bodies) :
    Nat → Records → Except Fault (List Decl) → Records → Prop
  | finish {done : Nat} {r : Records} : r.named[done]? = none → Declaring bodies done r (.ok []) r
  | step {done : Nat} {r r₁ r₂ : Records} {name : String} {d : Decl}
      {x : Except Fault (List Decl)} :
      r.named[done]? = some name → structDecl bodies name r = (.ok d, r₁) →
      Declaring bodies (done + 1) r₁ x r₂ → Declaring bodies done r ((d :: ·) <$> x) r₂
  | fail {done : Nat} {r r₁ : Records} {name : String} {f : Fault} :
      r.named[done]? = some name → structDecl bodies name r = (.error f, r₁) →
      Declaring bodies done r (.error f) r₁

variable {bodies : Bodies}

/-- With as many steps as there are names to come, the work comes to its end. -/
theorem declaring_structDecls {fuel done : Nat} {init r : Records}
    (h : Records.Adds bodies.mentioned init r)
    (hfuel : init.named.length + bodies.mentioned.length < fuel + done) :
    Declaring bodies done r (structDecls bodies fuel done r).1
      (structDecls bodies fuel done r).2 := by
  -- Only names that bodies mention are ever added, so with no step left all are worked off.
  induction fuel generalizing done r with
  | zero =>
    refine .finish (List.getElem?_eq_none ?_)
    have hlen := h.length_le
    omega
  | succ fuel ih =>
    have hget : (get : TypeM Records) r = (.ok r, r) := rfl
    rw [structDecls, bind_apply, hget]
    dsimp only
    cases hname : r.named[done]? with
    | none => exact .finish hname
    | some name =>
      dsimp only
      rw [bind_apply]
      rcases hd : structDecl bodies name r with ⟨f | d, r₁⟩
      · exact .fail hname hd
      · have hadds := (mentions_structDecl bodies name).adds r
        rw [hd] at hadds
        have hrest : Declaring bodies (done + 1) r₁ _ _ :=
          ih (h.trans (hadds.mono (bodies.mentionedBy_subset name))) (by omega)
        dsimp only
        rw [bind_apply]
        rcases hds : structDecls bodies fuel (done + 1) r₁ with ⟨f | ds, r₂⟩
        · rw [hds] at hrest
          exact .step hname hd hrest
        · rw [hds] at hrest
          exact .step hname hd hrest

theorem declaring_allStructDecls (bodies : Bodies) (r : Records) :
    Declaring bodies 0 r (allStructDecls bodies r).1 (allStructDecls bodies r).2 :=
  declaring_structDecls (.refl _ r) (by omega)

theorem Declaring.unique {done : Nat} {r r₁ r₂ : Records} {x₁ x₂ : Except Fault (List Decl)}
    (h₁ : Declaring bodies done r x₁ r₁) (h₂ : Declaring bodies done r x₂ r₂) :
    x₁ = x₂ ∧ r₁ = r₂ := by
  induction h₁ generalizing x₂ r₂ with
  | finish hdone =>
    cases h₂ with
    | finish => exact ⟨rfl, rfl⟩
    | step hname => cases hdone.symm.trans hname
    | fail hname => cases hdone.symm.trans hname
  | step hname hd _ ih =>
    cases h₂ with
    | finish hdone => cases hdone.symm.trans hname
    | step hname' hd' hrest =>
      cases hname.symm.trans hname'
      cases hd.symm.trans hd'
      obtain ⟨rfl, rfl⟩ := ih hrest
      exact ⟨rfl, rfl⟩
    | fail hname' hd' =>
      cases hname.symm.trans hname'
      cases hd.symm.trans hd'
  | fail hname hd =>
    cases h₂ with
    | finish hdone => cases hdone.symm.trans hname
    | step hname' hd' =>
      cases hname.symm.trans hname'
      cases hd.symm.trans hd'
    | fail hname' hd' =>
      cases hname.symm.trans hname'
      cases hd.symm.trans hd'
      exact ⟨rfl, rfl⟩

/-- **Declaring the structs comes to an end for all bodies**, and what it comes to is what is found
with the bound. -/
theorem declaring_iff {r r' : Records} {x : Except Fault (List Decl)} :
    Declaring bodies 0 r x r' ↔ allStructDecls bodies r = (x, r') := by
  have hrun := declaring_allStructDecls bodies r
  constructor
  · intro h
    obtain ⟨hx, hr⟩ := hrun.unique h
    exact Prod.ext hx hr
  · intro h
    rwa [h] at hrun

/-! ### The least closed set -/

/-- The structs that are needed if some are: those, and what the body of a needed one mentions. -/
inductive Needed (bodies : Bodies) (seeds : String → Prop) : String → Prop
  | seed {n : String} (h : seeds n) : Needed bodies seeds n
  | mention {n k : String} (h : Needed bodies seeds n) (hk : k ∈ bodies.mentionedBy n) :
      Needed bodies seeds k

namespace Declaring

variable {done : Nat} {r r' : Records} {x : Except Fault (List Decl)} {ds : List Decl}

theorem adds (h : Declaring bodies done r x r') : Records.Adds bodies.mentioned r r' := by
  induction h with
  | finish => exact .refl _ _
  | @step done r r₁ r₂ name d x _ hd _ ih =>
    have hadds := ((mentions_structDecl bodies name).adds r).mono (bodies.mentionedBy_subset name)
    rw [hd] at hadds
    exact hadds.trans ih
  | @fail done r r₁ name f _ hd =>
    have hadds := ((mentions_structDecl bodies name).adds r).mono (bodies.mentionedBy_subset name)
    rwa [hd] at hadds

theorem le (h : Declaring bodies done r (.ok ds) r') : r.Le r' := by
  generalize hx : Except.ok ds = x at h
  induction h generalizing ds with
  | finish => exact .refl _
  | @step done r r₁ r₂ name d x _ hd _ ih =>
    cases x with
    | error f => cases hx
    | ok ds => exact ((emits_structDecl (P := fun _ => True) bodies name).grows hd).trans (ih rfl)
  | fail => cases hx

/-- Each struct that is worked off has its declaration, and what its body mentions is recorded. -/
theorem declared (h : Declaring bodies done r (.ok ds) r') :
    List.Forall₂ (fun n d => (structDecl bodies n r').1 = .ok d ∧ bodies.mentionedBy n ⊆ r'.named ∧
      DeclForm (fun _ => False) r' d) (r'.named.drop done) ds := by
  generalize hx : Except.ok ds = x at h
  induction h generalizing ds with
  | finish hdone =>
    cases hx
    rw [List.drop_eq_nil_of_le (List.getElem?_eq_none_iff.1 hdone)]
    exact .nil
  | @step done r r₁ r₂ name d x hname hd hrest ih =>
    cases x with
    | error f => cases hx
    | ok rest =>
      cases hx
      have hle : r₁.Le r₂ := hrest.le
      have hadds := (mentions_structDecl bodies name).adds r
      rw [hd] at hadds
      -- Names are added behind those that are there, so each stays at its place.
      have hname₂ : r₂.named[done]? = some name := by
        obtain ⟨hlt, rfl⟩ := List.getElem?_eq_some_iff.1 hname
        exact List.prefix_iff_getElem?.1 (hadds.isPrefix.trans hrest.adds.isPrefix) done hlt
      have hmem : name ∈ r₂.named := List.mem_of_getElem? hname₂
      obtain ⟨hlt, hat⟩ := List.getElem?_eq_some_iff.1 hname₂
      rw [List.drop_eq_getElem_cons hlt, hat]
      refine .cons ⟨?_, ?_, ?_⟩ (ih rfl)
      · exact (steady_structDecl bodies name _ _).trans (congrArg Prod.fst hd)
      · exact List.Subset.trans ((mentions_structDecl bodies name).all hd) hle.named
      · exact (emits_structDecl (P := fun _ => True) bodies name).holds hd hle trivial hmem
  | fail => cases hx

/-- What is recorded in the end is in every closed set that what was recorded before is in. -/
theorem closed {S : String → Prop} (hS : ∀ {n k : String}, S n → k ∈ bodies.mentionedBy n → S k)
    (h : Declaring bodies done r x r') (hr : ∀ n ∈ r.named, S n) : ∀ n ∈ r'.named, S n := by
  have hdecl {done : Nat} {r : Records} {name : String} (hname : r.named[done]? = some name)
      (hr : ∀ n ∈ r.named, S n) : ∀ n ∈ (structDecl bodies name r).2.named, S n := by
    intro n hn
    -- A name is new only if the body that is declared mentions it.
    obtain hn | hn := ((mentions_structDecl bodies name).adds r).mem hn
    · exact hr n hn
    · exact hS (hr name (List.mem_of_getElem? hname)) hn
  induction h with
  | finish => exact hr
  | step hname hd _ ih =>
    have hr₁ := hdecl hname hr
    rw [hd] at hr₁
    exact ih hr₁
  | fail hname hd =>
    have hr₁ := hdecl hname hr
    rwa [hd] at hr₁

theorem needed (h : Declaring bodies done r x r') {n : String} (hn : n ∈ r'.named) :
    Needed bodies (· ∈ r.named) n :=
  h.closed .mention (fun _ => .seed) n hn

end Declaring

/-- **The structs that are declared are exactly the needed ones, each by its declaration.** -/
theorem allStructDecls_ok {r r' : Records} {ds : List Decl}
    (h : allStructDecls bodies r = (.ok ds, r')) :
    r.Le r' ∧
    List.Forall₂ (fun n d => (structDecl bodies n r').1 = .ok d ∧ DeclForm (fun _ => False) r' d)
      r'.named ds ∧
    ∀ n, n ∈ r'.named ↔ Needed bodies (· ∈ r.named) n := by
  have hrun := declaring_iff.2 h
  have hdeclared := hrun.declared
  rw [List.drop_zero] at hdeclared
  refine ⟨hrun.le, hdeclared.imp fun n d hd => ⟨hd.1, hd.2.2⟩, fun n => ⟨hrun.needed, fun hn => ?_⟩⟩
  induction hn with
  | seed hn => exact hrun.adds.isPrefix.subset hn
  | mention _ hk ih =>
    obtain ⟨d, -, -, hmentioned, -⟩ := mem_of_forall₂ hdeclared ih
    exact hmentioned hk

end GoLift
