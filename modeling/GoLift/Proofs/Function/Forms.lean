import GoLift.Proofs.Decompile
import GoLift.Proofs.Region.Forms

/-!
# Functions and globals are declared in the forms

Each phase of a function hands code to the next one, so **the declaration that comes out of a draft
is of the forms that this draft allows** (`Function.emits_decompileM`): its types are of the
structs and packages that are recorded, and its identifiers for values are the draft's. The
same is said of the declarations of global variables.
-/

set_option autoImplicit false

namespace GoLift

open Go (Expr Stmt FuncDecl Decl)
open Draft (Extends IsValue AreStmts)
open DraftM

variable {refs : List String} {P : Draft → Prop} {scope : Scope}

/-! ### Functions -/

theorem emits_varStmts (vars : List (String × Ty)) :
    Emits Extends P (varStmts vars) (fun D ss => ∀ s ∈ ss, VarForm D.records s) := by
  induction vars generalizing P with
  | nil => exact .pure fun _ _ => by simp
  | cons v vars ih =>
    exact (emits_goType v.2).bind fun _ => ih.bind fun _ => .pure fun D hD =>
      List.forall_mem_cons.2 ⟨.var hD.1.2, hD.2⟩

theorem emits_endStmts {b : WorkBlock} (hb : Region.Ends refs b) :
    Emits Extends P (endStmts scope b) (AreStmts refs) := by
  unfold endStmts
  split
  · exact .pure fun _ _ => .nil
  · next t ht =>
    rw [Region.Ends, ht] at hb
    exact Lower.emits_exitStmts hb

theorem emits_get : Emits Extends P get (fun _ _ => True) where
  grows h := by
    cases h
    exact refl_of Extends _
  holds _ _ _ := trivial

namespace Function

variable {f : Function}

theorem emits_signature (names : List String) {P : Records → Prop} :
    Emits Records.Le P (f.signature names)
      (fun r t => TypeM.FieldForms r t.params ∧ TypeM.FieldForms r t.results) :=
  TypeM.emits_goSignature names _ _ _

theorem emits_assemble (params : List String) {b : WorkBlock} (hb : Region.Ends refs b) :
    Emits Extends P (f.assemble scope params b)
      (fun D decl => AreStmts refs D b.sequence →
        DeclForm (D.Values refs) D.records (.func decl)) := by
  refine emits_get.after fun d => (emits_varStmts d.declared).bind fun vars =>
    (emits_endStmts hb).bind fun ending =>
      (emits_ofTypeM (f.emits_signature params)).bind fun type => .pure fun D hD hbody => ?_
  exact .func hD.2.1 hD.2.2 (List.append_assoc _ _ _) hD.1.1.2 (hbody.append hD.1.2)

theorem emits_inPhase {α : Type} {x : DraftM α} {Q : Draft → α → Prop} (function phase : String)
    (h : Emits Extends P x Q) : Emits Extends P (inPhase function phase x) Q where
  grows hx := h.grows (inPhase_ok.1 hx)
  holds hx := h.holds (inPhase_ok.1 hx)

/-- What every registry of the function's blocks keeps. -/
theorem ensures_seed {buffers : Table (List Stmt)} {blocks : List Block}
    (h : blocks.flatMap Block.mentions ⊆ refs) :
    Ensures (Registry.seed scope buffers blocks) (fun r => r.Sound ∧ r.Ends refs) := by
  intro d d' r hr
  obtain ⟨hsound, hseeded, -⟩ := Registry.seed_ok hr
  exact ⟨hsound, Registry.ends_of_seeded h hseeded⟩

theorem Ensures.inPhase {α : Type} {x : DraftM α} {φ : α → Prop} (function phase : String)
    (h : Ensures x φ) : Ensures (inPhase function phase x) φ :=
  fun d d' a ha => h d d' a (inPhase_ok.1 ha)

/-- **A function is declared in the forms that its draft allows.** -/
theorem emits_decompileM (f : Function) (setup : Setup) (feeds : FeedSource) :
    Emits Extends P (f.decompileM setup feeds)
      (fun D decl => DeclForm (D.Values f.mentions) D.records (.func decl)) := by
  have hmentions : f.body.flatMap Block.mentions ⊆ f.mentions := List.Subset.refl _
  -- Each phase is said to keep code code; only at the end is it put together that all is code.
  refine (emits_inPhase _ _ (emits_phiBuffers hmentions)).bind fun buffers =>
    (emits_inPhase _ _ (Registry.emits_seedFrom hmentions)).bind_ensures
      (Ensures.inPhase _ _ (ensures_seed hmentions)) fun r hr =>
    (emits_inPhase _ _ (emits_ofExcept _)).bind fun prims =>
    (emits_inPhase _ _ (Registry.emits_reduce hr.1 hr.2)).bind_ensures
      (Ensures.inPhase _ _ (Registry.ensures_reduce hr.1 hr.2)) fun b hb =>
    (emits_inPhase _ _ (emits_assemble _ hb)).bind fun decl =>
    (emits_tell _).bind fun _ => .pure fun D hD => ?_
  have hbuffers := hD.1.1.1.1.1.2
  have hseed := hD.1.1.1.1.2
  have hreduce := hD.1.1.2
  have hassemble := hD.1.2
  exact hassemble (hreduce (hseed hbuffers (by simp [Registry.AreCode, Registry.live])))

/-- A function that is defined elsewhere is declared by its types only. -/
theorem emits_declaration {P : Records → Prop} :
    Emits Records.Le P f.declaration (fun r decl => DeclForm (fun _ => False) r (.func decl)) :=
  (f.emits_signature _).bind fun _ => .pure fun _ h =>
    .func h.2.1 h.2.2 (List.append_nil []).symm (by simp) (by simp)

/-- How the result of a function is made. -/
inductive Makes (f : Function) (globals : List String) (feeds : FeedSource) : FunctionResult → Prop
  | declared {decl : FuncDecl} {records : Records} (hblocks : f.blocks = none)
      (hdecl : f.declaration {} = (.ok decl, records)) :
      Makes f globals feeds { name := f.name, decl, records }
  | defined {setup : Setup} {decl : FuncDecl} {d : Draft} (hblocks : f.blocks ≠ none)
      (hsetup : f.setup globals = .ok setup)
      (hdecl : f.decompileM setup feeds setup.draft = (.ok decl, d)) :
      Makes f globals feeds { name := f.name, decl, records := d.records }

variable {globals : List String} {feeds : FeedSource} {r : FunctionResult}

theorem makes_of_decompile (h : (f.decompile globals feeds).1 = .ok r) :
    f.Makes globals feeds r := by
  unfold decompile at h
  split at h
  · next hblocks =>
    split at h
    · next hdecl =>
      cases h
      exact .declared hblocks hdecl
    · cases h
  · next hblocks =>
    split at h
    · cases h
    · next hsetup =>
      split at h
      · next hdecl =>
        cases h
        exact .defined (by simp [hblocks]) hsetup hdecl
      · cases h

/-- The identifiers for values in the declaration of a function. -/
def ValueName (f : Function) (globals : List String) (feeds : FeedSource) (n : String) : Prop :=
  ∃ setup, f.setup globals = .ok setup ∧
    (f.decompileM setup feeds setup.draft).2.Values f.mentions n

/-- **A function that is decompiled is declared in the forms that its records allow.** -/
theorem decompile_form (h : (f.decompile globals feeds).1 = .ok r) :
    DeclForm (f.ValueName globals feeds) r.records (.func r.decl) := by
  cases makes_of_decompile h with
  | declared hblocks hdecl =>
    have hform := (f.emits_declaration (P := fun _ => True)).holds hdecl (.refl _) trivial
    exact hform.mono (fun _ hn => hn.elim) (.refl _)
  | defined hblocks hsetup hdecl =>
    have hform := (emits_decompileM (P := fun _ => True) f _ feeds).holds hdecl
      (refl_of Extends _) trivial
    exact hform.mono (fun n hn => ⟨_, hsetup, by rwa [hdecl]⟩) (.refl _)

end Function

/-! ### Globals -/

theorem emits_globalDecl {g : GlobalVar} (h : Value.globalsOf g.init.toList ⊆ refs) :
    Emits Extends P (globalDecl scope g) (fun D d => DeclForm (D.Values refs) D.records d) :=
  (emits_lowerAll scope _ h).bind fun _ => (emits_goType _).bind fun _ => .pure fun _ hD =>
    .global hD.2 hD.1.2

/-- The functions and global variables that the values of globals mention. -/
def GlobalVar.mentionsOf (gs : List GlobalVar) : List String :=
  gs.flatMap fun g => Value.globalsOf g.init.toList

theorem emits_globalDecls {gs : List GlobalVar} (h : GlobalVar.mentionsOf gs ⊆ refs) :
    Emits Extends P (globalDecls scope gs)
      (fun D ds => ∀ d ∈ ds, DeclForm (D.Values refs) D.records d) := by
  induction gs generalizing P with
  | nil => exact .pure fun _ _ => by simp
  | cons g gs ih =>
    obtain ⟨hg, hgs⟩ : Value.globalsOf g.init.toList ⊆ refs ∧ GlobalVar.mentionsOf gs ⊆ refs := by
      simpa [GlobalVar.mentionsOf] using h
    exact (emits_globalDecl hg).bind fun _ => (ih hgs).bind fun _ => .pure fun D hD =>
      List.forall_mem_cons.2 ⟨hD.1.2, hD.2⟩

end GoLift
