import GoLift.Assembly
import GoLift.Proofs.Region.Layout

/-!
# The body of a function

The block that a reduction leaves is laid out by the marks of the function
(`Registry.LaidOut`), and assembling puts declarations before it and a statement for
the last pending terminator behind it. So **each block of the function is in the body
once, and each of its leaving terminators is a statement of the body once**
(`assemble_layout`).
-/

set_option autoImplicit false

namespace GoLift

open Go (Expr Stmt FuncDecl)
open DraftM
open Fragment (renderAll marksAll)

variable {scope : Scope} {D : Draft} {r : Registry} {b : WorkBlock}

theorem steady_varStmts (vars : List (String × Ty)) : Steady (varStmts vars) := by
  induction vars with
  | nil => exact .pure _
  | cons v vars ih => exact (steady_goType v.2).bind fun _ => ih.bind fun _ => .pure _

/-- A variable is declared by a declaration of one name without a value. -/
theorem varStmts_eq {vars : List (String × Ty)} {ss : List Stmt} (h : Gives (varStmts vars) D ss) :
    ∀ s ∈ ss, ∃ name type, s = .decl (varDecl name type []) := by
  induction vars generalizing ss with
  | nil =>
    rw [h.pure]
    simp
  | cons v vars ih =>
    obtain ⟨type, -, h⟩ := h.bind fun _ => (steady_varStmts vars).grows.bind fun _ => .pure _
    obtain ⟨rest, hrest, h⟩ := h.bind fun _ => .pure _
    rw [h.pure, List.forall_mem_cons]
    exact ⟨⟨v.1, type, rfl⟩, ih hrest⟩

theorem steady_endStmts (scope : Scope) (b : WorkBlock) : Steady (endStmts scope b) := by
  unfold endStmts
  split
  · exact .pure _
  · exact Lower.steady_exitStmts scope _

/-- The statements of the surviving block and its end are laid out by its plan. -/
theorem Fits.body {os : List WorkBlock} {q : Plan} {ending : List Stmt}
    (hb : Fits scope D os b.sequence b.terminator q) (hend : Gives (endStmts scope b) D ending) :
    Renders scope D os (b.sequence ++ ending) q.whole := by
  unfold endStmts at hend
  split at hend
  · next hnone =>
    have hpending := hb.pending
    rw [hend.pure, List.append_nil]
    obtain ⟨fragments, _ | i⟩ := q
    · simpa [Plan.whole] using hb.renders
    · rw [hnone] at hpending
      cases hpending.1
  · next t ht =>
    rw [← ht] at hend
    exact hb.whole hend

/-- The parts that a function is assembled of. -/
theorem assemble_parts {f : Function} {params : List String} {decl : FuncDecl} {d d' : Draft}
    (h : f.assemble scope params b d = (.ok decl, d')) :
    ∃ vars d₁ ending d₂ type, varStmts d.declared d = (.ok vars, d₁) ∧
      endStmts scope b d₁ = (.ok ending, d₂) ∧
      DraftM.ofTypeM (f.signature params) d₂ = (.ok type, d') ∧
      decl = { name := goName f.name, type, body := some (vars ++ b.sequence ++ ending) } := by
  obtain ⟨s, d₁, hget, h₁⟩ := bind_ok h
  obtain ⟨vars, d₂, hvars, h₂⟩ := bind_ok h₁
  obtain ⟨ending, d₃, hend, h₃⟩ := bind_ok h₂
  obtain ⟨type, d₄, htype, h₄⟩ := bind_ok h₃
  cases hget
  cases h₄
  exact ⟨vars, d₂, ending, d₃, type, hvars, hend, htype, rfl⟩

/-- The body of an assembled function. -/
theorem assemble_ok {f : Function} {params : List String} {decl : FuncDecl} {d d' : Draft}
    (h : f.assemble scope params b d = (.ok decl, d')) :
    ∃ vars ending d₁, Gives (varStmts d₁) d' vars ∧ Gives (endStmts scope b) d' ending ∧ d ≤ d' ∧
      decl.body = some (vars ++ b.sequence ++ ending) := by
  obtain ⟨vars, d₁, ending, d₂, type, hvars, hend, htype, rfl⟩ := assemble_parts h
  have hle₂ : d₂ ≤ d' := (grows_ofTypeM _).apply htype
  have hle₁ : d₁ ≤ d' := ((steady_endStmts scope b).grows.apply hend).trans hle₂
  exact ⟨vars, ending, _, ⟨_, _, hvars, hle₁⟩, ⟨_, _, hend, hle₂⟩,
    ((steady_varStmts _).grows.apply hvars).trans hle₁, rfl⟩

/-- **No code is lost and none is duplicated.** The body that is assembled from the
block of a whole reduction is declarations of variables and then the rendering of a
layout in which the code of each block of the function is once, contiguous and in its
order, and the statement of each terminator that leaves the function is once. All else
in a layout is conditions, loops and the tests in loops. -/
theorem assemble_layout {buffers : Table (List Stmt)} {blocks : List Block}
    {prims : List Primitive} {f : Function} {params : List String} {decl : FuncDecl}
    {d d₁ d₂ d₃ : Draft} (hseed : Registry.seed scope buffers blocks d = (.ok r, d₁))
    (hprims : ∀ p ∈ prims, p.Canonical) (hreduce : r.reduce scope prims d₁ = (.ok b, d₂))
    (hassemble : f.assemble scope params b d₂ = (.ok decl, d₃)) :
    List.Forall₂ (Registry.Seeded scope buffers d₁) blocks r.live ∧
      ∃ vars layout,
        decl.body = some (vars ++ renderAll (codeAt r.live) (endingAt scope d₃ r.live) layout) ∧
        (∀ s ∈ vars, ∃ name type, s = .decl (varDecl name type [])) ∧
        (marksAll layout).Perm (allMarks r.live) ∧
        ∀ i ∈ leavingBlocks r.live, ∃ s, endingAt scope d₃ r.live i = [s] ∧ LeavesBy s := by
  obtain ⟨hr, hseeded, hhandles⟩ := Registry.seed_ok hseed
  rw [hseeded.length_eq] at hhandles
  obtain ⟨vars, ending, d₄, hvars, hend, hle, hbody⟩ := assemble_ok hassemble
  obtain ⟨r₂, d₅, happly, hlast⟩ := bind_ok hreduce
  obtain ⟨hsurvivor, rfl⟩ := ofExcept_ok hlast
  obtain ⟨plans, hlaid⟩ := (Registry.laidOut_seed hhandles).applyAll hr hprims happly hle
  have hlive : r₂.live = [b] := by
    unfold Registry.survivor at hsurvivor
    split at hsurvivor
    · next b' hb' => rw [hb', Except.ok.inj hsurvivor]
    · cases hsurvivor
  have hmarks := hlaid.marks
  have hfits := hlaid.fits b (by simp [hlive])
  rw [hlive, List.flatMap_singleton] at hmarks
  have hwhole := hfits.body hend
  refine ⟨hseeded, vars, _, ?_, varStmts_eq hvars, hmarks, fun i hi => hwhole.leave i ?_⟩
  · rw [hbody, ← hwhole.eq, List.append_assoc]
  · rw [hmarks.mem_iff]
    exact List.mem_append_right _ (List.mem_map_of_mem hi)

/-! ### Two blocks in a row -/

namespace InARow

/-- A block that goes to another, which returns. -/
def blocks : List Block :=
  [{ name := "first", terminator := some (.br "second") },
    { name := "second", terminator := some (.ret none) }]

def function : Function :=
  { name := "f", ret := .void, blocks := some blocks }

/-- The primitive that puts the second behind the first. -/
def row : Primitive :=
  { kind := .seq, sequence := ["first", "second"], node := some "row" }

theorem signature_eq : function.signature [] = pure {} := by
  simp [Function.signature, goSignature, goTypes, goResults, namelessFields, function]

/-- The body has the code of both blocks and the statement of the second. -/
theorem row_layout :
    ∃ r d₁ b d₂ decl d₃,
      Registry.seed {} {} blocks {} = (.ok r, d₁) ∧ (∀ p ∈ [row], p.Canonical) ∧
      r.reduce {} [row] d₁ = (.ok b, d₂) ∧ function.assemble {} [] b d₂ = (.ok decl, d₃) ∧
      ∃ vars layout,
        decl.body = some (vars ++ renderAll (codeAt r.live) (endingAt {} d₃ r.live) layout) ∧
        (marksAll layout).Perm [.code 0, .code 1, .leave 1] := by
  obtain ⟨r, d₁, b, d₂, hseed, hreduce, hall, decl, d₃, hassemble⟩ :
      ∃ r d₁ b d₂, Registry.seed {} {} blocks {} = (.ok r, d₁) ∧
        r.reduce {} [row] d₁ = (.ok b, d₂) ∧
        allMarks r.live = [.code 0, .code 1, .leave 1] ∧
        ∃ decl d₃, function.assemble {} [] b d₂ = (.ok decl, d₃) := by
    refine ⟨_, _, _, _, rfl, rfl, rfl, ?_⟩
    simp only [Function.assemble, signature_eq]
    exact ⟨_, _, rfl⟩
  have hrow : ∀ p ∈ [row], p.Canonical := by
    rw [List.forall_mem_singleton]
    exact .inl rfl
  obtain ⟨-, vars, layout, hbody, -, hmarks, -⟩ := assemble_layout hseed hrow hreduce hassemble
  exact ⟨r, d₁, b, d₂, decl, d₃, hseed, hrow, hreduce, hassemble, vars, layout, hbody, hall ▸ hmarks⟩

end InARow

end GoLift
