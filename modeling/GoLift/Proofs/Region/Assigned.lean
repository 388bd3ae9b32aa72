import GoLift.Proofs.Lower.Assigned
import GoLift.Proofs.Region.Forms

/-!
# What regions assign

A primitive puts the statements of its members together, with tests and statements for leaving, and
adds no assignment: **a region assigns nothing that none of its members does**
(`Region.Built.assignsOnly`). So what the blocks of a function assign when they are entered bounds
what the block assigns that is left of them, whatever the primitives are
(`Registry.handsOn_assignsOnly`).
-/

set_option autoImplicit false

namespace GoLift

open Go (Expr Stmt AssignsOnly)
open DraftM

variable {X : String → Prop} {scope : Scope} {D : Draft}

/-! ### Regions -/

namespace Region

theorem MemberStmts.assignsOnly {b : WorkBlock} {ss : List Stmt} (h : MemberStmts scope D b ss)
    (hb : AssignsOnly X b.sequence) : AssignsOnly X ss := by
  cases h with
  | stays _ => exact hb
  | leaves _ hend =>
    exact Go.assignsOnly_append.2 ⟨hb, hend.ensured (Lower.assignsOnly_exitStmts _)⟩

theorem assignsOnly_flatten {bs : List WorkBlock} {parts : List (List Stmt)}
    (h : List.Forall₂ (MemberStmts scope D) bs parts) (hbs : ∀ b ∈ bs, AssignsOnly X b.sequence) :
    AssignsOnly X parts.flatten := by
  induction h with
  | nil => exact Go.assignsOnly_nil
  | cons hb _ ih =>
    rw [List.forall_mem_cons] at hbs
    exact Go.assignsOnly_append.2 ⟨hb.assignsOnly hbs.1, ih hbs.2⟩

theorem assignsOnly_close {ss : List Stmt} {exit : Option WorkBlock} {join : Option String}
    {entry : String} (hss : AssignsOnly X ss)
    (hexit : ∀ b, exit = some b → AssignsOnly X b.sequence) :
    AssignsOnly X (close ss exit join entry).stmts := by
  cases exit with
  | none => exact hss
  | some b => exact Go.assignsOnly_append.2 ⟨hss, hexit b rfl⟩

/-- **A region assigns nothing that none of its members does.** -/
theorem Built.assignsOnly {kind : Kind} {ms : Members} {region : Region}
    (h : Built scope D kind ms region) (hms : ∀ m ∈ ms, AssignsOnly X m.2.sequence) :
    AssignsOnly X region.stmts := by
  have hrole : ∀ {role : String} {b : WorkBlock}, ms.lookup role = some b →
      AssignsOnly X b.sequence := fun hb => hms _ (mem_of_lookup hb)
  induction h with
  | @seq ms first last rest init parts hfirst hlast hparts =>
    obtain ⟨hinit, hend⟩ :=
      forall_init_last (P := fun b => AssignsOnly X b.sequence) hfirst hlast hms
    exact Go.assignsOnly_append.2 ⟨assignsOnly_flatten hparts hinit, hend⟩
  | ifThen hcond hbody _ hm =>
    refine assignsOnly_close (Go.assignsOnly_append.2 ⟨hrole hcond, ?_⟩) fun _ => hrole
    simpa using hm.assignsOnly (hrole hbody)
  | ifReturn _ _ _ ih => exact ih hms hrole
  | @ifElse _ _ _ _ yes no _ _ thenStmts elseStmts hcond hfirst hsecond harms _ _ _ hyes hno =>
    have harm : AssignsOnly X yes.sequence ∧ AssignsOnly X no.sequence := by
      obtain ⟨rfl, rfl⟩ | ⟨rfl, rfl⟩ := harms
      · exact ⟨hrole hfirst, hrole hsecond⟩
      · exact ⟨hrole hsecond, hrole hfirst⟩
    have hthen := hyes.assignsOnly harm.1
    have helse := hno.assignsOnly harm.2
    refine assignsOnly_close (Go.assignsOnly_append.2 ⟨hrole hcond, ?_⟩) fun _ => hrole
    simp [hthen, helse]
  | @preLoop _ _ _ test _ inner hcond hbody _ hm =>
    have hinner := hm.assignsOnly (hrole hbody)
    refine assignsOnly_close ?_ fun _ => hrole
    unfold preLoopStmt
    split <;> simp [breakUnless, hrole hcond, hinner]
  | postLoop hcond hbody _ hm =>
    refine assignsOnly_close ?_ fun _ => hrole
    simp [breakUnless, hrole hcond, hm.assignsOnly (hrole hbody)]
  | selfLoop hcond _ _ =>
    refine assignsOnly_close ?_ fun _ => hrole
    simp [breakUnless, hrole hcond]
  | compound hbody => exact hrole hbody

end Region

/-! ### Registries -/

namespace Registry

/-- What a block assigns is handed on. -/
theorem handsOn_assignsOnly : HandsOn scope (fun b => AssignsOnly X b.sequence) := by
  intro r r' p D ms region b happlied hms
  rw [WorkBlock.sequence, happlied.collapsed.stmts, happlied.collapsed.phiOut, List.append_nil]
  exact happlied.built.assignsOnly hms

/-- A block that is entered assigns what its instructions and its copies do. -/
theorem Seeded.assignsOnly {buffers : Table (List Stmt)} {b : Block} {w : WorkBlock}
    (hw : Seeded scope buffers D b w) (hinstrs : ∀ i ∈ b.instrs, ∀ x, i.MayAssign scope D x → X x)
    (hbuffers : ∀ e ∈ buffers.entries, AssignsOnly X e.2) : AssignsOnly X w.sequence := by
  refine Go.assignsOnly_append.2 ⟨?_, ?_⟩
  · obtain ⟨d, d', hstmts, hle⟩ := hw.stmts
    have hassigns := (Lower.lasts_instrs (P := fun _ => True) b.instrs).holds hstmts hle trivial
    refine hassigns.imp fun x hx => ?_
    obtain ⟨i, hi, hx⟩ := hx
    exact hinstrs i hi x hx
  · rw [hw.phiOut]
    cases hget : buffers.get? b.name with
    | none => exact Go.assignsOnly_nil
    | some ss =>
      obtain ⟨l₁, l₂, hsplit, -⟩ := List.lookup_eq_some_iff.1 hget
      exact hbuffers (b.name, ss) (by simp [hsplit])

end Registry

end GoLift
