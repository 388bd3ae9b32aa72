import GoLift.Proofs.Lower.Statements
import GoLift.Proofs.Region.Accounting
import GoLift.Proofs.Region.Reachable
import GoLift.Proofs.Region.Vetted

/-!
# Reduction keeps to the forms

The working blocks of a registry are code at every time: those of the function are lowered
instructions and phi copies, and a primitive makes statements of statements (`emits_build`). A
condition or a leaving terminator is lowered late, when the block is taken or the function is
assembled, so the registry also keeps what the ends of its blocks mention.
-/

set_option autoImplicit false

namespace GoLift

open Go (Expr Stmt)
open Draft (Extends IsValue AreStmts AreBuffers)
open DraftM

variable {refs : List String} {P : Draft → Prop} {scope : Scope} {p : Primitive}

/-! ### Regions -/

namespace Region

/-- What is made of statements that are code, is code. -/
abbrev KeepsCode (refs : List String) (bs : List WorkBlock) (D : Draft) (ss : List Stmt) : Prop :=
  (∀ b ∈ bs, AreStmts refs D b.sequence) → AreStmts refs D ss

/-- The functions and global variables that the end of a block mentions may be named. -/
abbrev Ends (refs : List String) (b : WorkBlock) : Prop :=
  Terminator.mentions b.terminator ⊆ refs

theorem emits_member {b : WorkBlock} (hb : Ends refs b) :
    Emits Extends P (member scope b) (KeepsCode refs [b]) := by
  have hself {D : Draft} (h : ∀ b' ∈ [b], AreStmts refs D b'.sequence) :
      AreStmts refs D b.sequence := h b List.mem_cons_self
  unfold member
  split
  · exact (Lower.emits_exitStmts hb).bind fun _ => .pure fun D hD h => (hself h).append hD.2
  · exact .pure fun D _ h => hself h

theorem emits_membersOf {bs : List WorkBlock} (h : ∀ b ∈ bs, Ends refs b) :
    Emits Extends P (membersOf scope bs) (KeepsCode refs bs) := by
  induction bs generalizing P with
  | nil => exact .pure fun _ _ _ => .nil
  | cons b bs ih =>
    obtain ⟨hb, hbs⟩ := List.forall_mem_cons.1 h
    refine (emits_member hb).bind fun _ => (ih hbs).bind fun _ => .pure fun D hD h => ?_
    obtain ⟨h, hs⟩ := List.forall_mem_cons.1 h
    exact (hD.1.2 (by simpa using h)).append (hD.2 hs)

theorem emits_condBranch (cond : WorkBlock) :
    Emits Extends P (condBranch p cond) (fun _ _ => True) := by
  unfold condBranch
  split
  · exact .pure fun _ _ => trivial
  · exact .refuse
  · exact .refuse

/-- The condition of a branch is lowered. -/
theorem emits_test {cond : WorkBlock} {c : Value} {t f : String} (hcond : Ends refs cond)
    (h : cond.terminator = some (.condBr c t f)) :
    Emits Extends P (c.lower scope) (IsValue refs) := by
  refine emits_lower scope c ?_
  simpa [Ends, h, Terminator.mentions, Terminator.operands] using hcond

theorem emits_branchTowards {cond : WorkBlock} (target : WorkBlock) (hcond : Ends refs cond) :
    Emits Extends P (branchTowards scope p cond target) (fun D x => IsValue refs D x.1) := by
  refine (emits_condBranch cond).bind_ensures (ensures_condBranch p cond) fun (c, t, f) h =>
    (emits_test hcond h).bind fun test => ?_
  split
  · exact .pure fun D hD => hD.2
  · split
    · exact .pure fun D hD => hD.2.negate
    · exact .refuse

/-- The members of a region. -/
abbrev Keeps (refs : List String) (ms : Members) (D : Draft) (region : Region) : Prop :=
  KeepsCode refs (ms.map Prod.snd) D region.stmts

/-- The statement of a test that ends a loop. -/
theorem breakUnless_form {V : String → Prop} {r : Records} {test : Expr} (h : ValueForm V r test) :
    StmtForm V r (breakUnless test) :=
  .ifElse h.negate (by simpa using .branch) (by simp)

section

variable {ms : Members} {D : Draft}

theorem close_code {ss : List Stmt} {join : Option String} {entry : String}
    (hms : ∀ b ∈ ms.map Prod.snd, AreStmts refs D b.sequence) (hss : AreStmts refs D ss) :
    AreStmts refs D (close ss (ms.lookup "exit") join entry).stmts := by
  unfold close
  split
  · next b hb => exact hss.append (hms b (List.mem_map_of_mem (mem_of_lookup hb)))
  · exact hss

variable (hms : ∀ m ∈ ms, Ends refs m.2)

include hms

theorem ends_of_lookup {role : String} {b : WorkBlock} (h : ms.lookup role = some b) :
    Ends refs b :=
  hms _ (mem_of_lookup h)

theorem emits_seq : Emits Extends P (seq scope p ms) (Keeps refs ms) := by
  unfold seq
  split
  · exact .refuse
  · next first rest heq =>
    have hends : ∀ b ∈ first :: rest, Ends refs b := by
      rw [← heq]
      simpa using fun b role => hms (role, b)
    have hlast : rest.getLast?.getD first ∈ first :: rest := by
      cases h : rest.getLast? with
      | none => exact List.mem_cons_self
      | some b => exact List.mem_cons_of_mem _ (List.mem_of_getLast? h)
    refine (emits_membersOf fun b hb => hends b (List.dropLast_subset _ hb)).bind fun _ =>
      .pure fun D hD h => ?_
    rw [heq] at h
    exact (hD.2 fun b hb => h b (List.dropLast_subset _ hb)).append (h _ hlast)

/-- A condition with a body, whatever statement is made of them. -/
theorem emits_guarded {cond body : WorkBlock} (hcond : ms.lookup "cond" = some cond)
    (hbody : ms.lookup "body" = some body) {k : Expr × String → List Stmt → List Stmt → Region}
    (hk : ∀ D branch head inner, IsValue refs D branch.1 → AreStmts refs D head →
      AreStmts refs D inner → (∀ b ∈ ms.map Prod.snd, AreStmts refs D b.sequence) →
      AreStmts refs D (k branch head inner).stmts) :
    Emits Extends P (do
      let branch ← branchTowards scope p cond body
      let head ← member scope cond
      let inner ← member scope body
      return k branch head inner) (Keeps refs ms) := by
  refine (emits_branchTowards body (ends_of_lookup hms hcond)).bind fun branch =>
    (emits_member (ends_of_lookup hms hcond)).bind fun head =>
      (emits_member (ends_of_lookup hms hbody)).bind fun inner => .pure fun D hD h => ?_
  have hone {role : String} {b : WorkBlock} (hb : ms.lookup role = some b) :
      ∀ b' ∈ [b], AreStmts refs D b'.sequence := by
    simpa using h b (List.mem_map_of_mem (mem_of_lookup hb))
  exact hk D branch head inner hD.1.1.2 (hD.1.2 (hone hcond)) (hD.2 (hone hbody)) h

theorem emits_ifThen : Emits Extends P (ifThen scope p ms) (Keeps refs ms) := by
  unfold ifThen
  split
  · next cond body hcond hbody =>
    exact emits_guarded hms hcond hbody fun D branch head inner htest hhead hinner h =>
      close_code h (hhead.append (.single (.ifElse htest hinner (by simp))))
  · exact .refuse

theorem emits_ifReturn : Emits Extends P (ifReturn scope p ms) (Keeps refs ms) := by
  unfold ifReturn
  split
  · split
    · exact emits_ifThen hms
    · exact .refuse
  · exact .refuse

theorem emits_ifElse : Emits Extends P (ifElse scope p ms) (Keeps refs ms) := by
  unfold ifElse
  split
  · next cond first second hcond hfirst hsecond =>
    refine (emits_condBranch cond).bind_ensures (ensures_condBranch p cond) fun (c, t, f) hbr => ?_
    dsimp only
    split
    · next yes no hyes hno =>
      split
      · exact .refuse
      · next hne =>
        obtain ⟨harms, -, -⟩ := arms_of_targets (by simpa using hne) hyes hno
        -- The arms may stand in either role, but both are members.
        have hmem : (∃ role, ms.lookup role = some yes) ∧ ∃ role, ms.lookup role = some no := by
          rcases harms with ⟨rfl, rfl⟩ | ⟨rfl, rfl⟩
          · exact ⟨⟨_, hfirst⟩, _, hsecond⟩
          · exact ⟨⟨_, hsecond⟩, _, hfirst⟩
        obtain ⟨⟨_, hyes⟩, _, hno⟩ := hmem
        refine (emits_test (ends_of_lookup hms hcond) hbr).bind fun _ =>
          (emits_member (ends_of_lookup hms hyes)).bind fun _ =>
            (emits_member (ends_of_lookup hms hno)).bind fun _ =>
              (emits_member (ends_of_lookup hms hcond)).bind fun _ => .pure fun D hD h => ?_
        have hone {role : String} {b : WorkBlock} (hb : ms.lookup role = some b) :
            ∀ b' ∈ [b], AreStmts refs D b'.sequence := by
          simpa using h b (List.mem_map_of_mem (mem_of_lookup hb))
        have hthen := hD.1.1.2 (hone hyes)
        have helse := hD.1.2 (hone hno)
        refine close_code h ((hD.2 (hone hcond)).append (.single (.ifElse hD.1.1.1.2 hthen ?_)))
        simpa using StmtForm.block helse
    · exact .refuse
  · exact .refuse

theorem emits_preLoop : Emits Extends P (preLoop scope p ms) (Keeps refs ms) := by
  unfold preLoop
  split
  · next cond body hcond hbody =>
    refine emits_guarded hms hcond hbody fun D branch head inner htest hhead hinner h =>
      close_code h (.single ?_)
    split
    · exact .loop (by simpa using htest) hinner
    · exact .loop (by simp) (hhead.append (.cons (breakUnless_form htest) hinner))
  · exact .refuse

theorem emits_postLoop : Emits Extends P (postLoop scope p ms) (Keeps refs ms) := by
  unfold postLoop
  split
  · next cond hcond =>
    have hbody : ∀ b ∈ (ms.lookup "body").toList, Ends refs b := fun b hb =>
      ends_of_lookup hms (Option.mem_toList.1 hb)
    refine (emits_branchTowards _ (ends_of_lookup hms hcond)).bind fun _ =>
      (emits_membersOf hbody).bind fun _ =>
        (emits_member (ends_of_lookup hms hcond)).bind fun _ => .pure fun D hD h => ?_
    have hinner := hD.1.2 fun b hb =>
      h b (List.mem_map_of_mem (mem_of_lookup (Option.mem_toList.1 hb)))
    have hlast := hD.2 (by simpa using h cond (List.mem_map_of_mem (mem_of_lookup hcond)))
    exact close_code h (.single (.loop (by simp)
      ((hinner.append hlast).append (.single (breakUnless_form hD.1.1.2)))))
  · exact .refuse

omit hms in
theorem emits_compound : Emits Extends P (compound p ms) (Keeps refs ms) := by
  unfold compound
  split
  · next body hbody =>
    exact .pure fun D _ h => h body (List.mem_map_of_mem (mem_of_lookup hbody))
  · exact .refuse

/-- **A region that is built of code is code.** -/
theorem emits_build : Emits Extends P (build scope p ms) (Keeps refs ms) := by
  unfold build
  split
  · exact emits_seq hms
  · exact emits_ifThen hms
  · exact emits_ifReturn hms
  · exact emits_ifElse hms
  · exact emits_preLoop hms
  · exact emits_postLoop hms
  · exact emits_compound
  · exact .refuse

end

/-- A region ends like one of its members, or in a branch, or not at all. -/
theorem Vetted.terminator {kind : Kind} {ms : Members} {t : Option Terminator}
    (h : Vetted kind ms t) :
    (∃ m ∈ ms, t = m.2.terminator) ∨ t = none ∨ ∃ l, t = some (.br l) := by
  have hclosing (join : Option String) : (∃ m ∈ ms, closing ms join = m.2.terminator) ∨
      closing ms join = none ∨ ∃ l, closing ms join = some (.br l) := by
    unfold closing
    split
    · next b hb => exact .inl ⟨_, mem_of_lookup hb, rfl⟩
    · cases join with
      | none => exact .inr (.inl rfl)
      | some l => exact .inr (.inr ⟨l, rfl⟩)
  cases h with
  | @seq _ last init hms =>
    have hlast : last ∈ ms.map Prod.snd := by simp [hms]
    obtain ⟨m, hm, rfl⟩ := List.mem_map.1 hlast
    exact .inl ⟨m, hm, rfl⟩
  | conditional => exact hclosing _
  | ifElse => exact hclosing _
  | postLoop => exact hclosing _
  | compound hbody => exact .inl ⟨_, mem_of_lookup hbody, rfl⟩

/-- A region mentions at its end only what its members do. -/
theorem Vetted.mentions {kind : Kind} {ms : Members} {t : Option Terminator} (h : Vetted kind ms t)
    (hms : ∀ m ∈ ms, Ends refs m.2) : Terminator.mentions t ⊆ refs := by
  obtain ⟨m, hm, rfl⟩ | rfl | ⟨l, rfl⟩ := h.terminator
  · exact hms m hm
  · simp [Terminator.mentions]
  · simp [Terminator.mentions, Terminator.operands]

end Region

/-! ### Registries -/

namespace Registry

variable {r r' : Registry} {buffers : Table (List Stmt)} {blocks : List Block}

/-- The live blocks are code. -/
def AreCode (refs : List String) (D : Draft) (r : Registry) : Prop :=
  ∀ b ∈ r.live, AreStmts refs D b.sequence

/-- The functions and global variables that the ends of the live blocks mention may be named. -/
def Ends (refs : List String) (r : Registry) : Prop :=
  ∀ b ∈ r.live, Region.Ends refs b

/-- A block that is entered is code if its statements and its copies are. -/
theorem AreCode.enter {D : Draft} {b : NewBlock} (hr : r.AreCode refs D)
    (hstmts : AreStmts refs D b.stmts) (hphi : AreStmts refs D b.phiOut) :
    (r.enter b).2.AreCode refs D := by
  intro w hw
  rw [live_enter] at hw
  obtain hw | hw := List.mem_append.1 hw
  · exact hr w hw
  · obtain rfl := List.mem_singleton.1 hw
    exact hstmts.append hphi

theorem emits_seedFrom (h : blocks.flatMap Block.mentions ⊆ refs) :
    Emits Extends P (seedFrom scope buffers r blocks)
      (fun D r' => AreBuffers refs D buffers.entries → r.AreCode refs D → r'.AreCode refs D) := by
  induction blocks generalizing r P with
  | nil => exact .pure fun _ _ _ hr => hr
  | cons b blocks ih =>
    obtain ⟨hb, hbs⟩ : b.mentions ⊆ refs ∧ blocks.flatMap Block.mentions ⊆ refs := by
      simpa [List.flatMap_cons] using h
    have hinstrs : b.instrs.flatMap Instr.mentions ⊆ refs :=
      List.Subset.trans (List.subset_append_left _ _) hb
    refine (Lower.emits_instrs hinstrs).bind fun stmts => ?_
    dsimp only
    cases hlabel : r.contains b.name with
    | true =>
      rw [insert_of_contains hlabel]
      exact .refuse
    | false =>
      rw [insert_of_not_contains hlabel]
      refine (ih hbs).imp fun D r' hD hrest hbuffers hr => hrest hbuffers (hr.enter hD.2 ?_)
      dsimp only
      cases hget : buffers.get? b.name with
      | none => exact .nil
      | some ss =>
        obtain ⟨l₁, l₂, hsplit, -⟩ := List.lookup_eq_some_iff.1 hget
        exact hbuffers (b.name, ss) (by simp [hsplit])

theorem ends_of_seeded {D : Draft} (h : blocks.flatMap Block.mentions ⊆ refs)
    (hseeded : List.Forall₂ (Seeded scope buffers D) blocks r.live) : r.Ends refs := by
  intro w hw
  obtain ⟨b, hb, hbw⟩ := mem_of_forall₂ hseeded.flip hw
  have hends : Terminator.mentions b.terminator ⊆ b.mentions := List.subset_append_right _ _
  rw [Region.Ends, hbw.terminator]
  exact fun g hg => h (List.mem_flatMap.2 ⟨b, hb, hends hg⟩)

theorem ensures_ofExcept {α : Type} (x : Except Fault α) :
    Ensures (DraftM.ofExcept x) (fun a => x = .ok a) :=
  fun _ _ _ h => (ofExcept_ok h).1

theorem Collapsed.areCode {D : Draft} {ms : Members} {region : Region} {b : WorkBlock}
    (h : Collapsed r ms region b r') (hms : ∀ m ∈ ms, m.2 ∈ r.live) (hr : r.AreCode refs D)
    (hregion : Region.Keeps refs ms D region) : r'.AreCode refs D := by
  intro w hw
  rw [h.live] at hw
  obtain hw | hw := List.mem_append.1 hw
  · exact hr w (List.mem_filter.1 hw).1
  · obtain rfl := List.mem_singleton.1 hw
    rw [WorkBlock.sequence, h.stmts, h.phiOut, List.append_nil]
    refine hregion fun b hb => ?_
    obtain ⟨m, hm, rfl⟩ := List.mem_map.1 hb
    exact hr _ (hms m hm)

theorem emits_apply (hr : r.Sound) (hends : r.Ends refs) :
    Emits Extends P (r.apply scope p)
      (fun D x => r.AreCode refs D → x.2.AreCode refs D) := by
  refine (emits_ofExcept _).after fun _ =>
    (emits_ofExcept _).bind_ensures (ensures_ofExcept _) fun ms hms =>
      (emits_ofExcept _).bind_ensures (ensures_ofExcept _) fun _ hcheck => ?_
  have hres := resolve_ok hr hms
  exact (Region.emits_build fun m hm => hends _ (hres.live m hm)).bind fun region =>
    (emits_tell _).after fun _ => .pure fun D hD hcode =>
      (collapsed hr hres hcheck region).areCode hres.live hcode hD.2

/-- The block that is left is live. -/
theorem mem_live_of_survivor {b : WorkBlock} (h : r.survivor = .ok b) : b ∈ r.live := by
  rw [survivor_eq_ok.1 h]
  exact List.mem_singleton_self b

/-- A property of blocks is handed on if a block has it that is made of members that have it. -/
def HandsOn (scope : Scope) (K : WorkBlock → Prop) : Prop :=
  ∀ {r r' : Registry} {p : Primitive} {D : Draft} {ms : Members} {region : Region} {b : WorkBlock},
    Applied scope p r D ms region b r' → (∀ m ∈ ms, K m.2) → K b

namespace HandsOn

variable {K : WorkBlock → Prop}

/-- What all live blocks have, they have after a primitive is applied. -/
theorem apply (hK : HandsOn scope K) (hr : r.Sound) (h : ∀ b ∈ r.live, K b) :
    Ensures (r.apply scope p) (fun x => x.2.Sound ∧ ∀ b ∈ x.2.live, K b) := by
  intro d d' ⟨b, r'⟩ happly
  obtain ⟨ms, region, happlied⟩ := apply_ok hr happly
  refine ⟨happlied.collapsed.sound, fun w hw => ?_⟩
  obtain ⟨hw, -⟩ | rfl := (happlied.mem_live hr).1 hw
  · exact h w hw
  · exact hK happlied fun m hm => h m.2 (happlied.resolved.live m hm)

/-- **What all live blocks have, the block that is left has.** -/
theorem reduce (hK : HandsOn scope K) (hr : r.Sound) (h : ∀ b ∈ r.live, K b)
    {prims : List Primitive} : Ensures (r.reduce scope prims) K := by
  have hall : Ensures (r.applyAll scope prims) (fun r' => ∀ b ∈ r'.live, K b) := by
    induction prims generalizing r with
    | nil => exact .pure h
    | cons p ps ih => exact (hK.apply hr h).bind fun x hx => ih hx.1 hx.2
  exact hall.bind fun r' h _ _ b hb => h b (mem_live_of_survivor (ofExcept_ok hb).1)

end HandsOn

/-- What the end of a block mentions is handed on. -/
theorem handsOn_ends : HandsOn scope (Region.Ends refs) := by
  intro r r' p D ms region b happlied hms
  rw [Region.Ends, happlied.collapsed.terminator]
  exact happlied.built.vetted.mentions hms

theorem emits_applyAll {prims : List Primitive} (hr : r.Sound) (hends : r.Ends refs) :
    Emits Extends P (r.applyAll scope prims)
      (fun D r' => r.AreCode refs D → r'.AreCode refs D) := by
  induction prims generalizing r P with
  | nil => exact .pure fun _ _ h => h
  | cons p ps ih =>
    refine (emits_apply hr hends).bind_ensures (handsOn_ends.apply hr hends) fun ⟨b, r'⟩ h => ?_
    exact (ih h.1 h.2).imp fun D r'' hD hrest hcode => hrest (hD.2 hcode)

theorem ensures_reduce {prims : List Primitive} (hr : r.Sound) (hends : r.Ends refs) :
    Ensures (r.reduce scope prims) (Region.Ends refs) :=
  handsOn_ends.reduce hr hends

/-- **The block that is left is code.** -/
theorem emits_reduce {prims : List Primitive} (hr : r.Sound) (hends : r.Ends refs) :
    Emits Extends P (r.reduce scope prims)
      (fun D b => r.AreCode refs D → AreStmts refs D b.sequence) := by
  refine (emits_applyAll hr hends).bind fun r' => ?_
  exact (emits_ofExcept r'.survivor).imp fun D b hD hb hcode =>
    hD.2 hcode b (mem_live_of_survivor hb)

end Registry

end GoLift
