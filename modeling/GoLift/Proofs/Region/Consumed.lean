import GoLift.Proofs.Decompile
import GoLift.Proofs.Go.Occurs
import GoLift.Proofs.Region.Recode

/-!
# What becomes of the code of members

A primitive takes all the blocks that it names, and its block is made of those that play a role
which the kind knows (`Primitive.Uses`). **The code of such a member occurs in the new block**
(`Region.Built.occurs`), whatever the kind. A member in any other role is taken as well, but
nothing looks at its code: **with other code in its place the primitive makes the same block**
(`Registry.apply_recode`), and its code is gone.

So all code is kept exactly by primitives that name no roles but those of their kind
(`Registry.consumed_code`).
-/

set_option autoImplicit false

namespace GoLift

open Go (Expr Stmt Occurs)

/-- The role is one that the statement of the kind is made from. A sequence is made of all its
members. -/
def Primitive.Uses (p : Primitive) (role : String) : Prop :=
  p.kind = .seq ∨ role ∈ p.kind.roles?.getD []

/-! ### Members in their roles -/

/-- A member in a role of the kind is the one that the role is mapped to. -/
theorem Primitive.get?_of_mem_members {p : Primitive} (hlisted : p.isListed = false)
    {role label : String} (h : (role, label) ∈ p.members) (hrole : role ∈ p.kind.roles?.getD []) :
    p.roles.get? role = some label := by
  simp only [members, hlisted, Bool.false_eq_true, if_false, List.mem_append, List.mem_filterMap,
    List.mem_mergeSort, List.mem_filter] at h
  rcases h with ⟨known, -, h⟩ | ⟨-, hextra⟩
  · obtain ⟨l, hl, heq⟩ := Option.map_eq_some_iff.1 h
    cases heq
    exact hl
  · simp [hrole] at hextra

theorem Primitive.isListed_eq_false {p : Primitive} (h : p.kind ≠ .seq) : p.isListed = false := by
  simp [isListed, h]

theorem Registry.Resolved.mem_members {r : Registry} {p : Primitive} {ms : Members}
    (h : r.Resolved p ms) {role : String} {w : WorkBlock} (hm : (role, w) ∈ ms) :
    (role, w.label) ∈ p.members := by
  rw [← h.names]
  exact List.mem_map.2 ⟨(role, w), hm, rfl⟩

/-- The block in a role of the kind is found under it. -/
theorem Registry.Resolved.lookup_eq {r : Registry} {p : Primitive} {ms : Members}
    (hres : r.Resolved p ms) (hkind : p.kind ≠ .seq) {role : String} {w : WorkBlock}
    (hm : (role, w) ∈ ms) (hrole : role ∈ p.kind.roles?.getD []) : ms.lookup role = some w := by
  have hlisted := Primitive.isListed_eq_false hkind
  have hlabel : ∀ {b : WorkBlock}, (role, b) ∈ ms → p.roles.get? role = some b.label :=
    fun hb => Primitive.get?_of_mem_members hlisted (hres.mem_members hb) hrole
  cases hfound : ms.lookup role with
  | none =>
    have := List.lookup_eq_none_iff.1 hfound _ hm
    simp at this
  | some b =>
    have hb := Region.mem_of_lookup hfound
    have heq : b.label = w.label := Option.some.inj ((hlabel hb).symm.trans (hlabel hm))
    have hsame := List.inj_on_of_nodup_map hres.nodup hb hm heq
    rw [(Prod.mk.inj hsame).2]

/-! ### Code that is kept -/

namespace Region

variable {scope : Scope} {D : Draft} {b : WorkBlock} {ss ts head inner : List Stmt}
  {exit : Option WorkBlock} {join : Option String} {entry role : String} {ms : Members}
  {region : Region} {kind : Kind}

theorem MemberStmts.occurs (h : MemberStmts scope D b ss) : Occurs b.sequence ss := by
  cases h with
  | stays _ => exact .refl _
  | leaves _ _ => exact (Occurs.refl _).append_right _

theorem occurs_close (h : Occurs ts ss) : Occurs ts (close ss exit join entry).stmts := by
  cases exit with
  | none => exact h
  | some b => exact h.append_right _

theorem occurs_exit : Occurs b.sequence (close ss (some b) join entry).stmts :=
  (Occurs.refl _).append_left _

theorem occurs_preLoop_head (test : Expr) : Occurs head [preLoopStmt head inner test] := by
  cases head with
  | nil => exact .here List.nil_infix
  | cons s head =>
    refine Occurs.singleton ((Occurs.refl (s :: head)).append_right (breakUnless test :: inner)) ?_
    exact List.mem_singleton_self _

theorem occurs_preLoop_body {test : Expr} (h : Occurs ts inner) :
    Occurs ts [preLoopStmt head inner test] := by
  cases head with
  | nil => exact h.singleton (List.mem_singleton_self _)
  | cons s head =>
    refine Occurs.singleton (h.append_left (s :: head ++ [breakUnless test])) ?_
    simp [preLoopStmt, Stmt.bodies]

/-- **The code of a member in a role of the kind occurs in the region.** -/
theorem Built.occurs (h : Built scope D kind ms region) (hkind : kind ≠ .seq)
    (hrole : role ∈ kind.roles?.getD []) (hb : ms.lookup role = some b) :
    Occurs b.sequence region.stmts := by
  induction h with
  | seq _ _ _ => exact absurd rfl hkind
  | ifThen hcond hbody ht hm =>
    simp only [Kind.roles?, Option.getD_some, List.mem_cons, List.not_mem_nil, or_false] at hrole
    rcases hrole with rfl | rfl | rfl
    · obtain rfl := Option.some.inj (hb.symm.trans hcond)
      exact occurs_close ((Occurs.refl _).append_right _)
    · obtain rfl := Option.some.inj (hb.symm.trans hbody)
      exact occurs_close ((hm.occurs.singleton (List.mem_singleton_self _)).append_left _)
    · rw [hb]
      exact occurs_exit
  | ifReturn _ _ _ ih => exact ih (by decide) hrole hb
  | @ifElse ms cond first second yes no c e thenStmts elseStmts hcond hfirst hsecond harms _ _ _
      hyes hno =>
    have hthen : Occurs yes.sequence
        (cond.sequence ++ [.ifElse e thenStmts (some (.block elseStmts))]) :=
      (hyes.occurs.singleton (by simp [Stmt.bodies])).append_left _
    have helse : Occurs no.sequence
        (cond.sequence ++ [.ifElse e thenStmts (some (.block elseStmts))]) := by
      have hblock : Occurs no.sequence [.block elseStmts] :=
        hno.occurs.singleton (List.mem_singleton_self _)
      exact (hblock.singleton (by simp [Stmt.bodies])).append_left _
    simp only [Kind.roles?, Option.getD_some, List.mem_cons, List.not_mem_nil, or_false] at hrole
    rcases hrole with rfl | rfl | rfl | rfl
    · obtain rfl := Option.some.inj (hb.symm.trans hcond)
      exact occurs_close ((Occurs.refl _).append_right _)
    · obtain rfl := Option.some.inj (hb.symm.trans hfirst)
      rcases harms with ⟨rfl, rfl⟩ | ⟨rfl, rfl⟩
      · exact occurs_close hthen
      · exact occurs_close helse
    · obtain rfl := Option.some.inj (hb.symm.trans hsecond)
      rcases harms with ⟨rfl, rfl⟩ | ⟨rfl, rfl⟩
      · exact occurs_close helse
      · exact occurs_close hthen
    · rw [hb]
      exact occurs_exit
  | preLoop hcond hbody ht hm =>
    simp only [Kind.roles?, Option.getD_some, List.mem_cons, List.not_mem_nil, or_false] at hrole
    rcases hrole with rfl | rfl | rfl
    · obtain rfl := Option.some.inj (hb.symm.trans hcond)
      exact occurs_close (occurs_preLoop_head _)
    · obtain rfl := Option.some.inj (hb.symm.trans hbody)
      exact occurs_close (occurs_preLoop_body hm.occurs)
    · rw [hb]
      exact occurs_exit
  | @postLoop ms cond body test join inner hcond hbody ht hm =>
    simp only [Kind.roles?, Option.getD_some, List.mem_cons, List.not_mem_nil, or_false] at hrole
    rcases hrole with rfl | rfl | rfl
    · obtain rfl := Option.some.inj (hb.symm.trans hcond)
      refine occurs_close (Occurs.singleton ?_ (List.mem_singleton_self _))
      exact ((Occurs.refl _).append_left inner).append_right _
    · obtain rfl := Option.some.inj (hb.symm.trans hbody)
      refine occurs_close (Occurs.singleton ?_ (List.mem_singleton_self _))
      exact (hm.occurs.append_right _).append_right _
    · rw [hb]
      exact occurs_exit
  | selfLoop hcond hbody ht =>
    simp only [Kind.roles?, Option.getD_some, List.mem_cons, List.not_mem_nil, or_false] at hrole
    rcases hrole with rfl | rfl | rfl
    · obtain rfl := Option.some.inj (hb.symm.trans hcond)
      refine occurs_close (Occurs.singleton ?_ (List.mem_singleton_self _))
      exact (Occurs.refl _).append_right _
    · rw [hbody] at hb
      cases hb
    · rw [hb]
      exact occurs_exit
  | compound hbody =>
    obtain rfl : role = "body" := List.mem_singleton.1 hrole
    obtain rfl := Option.some.inj (hb.symm.trans hbody)
    exact .refl _

/-- The code of every member of a sequence occurs in the region. -/
theorem Built.occurs_seq (h : Built scope D .seq ms region) {m : String × WorkBlock} (hm : m ∈ ms) :
    Occurs m.2.sequence region.stmts := by
  cases h with
  | @seq _ first last rest init parts hms hlast hparts =>
    have hmem : m.2 ∈ init ++ [last] := by
      rw [← hlast, ← hms]
      exact List.mem_map_of_mem hm
    rw [List.mem_append, List.mem_singleton] at hmem
    rcases hmem with hinit | heq
    · obtain ⟨part, hpart, hstmts⟩ := mem_of_forall₂ hparts hinit
      obtain ⟨before, after, rfl⟩ := List.append_of_mem hpart
      rw [List.flatten_append, List.flatten_cons]
      exact ((hstmts.occurs.append_right _).append_left _).append_right _
    · rw [heq]
      exact (Occurs.refl _).append_left _

end Region

/-! ### Code that is not looked at -/

/-- Other code in a member is seen under no role but its own. -/
theorem Registry.Resolved.lookup_recode {r : Registry} {p : Primitive} {ms : Members}
    (hr : r.Sound) (hres : r.Resolved p ms) {role known : String} {w : WorkBlock}
    (hm : (role, w) ∈ ms) (hne : known ≠ role) (code : List Stmt) :
    (ms.recode w.handle code).lookup known = ms.lookup known := by
  rw [Members.lookup_recode]
  cases hfound : ms.lookup known with
  | none => rfl
  | some b =>
    have hhandle : b.handle ≠ w.handle := by
      intro heq
      have hsame := List.inj_on_of_nodup_map (hres.nodup_handles hr) (Region.mem_of_lookup hfound)
        hm heq
      exact hne (Prod.mk.inj hsame).1
    rw [Option.map_some, WorkBlock.recoded_of_ne code hhandle]

namespace Registry

variable {r r' : Registry} {p : Primitive} {ms : Members} {scope : Scope} {D d d' : Draft}
  {region : Region} {b w : WorkBlock} {role : String}

/-- What an application takes are the members. -/
theorem Applied.taken_iff (h : Applied scope p r D ms region b r') (hr : r.Sound)
    (hw : w ∈ r.live) : w ∉ r'.live ↔ ∃ role, (role, w) ∈ ms := by
  have hnew : w ≠ b := by
    rintro rfl
    exact (hr.handle_lt hw).ne h.collapsed.handle
  rw [h.mem_live hr]
  simp [hw, hnew]

/-- **The code of a member in a role of the kind occurs in the new block.** -/
theorem Applied.occurs (h : Applied scope p r D ms region b r') (hm : (role, w) ∈ ms)
    (huses : p.Uses role) : Occurs w.sequence b.stmts := by
  rw [h.collapsed.stmts]
  by_cases hkind : p.kind = .seq
  · exact (hkind ▸ h.built).occurs_seq hm
  · have hrole := huses.resolve_left hkind
    exact h.built.occurs hkind hrole (h.resolved.lookup_eq hkind hm hrole)

/-- **With other code in a member whose role the kind does not know, a primitive makes the same
block.** -/
theorem apply_recode (hr : r.Sound) (h : r.apply scope p d = (.ok (b, r'), d'))
    (hfound : r.resolve p = .ok ms) (hm : (role, w) ∈ ms) (hrole : ¬ p.Uses role)
    (code : List Stmt) :
    ∃ d₂, (r.recode w.handle code).apply scope p d = (.ok (b, r'.recode w.handle code), d₂) := by
  obtain ⟨ms', region, d₁, hacc, hcollapse, -⟩ := accepted_of_apply h
  obtain rfl : ms = ms' := Except.ok.inj (hfound.symm.trans hacc.found)
  have hres := resolve_ok hr hfound
  rw [Primitive.Uses, not_or] at hrole
  have hbuild : Region.build scope p (ms.recode w.handle code) = Region.build scope p ms := by
    refine Region.build_congr hrole.1 fun known hknown => hres.lookup_recode hr hm ?_ code
    rintro rfl
    exact hrole.2 hknown
  have hacc' : Accepted scope p (r.recode w.handle code) d (ms.recode w.handle code) region d₁ :=
    ⟨hacc.roles, resolve_recode _ _ hfound, (checkNode_recode ..).trans hacc.node,
      hbuild ▸ hacc.built⟩
  obtain ⟨trace, happly⟩ := hacc'.apply
  rw [collapse_recode _ _ (hr.handle_lt (hres.live _ hm)), hcollapse] at happly
  exact ⟨_, happly⟩

/-- What is left live is the same as well, because the member is gone. -/
theorem Applied.live_recode (h : Applied scope p r D ms region b r') (hr : r.Sound)
    (hm : (role, w) ∈ ms) (code : List Stmt) : (r'.recode w.handle code).live = r'.live := by
  have hw : w ∈ r.live := h.resolved.live _ hm
  have hother : ∀ x ∈ r'.live, x.handle ≠ w.handle := by
    intro x hx heq
    rcases (h.mem_live hr).1 hx with ⟨hxlive, hnot⟩ | rfl
    · exact hnot _ hm (hr.eq_of_handle hw hxlive heq.symm)
    · exact (hr.handle_lt hw).ne (heq.symm.trans h.collapsed.handle)
  rw [Registry.live_recode]
  refine (List.map_congr_left fun x hx => ?_).trans (List.map_id _)
  exact WorkBlock.recoded_of_ne code (hother x hx)

/-- **The code of all that is taken is kept, whatever it is, exactly if the primitive names
no roles but those of its kind.** A block that is taken in a role of the kind occurs in the new
one; a block in another role is taken as well, and the new block and all that is left are the
same whatever its code was. -/
theorem consumed_code (hr : r.Sound) (h : r.apply scope p d = (.ok (b, r'), d')) :
    (∀ w ∈ r.live, w ∉ r'.live → ∃ role, (role, w.label) ∈ p.members ∧
      (p.Uses role → Occurs w.sequence b.stmts) ∧
      (¬ p.Uses role → ∀ code, ∃ r₂ d₂,
        (r.recode w.handle code).apply scope p d = (.ok (b, r₂), d₂) ∧ r₂.live = r'.live)) ∧
    ((∀ w ∈ r.live, w ∉ r'.live → ∀ code b₂ r₂ d₂,
        (r.recode w.handle code).apply scope p d = (.ok (b₂, r₂), d₂) → Occurs code b₂.stmts) ↔
      ∀ m ∈ p.members, p.Uses m.1) := by
  obtain ⟨ms, region, happlied⟩ := apply_ok hr h
  have hunseen : ∀ {role w}, (role, w) ∈ ms → ¬ p.Uses role → ∀ code, ∃ r₂ d₂,
      (r.recode w.handle code).apply scope p d = (.ok (b, r₂), d₂) ∧ r₂.live = r'.live := by
    intro role w hm hrole code
    obtain ⟨d₂, happly⟩ := apply_recode hr h happlied.found hm hrole code
    exact ⟨_, d₂, happly, happlied.live_recode hr hm code⟩
  refine ⟨fun w hw hgone => ?_, fun hkept m hm => ?_, fun hall w hw hgone => ?_⟩
  · obtain ⟨role, hm⟩ := (happlied.taken_iff hr hw).1 hgone
    exact ⟨role, happlied.resolved.mem_members hm, happlied.occurs hm, hunseen hm⟩
  · -- A block that is not looked at may be as large as any, the new block itself included.
    by_contra hrole
    rw [← happlied.resolved.names] at hm
    obtain ⟨⟨role, w⟩, hmember, rfl⟩ := List.mem_map.1 hm
    have hw : w ∈ r.live := happlied.resolved.live (role, w) hmember
    have hgone : w ∉ r'.live := (happlied.taken_iff hr hw).2 ⟨role, hmember⟩
    obtain ⟨r₂, d₂, happly, -⟩ := hunseen hmember hrole [.block b.stmts]
    exact Go.not_occurs_block b.stmts (hkept w hw hgone _ b r₂ d₂ happly)
  · intro code b₂ r₂ d₂ happly
    obtain ⟨role, hm⟩ := (happlied.taken_iff hr hw).1 hgone
    have huses : p.Uses role := hall _ (happlied.resolved.mem_members hm)
    obtain ⟨ms₂, region₂, happlied₂⟩ := apply_ok (hr.recode w.handle code) happly
    obtain rfl : ms.recode w.handle code = ms₂ :=
      Except.ok.inj ((resolve_recode _ _ happlied.found).symm.trans happlied₂.found)
    have hm₂ : (role, w.recoded w.handle code) ∈ ms.recode w.handle code :=
      List.mem_map_of_mem (f := fun m => (m.1, m.2.recoded w.handle code)) hm
    rw [← WorkBlock.sequence_recoded_self code w]
    exact happlied₂.occurs hm₂ huses

end Registry

namespace OnePrimitive

/-- A loop that tests first, and the block on the way back from its body. The primitive has a
role for that block, but the kind does not know it. -/
def latched : Case where
  ends := [("head", .condBr go "body" "done"), ("body", .br "latch"), ("latch", .br "head"),
    ("done", .ret none)]
  kind := .preLoop
  roles := [("cond", 0), ("body", 1), ("exit", 3), ("latch", 2)]

theorem members_latched : latched.prim.members = latched.prim.roles.entries := by
  have hvisit : latched.prim.members =
      [("cond", "head"), ("body", "body"), ("exit", "done")] ++
        [("latch", "latch")].mergeSort Primitive.roleLE := rfl
  rw [hvisit, List.mergeSort_singleton]
  rfl

theorem sound_latched : latched.registry.Sound := by
  have hseed : Registry.seed {} {} latched.function.body {} = (.ok latched.registry, {}) := rfl
  exact (Registry.seed_ok hseed).1

/-- The primitive can be applied, and takes all blocks. -/
theorem apply_latched :
    ∃ b r d, latched.registry.apply {} latched.prim {} = (.ok (b, r), d) ∧
      r.liveLabels = ["pre_loop_0"] := by
  have hfound : latched.registry.resolve latched.prim = .ok latched.members := by
    rw [Registry.resolve, members_latched]
    rfl
  have hacc : ∃ region,
      Registry.Accepted {} latched.prim latched.registry {} latched.members region {} :=
    ⟨_, rfl, hfound, rfl, rfl⟩
  obtain ⟨region, hacc⟩ := hacc
  obtain ⟨trace, happly⟩ := hacc.apply
  exact ⟨_, _, _, happly, rfl⟩

/-- The loop is made, and the block on the way back is taken. Whatever its code is, the loop is
the same. -/
theorem latch_dropped :
    ∃ b r d, latched.registry.Sound ∧
      latched.registry.apply {} latched.prim {} = (.ok (b, r), d) ∧
      ∃ w ∈ latched.registry.live, w.label = "latch" ∧ w ∉ r.live ∧
        ∀ code, ∃ r₂ d₂, (latched.registry.recode w.handle code).apply {} latched.prim {} =
          (.ok (b, r₂), d₂) ∧ r₂.live = r.live := by
  obtain ⟨b, r, d, happly, hlabels⟩ := apply_latched
  obtain ⟨htaken, -⟩ := Registry.consumed_code sound_latched happly
  have hw : { handle := 2, label := "latch", entry := "latch", terminator := some (.br "head") } ∈
      latched.registry.live := by
    simp [latched, Case.registry, Case.arena, Registry.live]
  have hgone : ∀ w ∈ r.live, w.label ≠ "latch" := by
    intro w hw
    have hlabel : w.label ∈ r.liveLabels := List.mem_map_of_mem hw
    rw [hlabels, List.mem_singleton] at hlabel
    rw [hlabel]
    decide
  obtain ⟨role, hrole, -, hdropped⟩ := htaken _ hw fun h => hgone _ h rfl
  -- No other role has the label.
  have hlatch : ∀ e ∈ latched.prim.roles.entries, e.2 = "latch" → e.1 = "latch" := by decide
  rw [members_latched] at hrole
  obtain rfl : role = "latch" := hlatch _ hrole rfl
  have huses : ¬ latched.prim.Uses "latch" := by
    rintro (h | h)
    · cases h
    · exact absurd h (by decide)
  exact ⟨b, r, d, sound_latched, happly, _, hw, rfl, fun h => hgone _ h rfl, hdropped huses⟩

end OnePrimitive

end GoLift
