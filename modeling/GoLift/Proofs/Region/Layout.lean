import GoLift.Proofs.Region.Reachable

/-!
# Where the code of a function goes

A `Fragment` is a part of a structured body with marks for what was there before the
reduction: the code of a block and the statement for a terminator that leaves the
function. Equal statements of different blocks are different fragments. A body *lays out*
the fragments that it is the rendering of.

**Each block carries a `Plan`**: the fragments it is laid out by, and the block of the
function whose terminator it still has to turn into a statement. Applying a primitive
puts the plans of its members together (`Region.Built.plan`) and loses no mark, so the
marks of all live blocks stay, up to their order, those of the function
(`Registry.LaidOut`).
-/

set_option autoImplicit false

namespace GoLift

open Go (Expr Stmt)
open DraftM

/-! ### Fragments -/

/-- A part of a structured body. -/
inductive Fragment
  /-- The statements of the `i`-th block, then its phi copies. -/
  | code (i : Nat)
  /-- The statement with which control leaves the function from the `i`-th block. -/
  | leave (i : Nat)
  | ifThen (test : Expr) (body : List Fragment)
  | ifElse (test : Expr) (body orElse : List Fragment)
  | loop (test : Option Expr) (body : List Fragment)
  /-- The test inside a loop. -/
  | breakTest (test : Expr)

/-- What a body has of a function. -/
inductive Mark
  | code (i : Nat)
  | leave (i : Nat)
deriving DecidableEq

namespace Fragment

mutual

/-- The statements of a fragment, given those of the blocks. -/
def render (code ending : Nat → List Stmt) : Fragment → List Stmt
  | .code i => code i
  | .leave i => ending i
  | .ifThen test body => [.ifElse test (renderAll code ending body) none]
  | .ifElse test body orElse =>
    [.ifElse test (renderAll code ending body) (some (.block (renderAll code ending orElse)))]
  | .loop test body => [.loop test (renderAll code ending body)]
  | .breakTest test => [Region.breakUnless test]

/-- The statements of a list of fragments. -/
def renderAll (code ending : Nat → List Stmt) : List Fragment → List Stmt
  | [] => []
  | p :: ps => render code ending p ++ renderAll code ending ps

end

mutual

/-- The marks in a fragment, from left to right. -/
def marks : Fragment → List Mark
  | .code i => [.code i]
  | .leave i => [.leave i]
  | .ifThen _ body => marksAll body
  | .ifElse _ body orElse => marksAll body ++ marksAll orElse
  | .loop _ body => marksAll body
  | .breakTest _ => []

/-- The marks in a list of fragments. -/
def marksAll : List Fragment → List Mark
  | [] => []
  | p :: ps => marks p ++ marksAll ps

end

@[simp] theorem renderAll_append (code ending : Nat → List Stmt) (ps qs : List Fragment) :
    renderAll code ending (ps ++ qs) = renderAll code ending ps ++ renderAll code ending qs := by
  induction ps with
  | nil => rfl
  | cons p ps ih => simp [renderAll, ih]

@[simp] theorem marksAll_append (ps qs : List Fragment) :
    marksAll (ps ++ qs) = marksAll ps ++ marksAll qs := by
  induction ps with
  | nil => rfl
  | cons p ps ih => simp [marksAll, ih]

@[simp] theorem marksAll_singleton (p : Fragment) : marksAll [p] = p.marks := by
  simp [marksAll]

end Fragment

open Fragment (renderAll marksAll)

/-- A statement that leaves the function. -/
def LeavesBy (s : Stmt) : Prop :=
  (∃ results, s = .ret results) ∨ s = .expr (callNamed "panic" [.lit .string "\"unreachable\""])

/-- A terminator that becomes a statement leaves the function by it. -/
theorem exitStmts_eq {scope : Scope} {D : Draft} {t : Option Terminator} {ss : List Stmt}
    (h : Gives (Lower.exitStmts scope t) D ss) :
    (t.any Terminator.leaves) = true ∧ ∃ s, ss = [s] ∧ LeavesBy s := by
  unfold Lower.exitStmts at h
  split at h
  · exact ⟨rfl, _, h.pure, .inl ⟨_, rfl⟩⟩
  · obtain ⟨e, -, h⟩ := h.bind fun _ => .pure _
    exact ⟨rfl, _, h.pure, .inl ⟨_, rfl⟩⟩
  · exact ⟨rfl, _, h.pure, .inr rfl⟩
  · exact h.of_refuse.elim
  · exact h.of_refuse.elim
  · exact h.of_refuse.elim
  · exact h.of_refuse.elim

/-! ### The marks of a function -/

section

variable (scope : Scope) (D : Draft) (os : List WorkBlock)

/-- The code of the `i`-th block. -/
def codeAt (i : Nat) : List Stmt :=
  (os[i]?.map WorkBlock.sequence).getD []

/-- The terminator of the `i`-th block. -/
def terminatorAt (i : Nat) : Option Terminator :=
  os[i]?.bind WorkBlock.terminator

/-- The statement for the terminator of the `i`-th block, in a list. -/
def endingAt (i : Nat) : List Stmt :=
  match (Lower.exitStmts scope (terminatorAt os i) D).1 with
  | .ok ss => ss
  | .error _ => []

/-- The blocks from which control leaves the function. -/
def leavingBlocks : List Nat :=
  (List.range os.length).filter (fun i => (terminatorAt os i).any Terminator.leaves)

/-- One mark for the code of each block, and one for each terminator that leaves. -/
def allMarks : List Mark :=
  (List.range os.length).map .code ++ (leavingBlocks os).map .leave

/-! ### Plans -/

/-- Statements that are laid out by fragments, in which control leaves where it should. -/
structure Renders (ss : List Stmt) (ps : List Fragment) : Prop where
  eq : ss = renderAll (codeAt os) (endingAt scope D os) ps
  leave : ∀ i, .leave i ∈ marksAll ps → ∃ s, endingAt scope D os i = [s] ∧ LeavesBy s

/-- The fragments of a block, and the block of the function whose leaving terminator it
has. -/
structure Plan where
  fragments : List Fragment
  pending : Option Nat

/-- The fragments of a block with the statement that its terminator becomes. -/
def Plan.whole (q : Plan) : List Fragment :=
  q.fragments ++ q.pending.toList.map .leave

/-- A plan for statements and what ends them. -/
structure Fits (ss : List Stmt) (t : Option Terminator) (q : Plan) : Prop where
  renders : Renders scope D os ss q.fragments
  pending : match q.pending with
    | none => t.any Terminator.leaves = false
    | some i => t.any Terminator.leaves = true ∧ terminatorAt os i = t

end

variable {scope : Scope} {D : Draft} {os : List WorkBlock} {b : WorkBlock} {ss ts : List Stmt}
  {ps qs : List Fragment} {test : Expr}

namespace Renders

theorem nil : Renders scope D os [] [] :=
  ⟨rfl, by simp [marksAll]⟩

theorem append (hs : Renders scope D os ss ps) (ht : Renders scope D os ts qs) :
    Renders scope D os (ss ++ ts) (ps ++ qs) where
  eq := by rw [hs.eq, ht.eq, Fragment.renderAll_append]
  leave i hi := by
    rw [Fragment.marksAll_append, List.mem_append] at hi
    exact hi.elim (hs.leave i) (ht.leave i)

theorem ifThen (test : Expr) (hs : Renders scope D os ss ps) :
    Renders scope D os [.ifElse test ss none] [.ifThen test ps] where
  eq := by simp [renderAll, Fragment.render, hs.eq]
  leave i hi := hs.leave i (by simpa [marksAll, Fragment.marks] using hi)

theorem ifElse (test : Expr) (hs : Renders scope D os ss ps) (ht : Renders scope D os ts qs) :
    Renders scope D os [.ifElse test ss (some (.block ts))] [.ifElse test ps qs] where
  eq := by simp [renderAll, Fragment.render, hs.eq, ht.eq]
  leave i hi := by
    have hi : Mark.leave i ∈ marksAll ps ∨ Mark.leave i ∈ marksAll qs := by
      simpa [marksAll, Fragment.marks] using hi
    exact hi.elim (hs.leave i) (ht.leave i)

theorem loop (c : Option Expr) (hs : Renders scope D os ss ps) :
    Renders scope D os [.loop c ss] [.loop c ps] where
  eq := by simp [renderAll, Fragment.render, hs.eq]
  leave i hi := hs.leave i (by simpa [marksAll, Fragment.marks] using hi)

theorem breakTest (test : Expr) : Renders scope D os [Region.breakUnless test] [.breakTest test] :=
  ⟨rfl, by simp [marksAll, Fragment.marks]⟩

end Renders

/-- What a plan makes of a block that has to leave: its code and the statement. -/
theorem Fits.whole {q : Plan} (hb : Fits scope D os b.sequence b.terminator q)
    {ending : List Stmt} (hend : Gives (Lower.exitStmts scope b.terminator) D ending) :
    Renders scope D os (b.sequence ++ ending) q.whole := by
  obtain ⟨hleaves, s, rfl, hs⟩ := exitStmts_eq hend
  have hpending := hb.pending
  obtain ⟨fragments, _ | i⟩ := q
  · cases hleaves.symm.trans hpending
  · have hat : endingAt scope D os i = [s] := by
      rw [endingAt, hpending.2, hend.now (Lower.steady_exitStmts scope _)]
    refine hb.renders.append ⟨by simp [renderAll, Fragment.render, hat], fun j hj => ?_⟩
    have hj : j = i := by simpa [marksAll, Fragment.marks] using hj
    exact ⟨s, hj ▸ hat, hs⟩

/-- The statements of a member are laid out by its plan, whole. -/
theorem Fits.member {q : Plan} (hb : Fits scope D os b.sequence b.terminator q)
    (hm : Region.MemberStmts scope D b ss) : Renders scope D os ss q.whole := by
  cases hm with
  | leaves _ hend => exact hb.whole hend
  | stays hstays =>
    have hpending := hb.pending
    obtain ⟨fragments, _ | i⟩ := q
    · simpa [Plan.whole] using hb.renders
    · cases hpending.1.symm.trans hstays

/-- A condition has no statement to leave by. -/
theorem Fits.whole_of_condBr {q : Plan} {c : Value} {t f : String}
    (hb : Fits scope D os b.sequence b.terminator q) (ht : b.terminator = some (.condBr c t f)) :
    q.whole = q.fragments := by
  have hpending := hb.pending
  obtain ⟨fragments, _ | i⟩ := q
  · simp [Plan.whole]
  · rw [ht] at hpending
    cases hpending.1

theorem Fits.whole_of_tested {q : Plan} {cond target : WorkBlock} {join : String}
    (hb : Fits scope D os cond.sequence cond.terminator q)
    (ht : Region.Tested scope D cond target test join) : q.whole = q.fragments :=
  let ⟨_, _, _, hcond⟩ := ht.condBr
  hb.whole_of_condBr hcond

/-! ### Canonical members -/

/-- The members are listed, or every role is one of the kind's. -/
def Primitive.Canonical (p : Primitive) : Prop :=
  p.isListed = true ∨ ∀ role ∈ p.roles.keys, role ∈ p.kind.roles?.getD []

theorem roles_members {p : Primitive} (hp : p.Canonical) (hlisted : p.isListed = false) :
    (p.members.map Prod.fst).Sublist (p.kind.roles?.getD []) := by
  have hroles := hp.resolve_left (by simp [hlisted])
  have hextra : p.roles.entries.filter (fun e => !(p.kind.roles?.getD []).contains e.1) = [] := by
    rw [List.filter_eq_nil_iff]
    intro e he
    have := hroles e.1 (List.mem_map_of_mem he)
    simpa using this
  have hfst : p.members.map Prod.fst =
      (p.kind.roles?.getD []).filter (fun role => (p.roles.get? role).isSome) := by
    simp only [Primitive.members, hlisted, Bool.false_eq_true, if_false, hextra, List.mergeSort_nil,
      List.append_nil, List.map_filterMap, Option.map_map]
    rw [← List.filterMap_eq_filter]
    refine List.filterMap_congr fun role _ => ?_
    cases h : p.roles.get? role <;> simp [Option.guard, h]
  rw [hfst]
  exact List.filter_sublist

theorem blocks_eq_lookup {order : List String} {ms : Members}
    (h : (ms.map Prod.fst).Sublist order) (horder : order.Nodup) :
    ms.map Prod.snd = order.filterMap (fun role => ms.lookup role) := by
  induction order generalizing ms with
  | nil =>
    have := List.map_eq_nil_iff.1 (List.sublist_nil.1 h)
    subst this
    rfl
  | cons role order ih =>
    obtain ⟨hrole, hrest⟩ := List.nodup_cons.1 horder
    cases ms with
    | nil => simp
    | cons m ms =>
      obtain ⟨role', b⟩ := m
      rw [List.map_cons] at h
      cases h with
      | cons _ h =>
        have hnone : ((role', b) :: ms).lookup role = none := by
          rw [List.lookup_eq_none_iff]
          intro e he
          have hmem : e.1 ∈ order := h.subset (List.mem_map_of_mem (f := Prod.fst) he)
          simp only [bne_iff_ne]
          rintro rfl
          exact hrole hmem
        rw [List.filterMap_cons, hnone]
        exact ih h hrest
      | cons_cons _ h =>
        rw [List.filterMap_cons, List.lookup_cons_self, List.map_cons, ih h hrest]
        refine congrArg _ (List.filterMap_congr fun role hmem => ?_)
        have hne : (role == role') = false := by
          rw [beq_eq_false_iff_ne]
          rintro rfl
          exact hrole hmem
        rw [List.lookup_cons, hne]

theorem filterMap_singleton {α β : Type} (f : α → Option β) (a : α) :
    [a].filterMap f = (f a).toList := by
  cases h : f a <;> simp [h]

theorem Kind.nodup_roles (kind : Kind) : (kind.roles?.getD []).Nodup := by
  cases kind <;> simp [Kind.roles?]

/-! ### The plan of a region -/

section

variable {plans : WorkBlock → Plan}

theorem Renders.close (hs : Renders scope D os ss ps) (exit : Option WorkBlock)
    (join : Option String) (entry : String)
    (hexit : ∀ x, exit = some x → Fits scope D os x.sequence x.terminator (plans x)) :
    ∃ q, Fits scope D os (Region.close ss exit join entry).stmts
        (Region.close ss exit join entry).terminator q ∧
      marksAll q.whole = marksAll ps ++ exit.toList.flatMap (fun x => marksAll (plans x).whole) := by
  cases exit with
  | none =>
    refine ⟨⟨ps, none⟩, ⟨hs, ?_⟩, by simp [Plan.whole]⟩
    cases join <;> rfl
  | some x =>
    have hx := hexit x rfl
    refine ⟨⟨ps ++ (plans x).fragments, (plans x).pending⟩, ⟨hs.append hx.renders, hx.pending⟩, ?_⟩
    simp [Plan.whole, List.append_assoc]

theorem renders_flatten {bs : List WorkBlock} {parts : List (List Stmt)}
    (h : List.Forall₂ (Region.MemberStmts scope D) bs parts)
    (hbs : ∀ b ∈ bs, Fits scope D os b.sequence b.terminator (plans b)) :
    Renders scope D os parts.flatten (bs.flatMap (fun b => (plans b).whole)) := by
  induction h with
  | nil => exact .nil
  | cons hb _ ih =>
    rw [List.forall_mem_cons] at hbs
    exact (hbs.1.member hb).append (ih hbs.2)

theorem marksAll_flatMap (bs : List WorkBlock) :
    marksAll (bs.flatMap (fun b => (plans b).whole)) =
      bs.flatMap (fun b => marksAll (plans b).whole) := by
  induction bs with
  | nil => rfl
  | cons b bs ih => simp [ih]

/-- A loop that tests first, with or without statements of the condition. A condition
without statements still has its marks. -/
theorem renders_preLoop {header inner : List Stmt} {qs : List Fragment} (test : Expr)
    (hheader : Renders scope D os header ps) (hinner : Renders scope D os inner qs) :
    ∃ p, Renders scope D os [Region.preLoopStmt header inner test] [p] ∧
      p.marks = marksAll ps ++ marksAll qs := by
  unfold Region.preLoopStmt
  split
  · next hempty =>
    have hs := hheader.append hinner
    rw [List.isEmpty_iff.1 hempty, List.nil_append] at hs
    exact ⟨_, hs.loop (some test), by simp [Fragment.marks]⟩
  · have hs := hheader.append ((Renders.breakTest test).append hinner)
    exact ⟨_, hs.loop none, by simp [Fragment.marks, marksAll]⟩

/-- **A region has every mark of its members, and no other.** -/
theorem Region.Built.plan (plans : WorkBlock → Plan) {kind : Kind} {ms : Members} {region : Region}
    (h : Region.Built scope D kind ms region)
    (hroles : kind = .seq ∨
      ms.map Prod.snd = (kind.roles?.getD []).filterMap (fun role => ms.lookup role))
    (hms : ∀ m ∈ ms, Fits scope D os m.2.sequence m.2.terminator (plans m.2)) :
    ∃ q, Fits scope D os region.stmts region.terminator q ∧
      (marksAll q.whole).Perm ((ms.map Prod.snd).flatMap (fun b => marksAll (plans b).whole)) := by
  have hrole : ∀ {role : String} {b : WorkBlock}, ms.lookup role = some b →
      Fits scope D os b.sequence b.terminator (plans b) := fun hb => hms _ (Region.mem_of_lookup hb)
  induction h with
  | @seq ms first last rest init parts hfirst hinit hparts =>
    have hall := Region.forall_init_last
      (P := fun b => Fits scope D os b.sequence b.terminator (plans b)) hfirst hinit hms
    refine ⟨⟨init.flatMap (fun b => (plans b).whole) ++ (plans last).fragments, (plans last).pending⟩,
      ⟨(renders_flatten hparts hall.1).append hall.2.renders, hall.2.pending⟩, ?_⟩
    rw [hfirst, hinit, List.flatMap_append, List.flatMap_singleton, ← marksAll_flatMap]
    simp [Plan.whole]
  | @ifThen ms cond body test join inner hcond hbody ht hm =>
    have hs := (hrole hcond).renders.append (((hrole hbody).member hm).ifThen test)
    obtain ⟨q, hq, hmarks⟩ := hs.close (ms.lookup "exit") (some join) cond.entry fun _ => hrole
    refine ⟨q, hq, .of_eq ?_⟩
    rw [hmarks, hroles.resolve_left (by decide)]
    simp [Kind.roles?, hcond, hbody, filterMap_singleton, Fragment.marks,
      (hrole hcond).whole_of_tested ht]
  | ifReturn _ _ _ ih => exact ih (.inr (hroles.resolve_left (by decide))) hms hrole
  | @ifElse ms cond first second yes no c e thenStmts elseStmts hcond hfirst hsecond harms hbr _ _
      hyes hno =>
    have hy : Fits scope D os yes.sequence yes.terminator (plans yes) := by
      rcases harms with ⟨rfl, -⟩ | ⟨rfl, -⟩
      · exact hrole hfirst
      · exact hrole hsecond
    have hn : Fits scope D os no.sequence no.terminator (plans no) := by
      rcases harms with ⟨-, rfl⟩ | ⟨-, rfl⟩
      · exact hrole hsecond
      · exact hrole hfirst
    have hs := (hrole hcond).renders.append ((hy.member hyes).ifElse e (hn.member hno))
    obtain ⟨q, hq, hmarks⟩ := hs.close (ms.lookup "exit")
      ((branchTarget? yes).or (branchTarget? no)) cond.entry fun _ => hrole
    have hblocks : ms.map Prod.snd = cond :: first :: second :: (ms.lookup "exit").toList := by
      rw [hroles.resolve_left (by decide)]
      simp [Kind.roles?, hcond, hfirst, hsecond, filterMap_singleton]
    refine ⟨q, hq, ?_⟩
    simp only [hmarks, hblocks, Fragment.marksAll_append, Fragment.marksAll_singleton, Fragment.marks,
      List.flatMap_cons, (hrole hcond).whole_of_condBr hbr, List.append_assoc]
    refine List.Perm.append_left _ ?_
    rcases harms with ⟨rfl, rfl⟩ | ⟨rfl, rfl⟩
    · exact .refl _
    · exact List.perm_append_comm_assoc _ _ _
  | @preLoop ms cond body test join inner hcond hbody ht hm =>
    obtain ⟨fragment, hs, hfragment⟩ :=
      renders_preLoop test (hrole hcond).renders ((hrole hbody).member hm)
    obtain ⟨q, hq, hmarks⟩ := hs.close (ms.lookup "exit") (some join) cond.entry fun _ => hrole
    refine ⟨q, hq, .of_eq ?_⟩
    rw [hmarks, hroles.resolve_left (by decide)]
    simp [Kind.roles?, hcond, hbody, filterMap_singleton, hfragment,
      (hrole hcond).whole_of_tested ht]
  | @postLoop ms cond body test join inner hcond hbody ht hm =>
    have hs := ((((hrole hbody).member hm).append (hrole hcond).renders).append
      (Renders.breakTest test)).loop none
    obtain ⟨q, hq, hmarks⟩ := hs.close (ms.lookup "exit") (some join) body.entry fun _ => hrole
    have hblocks : ms.map Prod.snd = cond :: body :: (ms.lookup "exit").toList := by
      rw [hroles.resolve_left (by decide)]
      simp [Kind.roles?, hcond, hbody, filterMap_singleton]
    refine ⟨q, hq, ?_⟩
    simp only [hmarks, hblocks, Fragment.marksAll_append, Fragment.marksAll_singleton, Fragment.marks,
      List.flatMap_cons, (hrole hcond).whole_of_tested ht, List.append_assoc, List.nil_append]
    exact List.perm_append_comm_assoc _ _ _
  | @selfLoop ms cond test join hcond hbody ht =>
    have hs := ((hrole hcond).renders.append (Renders.breakTest test)).loop none
    obtain ⟨q, hq, hmarks⟩ := hs.close (ms.lookup "exit") (some join) cond.entry fun _ => hrole
    refine ⟨q, hq, .of_eq ?_⟩
    rw [hmarks, hroles.resolve_left (by decide)]
    simp [Kind.roles?, hcond, hbody, filterMap_singleton, Fragment.marks,
      (hrole hcond).whole_of_tested ht]
  | @compound ms body hbody =>
    refine ⟨plans body, hrole hbody, .of_eq ?_⟩
    rw [hroles.resolve_left (by decide)]
    simp [Kind.roles?, hbody]

end

/-! ### Whole reductions -/

namespace Registry

variable {r r' : Registry} {p : Primitive} {ms : Members} {region : Region}

/-- The live blocks have plans that share out the marks of the function. -/
structure LaidOut (scope : Scope) (D : Draft) (os : List WorkBlock) (r : Registry)
    (plans : Nat → Plan) : Prop where
  fits : ∀ b ∈ r.live, Fits scope D os b.sequence b.terminator (plans b.handle)
  marks : (r.live.flatMap (fun b => marksAll (plans b.handle).whole)).Perm (allMarks os)

theorem Applied.roles (h : Applied scope p r D ms region b r') (hp : p.Canonical) :
    p.kind = .seq ∨
      ms.map Prod.snd = (p.kind.roles?.getD []).filterMap (fun role => ms.lookup role) := by
  cases hlisted : p.isListed with
  | true =>
    simp only [Primitive.isListed, Bool.and_eq_true, beq_iff_eq] at hlisted
    exact .inl hlisted.1
  | false =>
    refine .inr (blocks_eq_lookup ?_ p.kind.nodup_roles)
    have hfst := congrArg (List.map Prod.fst) h.resolved.names
    rw [List.map_map] at hfst
    rw [show ms.map Prod.fst = p.members.map Prod.fst from hfst]
    exact roles_members hp hlisted

/-- The live blocks are those outside of the region and its members. -/
theorem Applied.live_perm (h : Applied scope p r D ms region b r') (hr : r.Sound) :
    ∃ others, r'.live = others ++ [b] ∧ r.live.Perm (others ++ ms.map Prod.snd) ∧
      ∀ w ∈ others, w ∈ r.live := by
  refine ⟨_, h.collapsed.live, ?_, fun w hw => (List.mem_filter.1 hw).1⟩
  have hnodup : r.live.Nodup := hr.sorted_live.imp fun hlt heq => by
    rw [heq] at hlt
    exact Nat.lt_irrefl _ hlt
  have hms : (ms.map Prod.snd).Nodup := by
    refine List.Nodup.of_map WorkBlock.handle ?_
    rw [List.map_map]
    exact h.resolved.nodup_handles hr
  have hin : ∀ w ∈ r.live, (∃ m ∈ ms, m.2.handle = w.handle) ↔ w ∈ ms.map Prod.snd := by
    intro w hw
    rw [List.mem_map]
    refine exists_congr fun m => and_congr_right fun hm => ⟨fun heq => ?_, fun heq => heq ▸ rfl⟩
    exact hr.eq_of_handle (h.resolved.live m hm) hw heq
  refine (List.perm_ext_iff_of_nodup hnodup ?_).2 fun w => ?_
  · refine List.nodup_append.2 ⟨hnodup.filter _, hms, ?_⟩
    rintro w hw w' hw' rfl
    obtain ⟨hw, hnot⟩ := List.mem_filter.1 hw
    simp only [Bool.not_eq_true', List.contains_eq_mem, decide_eq_false_iff_not, List.mem_map] at hnot
    exact hnot ((hin w hw).2 hw')
  · simp only [List.mem_append, List.mem_filter, Bool.not_eq_true', List.contains_eq_mem,
      decide_eq_false_iff_not, List.mem_map (f := fun m : String × WorkBlock => m.2.handle)]
    constructor
    · intro hw
      by_cases hm : w ∈ ms.map Prod.snd
      · exact .inr hm
      · exact .inl ⟨hw, fun h => hm ((hin w hw).1 h)⟩
    · rintro (⟨hw, -⟩ | hm)
      · exact hw
      · obtain ⟨m, hm', rfl⟩ := List.mem_map.1 hm
        exact h.resolved.live m hm'

/-- **Applying a primitive loses no mark and adds none.** -/
theorem LaidOut.apply {plans : Nat → Plan} (hlaid : LaidOut scope D os r plans) (hr : r.Sound)
    (h : Applied scope p r D ms region b r') (hp : p.Canonical) :
    ∃ plans, LaidOut scope D os r' plans := by
  obtain ⟨q, hq, hmarks⟩ := h.built.plan (fun b => plans b.handle) (h.roles hp)
    fun m hm => hlaid.fits _ (h.resolved.live m hm)
  obtain ⟨others, hlive, hperm, hothers⟩ := h.live_perm hr
  have hne : ∀ w ∈ others, w.handle ≠ b.handle := by
    intro w hw heq
    have hlt := hr.handle_lt (hothers w hw)
    rw [heq, h.collapsed.handle] at hlt
    exact Nat.lt_irrefl _ hlt
  have hbseq : b.sequence = region.stmts := by
    rw [WorkBlock.sequence, h.collapsed.phiOut, h.collapsed.stmts, List.append_nil]
  refine ⟨Function.update plans b.handle q, ?_, ?_⟩
  · intro w hw
    rw [hlive, List.mem_append, List.mem_singleton] at hw
    rcases hw with hw | rfl
    · rw [Function.update_of_ne (hne w hw)]
      exact hlaid.fits w (hothers w hw)
    · rw [Function.update_self, hbseq, h.collapsed.terminator]
      exact hq
  · have hsame : others.flatMap (fun w => marksAll (Function.update plans b.handle q w.handle).whole) =
        others.flatMap (fun w => marksAll (plans w.handle).whole) :=
      List.flatMap_congr fun w hw => by rw [Function.update_of_ne (hne w hw)]
    rw [hlive, List.flatMap_append, List.flatMap_singleton, Function.update_self, hsame]
    refine (List.Perm.append_left _ hmarks).trans ?_
    rw [← List.flatMap_append]
    exact (hperm.symm.flatMap_right _).trans hlaid.marks

theorem grows_applyAll (scope : Scope) (ps : List Primitive) :
    ∀ r : Registry, Grows (r.applyAll scope ps) := by
  induction ps with
  | nil => exact fun _ => .pure _
  | cons p ps ih => exact fun r => (grows_apply scope p r).bind fun _ => ih _

theorem LaidOut.applyAll {plans : Nat → Plan} {prims : List Primitive} {d d' : Draft}
    (hlaid : LaidOut scope D os r plans) (hr : r.Sound) (hps : ∀ p ∈ prims, p.Canonical)
    (h : r.applyAll scope prims d = (.ok r', d')) (hD : d' ≤ D) :
    ∃ plans, LaidOut scope D os r' plans := by
  induction prims generalizing r d plans with
  | nil =>
    cases h
    exact ⟨plans, hlaid⟩
  | cons p prims ih =>
    obtain ⟨⟨b, r₁⟩, d₁, happly, h⟩ := bind_ok h
    obtain ⟨ms, region, happlied⟩ := apply_ok hr happly
    have happlied := happlied.mono (((grows_applyAll scope prims r₁).apply h).trans hD)
    rw [List.forall_mem_cons] at hps
    obtain ⟨plans, hlaid⟩ := hlaid.apply hr happlied hps.1
    exact ih hlaid happlied.collapsed.sound hps.2 h

/-- The plan of a block that no primitive has taken. -/
def firstPlan (os : List WorkBlock) (i : Nat) : Plan where
  fragments := [.code i]
  pending := if (terminatorAt os i).any Terminator.leaves then some i else none

theorem marks_firstPlan (os : List WorkBlock) (is : List Nat) :
    (is.flatMap (fun i => marksAll (firstPlan os i).whole)).Perm
      (is.map .code ++
        (is.filter (fun i => (terminatorAt os i).any Terminator.leaves)).map .leave) := by
  induction is with
  | nil => exact .refl _
  | cons i is ih =>
    rw [List.flatMap_cons, List.map_cons, List.cons_append]
    by_cases h : (terminatorAt os i).any Terminator.leaves = true
    · rw [List.filter_cons, if_pos h, List.map_cons]
      have hwhole : marksAll (firstPlan os i).whole = [.code i, .leave i] := by
        simp [firstPlan, Plan.whole, h, marksAll, Fragment.marks]
      rw [hwhole]
      exact ((ih.cons _).trans List.perm_middle.symm).cons _
    · rw [List.filter_cons, if_neg h]
      have hwhole : marksAll (firstPlan os i).whole = [.code i] := by
        simp [firstPlan, Plan.whole, h, Fragment.marks]
      rw [hwhole]
      exact ih.cons _

/-- At first each block is laid out by its own code. -/
theorem laidOut_seed (hhandles : r.live.map WorkBlock.handle = List.range r.live.length) :
    LaidOut scope D r.live r (firstPlan r.live) where
  fits b hb := by
    obtain ⟨j, hj⟩ := List.mem_iff_getElem?.1 hb
    have hlt := (List.getElem?_eq_some_iff.1 hj).1
    have hhandle : b.handle = j := by
      have hat := congrArg (fun l => l[j]?) hhandles
      simpa [hj, List.getElem?_range hlt] using hat
    rw [hhandle]
    refine ⟨⟨by simp [firstPlan, renderAll, Fragment.render, codeAt, hj], ?_⟩, ?_⟩
    · simp [firstPlan, Fragment.marks]
    · have hterm : terminatorAt r.live j = b.terminator := by simp [terminatorAt, hj]
      simp only [firstPlan, hterm]
      split
      · next heq =>
        split at heq
        · cases heq
        · next h => simpa using h
      · next i heq =>
        split at heq
        · next h =>
          cases heq
          exact ⟨h, hterm⟩
        · cases heq
  marks := by
    have hmap : r.live.flatMap (fun b => marksAll (firstPlan r.live b.handle).whole) =
        (r.live.map WorkBlock.handle).flatMap (fun i => marksAll (firstPlan r.live i).whole) := by
      rw [List.flatMap_map]
    rw [hmap, hhandles]
    exact marks_firstPlan _ _

end Registry

end GoLift
