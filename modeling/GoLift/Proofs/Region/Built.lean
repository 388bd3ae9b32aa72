import GoLift.Proofs.Lower.Code

/-!
# What a primitive makes of its members

`Region.Built scope D kind members region` says, without drafts and without failures,
what `Region.build` makes of its members: one constructor for each form a region can
take, with the statements it is put together from. **Everything about regions is
proved by cases on it** and never opens the builder again.

The draft `D` is any one that has grown out of the build. Conditions and leaving
statements are lowered to the same from there, so a `Built` stays true as the draft
grows (`Built.mono`).
-/

set_option autoImplicit false

namespace GoLift

open Go (Expr Stmt)
open DraftM

namespace Region

/-! ### Building is steady -/

/-- What a condition branch gives is how the block ends. -/
theorem ensures_condBranch (p : Primitive) (cond : WorkBlock) :
    Ensures (condBranch p cond)
      (fun (c, ifTrue, ifFalse) => cond.terminator = some (.condBr c ifTrue ifFalse)) := by
  unfold condBranch
  split
  · next h => exact .pure h
  · exact .refuse _ _
  · exact .refuse _ _

/-- The two arms that the targets of a condition are found to be. -/
theorem arms_of_targets {first second yes no : WorkBlock} {t f : String} (hne : t ≠ f)
    (hyes : (if t == second.entry then some second
      else if t == first.entry then some first else none) = some yes)
    (hno : (if f == second.entry then some second
      else if f == first.entry then some first else none) = some no) :
    (yes = first ∧ no = second ∨ yes = second ∧ no = first) ∧ t = yes.entry ∧ f = no.entry := by
  grind

theorem mem_of_lookup {ms : Members} {role : String} {b : WorkBlock}
    (h : ms.lookup role = some b) : (role, b) ∈ ms := by
  obtain ⟨l₁, l₂, hms, -⟩ := List.lookup_eq_some_iff.1 h
  simp [hms]

section

variable {C : (α : Type) → DraftM α → Prop} (hC : DraftM.Closed C) (scope : Scope)
  (p : Primitive)

include hC

/-- The identifiers that the end of a block mentions can be asked for. -/
abbrev Reads (C : (α : Type) → DraftM α → Prop) (b : WorkBlock) : Prop :=
  ∀ name ∈ Terminator.reads b.terminator, C Expr (localVar name)

theorem closed_member {b : WorkBlock} (hb : Reads C b) : C (List Stmt) (member scope b) := by
  unfold member
  split
  · exact hC.seq (hC.exitStmts scope _ hb) fun _ => hC.pure _
  · exact hC.pure _

theorem closed_membersOf :
    ∀ (bs : List WorkBlock), (∀ b ∈ bs, Reads C b) → C (List Stmt) (membersOf scope bs)
  | [], _ => hC.pure _
  | b :: bs, h => by
      obtain ⟨hb, hbs⟩ := List.forall_mem_cons.1 h
      exact hC.seq (closed_member hC scope hb) fun _ =>
        hC.seq (closed_membersOf bs hbs) fun _ => hC.pure _

theorem closed_condBranch (cond : WorkBlock) :
    C (Value × String × String) (condBranch p cond) := by
  unfold condBranch
  split
  · exact hC.pure _
  · exact hC.refuse _
  · exact hC.refuse _

/-- The condition of a branch is lowered. -/
theorem closed_test {cond : WorkBlock} {c : Value} {t f : String} (hcond : Reads C cond)
    (h : cond.terminator = some (.condBr c t f)) : C Expr (c.lower scope) := by
  refine hC.lower scope c fun name hname => hcond name ?_
  simpa [h, Terminator.reads, Terminator.operands] using hname

theorem closed_branchTowards {cond : WorkBlock} (target : WorkBlock) (hcond : Reads C cond) :
    C (Expr × String) (branchTowards scope p cond target) := by
  refine hC.bind (closed_condBranch hC p cond) (ensures_condBranch p cond) fun (c, t, f) h => ?_
  refine hC.seq (closed_test hC scope hcond h) fun test => ?_
  split
  · exact hC.pure _
  · split
    · exact hC.pure _
    · exact hC.refuse _

/-- A condition with a body, whatever statement is made of them. -/
theorem closed_guarded {cond body : WorkBlock} (hcond : Reads C cond) (hbody : Reads C body)
    (k : Expr × String → List Stmt → List Stmt → Region) :
    C Region (do
      let branch ← branchTowards scope p cond body
      let head ← member scope cond
      let inner ← member scope body
      return k branch head inner) :=
  hC.seq (closed_branchTowards hC scope p body hcond) fun _ =>
    hC.seq (closed_member hC scope hcond) fun _ =>
      hC.seq (closed_member hC scope hbody) fun _ => hC.pure _

variable {members : Members} (hms : ∀ m ∈ members, Reads C m.2)

include hms

theorem closed_seq : C Region (seq scope p members) := by
  unfold seq
  split
  · exact hC.refuse _
  · next first rest heq =>
    refine hC.seq (closed_membersOf hC scope _ fun b hb => ?_) fun _ => hC.pure _
    have hmem : b ∈ members.map Prod.snd := heq ▸ List.dropLast_subset _ hb
    obtain ⟨m, hm, rfl⟩ := List.mem_map.1 hmem
    exact hms m hm

theorem closed_ifThen : C Region (ifThen scope p members) := by
  unfold ifThen
  split
  · next cond body hcond hbody =>
    exact closed_guarded hC scope p (hms _ (mem_of_lookup hcond)) (hms _ (mem_of_lookup hbody)) _
  · exact hC.refuse _

theorem closed_ifReturn : C Region (ifReturn scope p members) := by
  unfold ifReturn
  split
  · split
    · exact closed_ifThen hC scope p hms
    · exact hC.refuse _
  · exact hC.refuse _

theorem closed_ifElse : C Region (ifElse scope p members) := by
  unfold ifElse
  split
  · next cond first second hcond hfirst hsecond =>
    have hcond : Reads C cond := hms _ (mem_of_lookup hcond)
    have hfirst : Reads C first := hms _ (mem_of_lookup hfirst)
    have hsecond : Reads C second := hms _ (mem_of_lookup hsecond)
    refine hC.bind (closed_condBranch hC p cond) (ensures_condBranch p cond) fun (c, t, f) h => ?_
    dsimp only
    split
    · next yes no hyes hno =>
      split
      · exact hC.refuse _
      · next hne =>
        obtain ⟨harms, -, -⟩ := arms_of_targets (by simpa using hne) hyes hno
        have hboth : Reads C yes ∧ Reads C no := by
          rcases harms with ⟨rfl, rfl⟩ | ⟨rfl, rfl⟩
          · exact ⟨hfirst, hsecond⟩
          · exact ⟨hsecond, hfirst⟩
        exact hC.seq (closed_test hC scope hcond h) fun _ =>
          hC.seq (closed_member hC scope hboth.1) fun _ =>
            hC.seq (closed_member hC scope hboth.2) fun _ =>
              hC.seq (closed_member hC scope hcond) fun _ => hC.pure _
    · exact hC.refuse _
  · exact hC.refuse _

theorem closed_preLoop : C Region (preLoop scope p members) := by
  unfold preLoop
  split
  · next cond body hcond hbody =>
    exact closed_guarded hC scope p (hms _ (mem_of_lookup hcond)) (hms _ (mem_of_lookup hbody)) _
  · exact hC.refuse _

theorem closed_postLoop : C Region (postLoop scope p members) := by
  unfold postLoop
  split
  · next cond hcond =>
    have hcond : Reads C cond := hms _ (mem_of_lookup hcond)
    have hbody : ∀ b ∈ (members.lookup "body").toList, Reads C b := fun b hb =>
      hms _ (mem_of_lookup (Option.mem_toList.1 hb))
    exact hC.seq (closed_branchTowards hC scope p _ hcond) fun _ =>
      hC.seq (closed_membersOf hC scope _ hbody) fun _ =>
        hC.seq (closed_member hC scope hcond) fun _ => hC.pure _
  · exact hC.refuse _

omit hms in
theorem closed_compound : C Region (compound p members) := by
  unfold compound
  split
  · exact hC.pure _
  · exact hC.refuse _

theorem closed_build : C Region (build scope p members) := by
  unfold build
  split
  · exact closed_seq hC scope p hms
  · exact closed_ifThen hC scope p hms
  · exact closed_ifReturn hC scope p hms
  · exact closed_ifElse hC scope p hms
  · exact closed_preLoop hC scope p hms
  · exact closed_postLoop hC scope p hms
  · exact closed_compound hC p
  · exact hC.refuse _

end

theorem steady_member (scope : Scope) (b : WorkBlock) : Steady (member scope b) :=
  closed_member closed_steady scope fun name _ => steady_localVar name

theorem steady_membersOf (scope : Scope) (bs : List WorkBlock) : Steady (membersOf scope bs) :=
  closed_membersOf closed_steady scope bs fun _ _ name _ => steady_localVar name

/-- **Building a region twice gives the same.** -/
theorem steady_build (scope : Scope) (p : Primitive) (members : Members) :
    Steady (build scope p members) :=
  closed_build closed_steady scope p fun _ _ name _ => steady_localVar name

/-! ### The forms of a region -/

section

variable (scope : Scope) (D : Draft)

/-- The statements of a member that is no carrier: its own, and the one with which
control leaves the function if it does. -/
inductive MemberStmts (b : WorkBlock) : List Stmt → Prop
  | stays : leaves b = false → MemberStmts b b.sequence
  | leaves {ending : List Stmt} : leaves b = true →
      Gives (Lower.exitStmts scope b.terminator) D ending → MemberStmts b (b.sequence ++ ending)

/-- The test under which a condition goes to a target, and where else it goes. -/
inductive Tested (cond target : WorkBlock) : Expr → String → Prop
  | towards {c : Value} {ifFalse : String} {e : Expr} :
      cond.terminator = some (.condBr c target.entry ifFalse) → Gives (c.lower scope) D e →
      Tested cond target e ifFalse
  | away {c : Value} {ifTrue : String} {e : Expr} :
      cond.terminator = some (.condBr c ifTrue target.entry) → ifTrue ≠ target.entry →
      Gives (c.lower scope) D e → Tested cond target e.negate ifTrue

/-- A pre-loop, which tests inside if the condition has statements. -/
def preLoopStmt (head inner : List Stmt) (test : Expr) : Stmt :=
  if head.isEmpty then .loop (some test) inner
  else .loop none (head ++ breakUnless test :: inner)

/-- What a primitive of a kind makes of its members. -/
inductive Built : Kind → Members → Region → Prop
  | seq {ms : Members} {first last : WorkBlock} {rest init : List WorkBlock}
      {parts : List (List Stmt)} :
      ms.map Prod.snd = first :: rest → first :: rest = init ++ [last] →
      List.Forall₂ (MemberStmts scope D) init parts →
      Built .seq ms
        { stmts := parts.flatten ++ last.sequence, terminator := last.terminator,
          entry := first.entry }
  | ifThen {ms : Members} {cond body : WorkBlock} {test : Expr} {join : String}
      {inner : List Stmt} :
      ms.lookup "cond" = some cond → ms.lookup "body" = some body →
      Tested scope D cond body test join → MemberStmts scope D body inner →
      Built .ifThen ms
        (close (cond.sequence ++ [.ifElse test inner none]) (ms.lookup "exit") (some join)
          cond.entry)
  | ifReturn {ms : Members} {body : WorkBlock} {region : Region} :
      ms.lookup "body" = some body → leaves body = true → Built .ifThen ms region →
      Built .ifReturn ms region
  | ifElse {ms : Members} {cond first second yes no : WorkBlock} {c : Value} {e : Expr}
      {thenStmts elseStmts : List Stmt} :
      ms.lookup "cond" = some cond → ms.lookup "body_true" = some first →
      ms.lookup "body_false" = some second →
      (yes = first ∧ no = second ∨ yes = second ∧ no = first) →
      cond.terminator = some (.condBr c yes.entry no.entry) → yes.entry ≠ no.entry →
      Gives (c.lower scope) D e → MemberStmts scope D yes thenStmts →
      MemberStmts scope D no elseStmts →
      Built .ifElse ms
        (close (cond.sequence ++ [.ifElse e thenStmts (some (.block elseStmts))])
          (ms.lookup "exit") ((branchTarget? yes).or (branchTarget? no)) cond.entry)
  | preLoop {ms : Members} {cond body : WorkBlock} {test : Expr} {join : String}
      {inner : List Stmt} :
      ms.lookup "cond" = some cond → ms.lookup "body" = some body →
      Tested scope D cond body test join → MemberStmts scope D body inner →
      Built .preLoop ms
        (close [preLoopStmt cond.sequence inner test] (ms.lookup "exit") (some join) cond.entry)
  | postLoop {ms : Members} {cond body : WorkBlock} {test : Expr} {join : String}
      {inner : List Stmt} :
      ms.lookup "cond" = some cond → ms.lookup "body" = some body →
      Tested scope D cond body test join → MemberStmts scope D body inner →
      Built .postLoop ms
        (close [.loop none (inner ++ cond.sequence ++ [breakUnless test])] (ms.lookup "exit")
          (some join) body.entry)
  | selfLoop {ms : Members} {cond : WorkBlock} {test : Expr} {join : String} :
      ms.lookup "cond" = some cond → ms.lookup "body" = none →
      Tested scope D cond cond test join →
      Built .postLoop ms
        (close [.loop none (cond.sequence ++ [breakUnless test])] (ms.lookup "exit")
          (some join) cond.entry)
  | compound {ms : Members} {body : WorkBlock} :
      ms.lookup "body" = some body →
      Built .compound ms
        { stmts := body.sequence, terminator := body.terminator, entry := body.entry }

end

variable {scope : Scope} {D : Draft} {p : Primitive} {b : WorkBlock}

/-! ### Growing drafts -/

theorem MemberStmts.mono {D' : Draft} {ss : List Stmt} (h : MemberStmts scope D b ss)
    (hD : D ≤ D') : MemberStmts scope D' b ss := by
  cases h with
  | stays hb => exact .stays hb
  | leaves hb hend => exact .leaves hb (hend.mono hD)

theorem Tested.mono {D' : Draft} {cond target : WorkBlock} {test : Expr} {join : String}
    (h : Tested scope D cond target test join) (hD : D ≤ D') :
    Tested scope D' cond target test join := by
  cases h with
  | towards hcond he => exact .towards hcond (he.mono hD)
  | away hcond hne he => exact .away hcond hne (he.mono hD)

theorem Built.mono {D' : Draft} {kind : Kind} {ms : Members} {region : Region}
    (h : Built scope D kind ms region) (hD : D ≤ D') : Built scope D' kind ms region := by
  induction h with
  | seq hms hlast hparts => exact .seq hms hlast (hparts.imp fun _ _ h => h.mono hD)
  | ifThen hcond hbody ht hm => exact .ifThen hcond hbody (ht.mono hD) (hm.mono hD)
  | ifReturn hbody hleaves _ ih => exact .ifReturn hbody hleaves ih
  | ifElse hcond hfirst hsecond harms hbr hne he hyes hno =>
    exact .ifElse hcond hfirst hsecond harms hbr hne (he.mono hD) (hyes.mono hD) (hno.mono hD)
  | preLoop hcond hbody ht hm => exact .preLoop hcond hbody (ht.mono hD) (hm.mono hD)
  | postLoop hcond hbody ht hm => exact .postLoop hcond hbody (ht.mono hD) (hm.mono hD)
  | selfLoop hcond hbody ht => exact .selfLoop hcond hbody (ht.mono hD)
  | compound hbody => exact .compound hbody

/-- A condition with a body is built the same whether the body leaves or not. -/
theorem Built.ifThen_of {kind : Kind} {ms : Members} {region : Region}
    (hkind : kind = .ifThen ∨ kind = .ifReturn) (h : Built scope D kind ms region) :
    Built scope D .ifThen ms region := by
  rcases hkind with rfl | rfl
  · exact h
  · cases h with
    | ifReturn _ _ h => exact h

/-! ### From the builder to the forms -/

theorem memberStmts_of_gives {ss : List Stmt} (h : Gives (member scope b) D ss) :
    MemberStmts scope D b ss := by
  unfold member at h
  split at h
  · next hb =>
    obtain ⟨ending, hend, h⟩ := h.bind fun _ => .pure _
    rw [h.pure]
    exact .leaves hb hend
  · next hb =>
    rw [h.pure]
    exact .stays (by simpa using hb)

/-- A condition is a member that stays. -/
theorem MemberStmts.eq_sequence {ss : List Stmt} {c : Value} {t f : String}
    (h : MemberStmts scope D b ss) (hb : b.terminator = some (.condBr c t f)) :
    ss = b.sequence := by
  cases h with
  | stays _ => rfl
  | leaves hl _ => simp [Region.leaves, hb, Terminator.leaves] at hl

theorem forall₂_of_gives {bs : List WorkBlock} {ss : List Stmt}
    (h : Gives (membersOf scope bs) D ss) :
    ∃ parts, List.Forall₂ (MemberStmts scope D) bs parts ∧ ss = parts.flatten := by
  induction bs generalizing ss with
  | nil => exact ⟨[], .nil, h.pure⟩
  | cons b bs ih =>
    obtain ⟨part, hpart, h⟩ :=
      h.bind fun _ => (steady_membersOf scope bs).grows.bind fun _ => .pure _
    obtain ⟨rest, hrest, h⟩ := h.bind fun _ => .pure _
    obtain ⟨parts, hparts, rfl⟩ := ih hrest
    exact ⟨part :: parts, .cons (memberStmts_of_gives hpart) hparts, h.pure⟩

theorem condBranch_of_gives {cond : WorkBlock} {c : Value} {t f : String}
    (h : Gives (condBranch p cond) D (c, t, f)) : cond.terminator = some (.condBr c t f) :=
  h.ensured (ensures_condBranch p cond)

theorem tested_of_gives {cond target : WorkBlock} {test : Expr} {join : String}
    (h : Gives (branchTowards scope p cond target) D (test, join)) :
    Tested scope D cond target test join := by
  have hgrows : ∀ (t f : String) (test : Expr), Grows (
      if t == target.entry then return (test, f)
      else if f == target.entry then return (test.negate, t)
      else DraftM.refuse (.notSuccessor target.label cond.label p.describe)) := by
    intro t f test
    split
    · exact .pure _
    · split
      · exact .pure _
      · exact (Steady.refuse _).grows
  obtain ⟨⟨c, t, f⟩, hbr, h⟩ := h.bind fun x =>
    (steady_lower scope x.1).grows.bind (hgrows x.2.1 x.2.2)
  have hcond := condBranch_of_gives hbr
  obtain ⟨e, he, h⟩ := h.bind (hgrows t f)
  split at h
  · next ht =>
    cases h.pure
    rw [eq_of_beq ht] at hcond
    exact .towards hcond he
  · next ht =>
    split at h
    · next hf =>
      cases h.pure
      rw [eq_of_beq hf] at hcond
      exact .away hcond (by simpa using ht) he
    · exact h.of_refuse.elim

theorem Tested.condBr {cond target : WorkBlock} {test : Expr} {join : String}
    (h : Tested scope D cond target test join) :
    ∃ c t f, cond.terminator = some (.condBr c t f) := by
  cases h with
  | towards hcond _ => exact ⟨_, _, _, hcond⟩
  | away hcond _ _ => exact ⟨_, _, _, hcond⟩

/-- The statements of a condition that was tested are its own. -/
theorem Tested.head_eq {cond target : WorkBlock} {test : Expr} {join : String} {head : List Stmt}
    (h : Tested scope D cond target test join) (hm : MemberStmts scope D cond head) :
    head = cond.sequence := by
  obtain ⟨c, t, f, hcond⟩ := h.condBr
  exact hm.eq_sequence hcond

/-- A condition with a body, whatever statement is made of them. -/
theorem guarded_of_gives {cond body : WorkBlock} {region : Region}
    {k : Expr × String → List Stmt → List Stmt → Region}
    (h : Gives (do
      let branch ← branchTowards scope p cond body
      let head ← member scope cond
      let inner ← member scope body
      return k branch head inner) D region) :
    ∃ test join inner, Tested scope D cond body test join ∧ MemberStmts scope D body inner ∧
      region = k (test, join) cond.sequence inner := by
  obtain ⟨⟨test, join⟩, ht, h⟩ := h.bind fun _ =>
    (steady_member scope cond).grows.bind fun _ =>
      (steady_member scope body).grows.bind fun _ => .pure _
  obtain ⟨head, hhead, h⟩ := h.bind fun _ =>
    (steady_member scope body).grows.bind fun _ => .pure _
  obtain ⟨inner, hinner, h⟩ := h.bind fun _ => .pure _
  have ht := tested_of_gives ht
  obtain rfl := ht.head_eq (memberStmts_of_gives hhead)
  exact ⟨test, join, inner, ht, memberStmts_of_gives hinner, h.pure⟩

theorem built_seq {ms : Members} {region : Region} (h : Gives (seq scope p ms) D region) :
    Built scope D .seq ms region := by
  unfold seq at h
  split at h
  · exact h.of_refuse.elim
  · next first rest hms =>
    obtain ⟨ss, hss, h⟩ := h.bind fun _ => .pure _
    obtain ⟨parts, hparts, rfl⟩ := forall₂_of_gives hss
    rw [h.pure]
    refine .seq hms ?_ hparts
    exact (List.dropLast_append_getLast? _ List.getLast?_cons).symm

theorem built_ifThen {ms : Members} {region : Region} (h : Gives (ifThen scope p ms) D region) :
    Built scope D .ifThen ms region := by
  unfold ifThen at h
  split at h
  · next cond body hcond hbody =>
    obtain ⟨test, join, inner, ht, hinner, rfl⟩ := guarded_of_gives h
    exact .ifThen hcond hbody ht hinner
  · exact h.of_refuse.elim

theorem built_ifReturn {ms : Members} {region : Region}
    (h : Gives (ifReturn scope p ms) D region) : Built scope D .ifReturn ms region := by
  unfold ifReturn at h
  split at h
  · next body hbody =>
    split at h
    · next hleaves => exact .ifReturn hbody hleaves (built_ifThen h)
    · exact h.of_refuse.elim
  · exact h.of_refuse.elim

theorem built_ifElse {ms : Members} {region : Region} (h : Gives (ifElse scope p ms) D region) :
    Built scope D .ifElse ms region := by
  unfold ifElse at h
  split at h
  · next cond first second hcond hfirst hsecond =>
    obtain ⟨⟨c, t, f⟩, hbr, h⟩ := h.bind fun (c, t, f) => by
      dsimp only
      split
      · split
        · exact (Steady.refuse _).grows
        · exact (steady_lower scope c).grows.bind fun _ =>
            (steady_member scope _).grows.bind fun _ => (steady_member scope _).grows.bind fun _ =>
              (steady_member scope _).grows.bind fun _ => .pure _
      · exact (Steady.refuse _).grows
    have hbr := condBranch_of_gives hbr
    dsimp only at h
    split at h
    · next yes no hyes hno =>
      split at h
      · exact h.of_refuse.elim
      · next hne =>
        obtain ⟨e, he, h⟩ := h.bind fun _ => (steady_member scope _).grows.bind fun _ =>
          (steady_member scope _).grows.bind fun _ => (steady_member scope _).grows.bind fun _ =>
            .pure _
        obtain ⟨thenStmts, hthen, h⟩ := h.bind fun _ => (steady_member scope _).grows.bind fun _ =>
          (steady_member scope _).grows.bind fun _ => .pure _
        obtain ⟨elseStmts, helse, h⟩ := h.bind fun _ =>
          (steady_member scope _).grows.bind fun _ => .pure _
        obtain ⟨head, hhead, h⟩ := h.bind fun _ => .pure _
        rw [h.pure, (memberStmts_of_gives hhead).eq_sequence hbr]
        have hne : t ≠ f := by simpa using hne
        obtain ⟨harms, rfl, rfl⟩ := arms_of_targets hne hyes hno
        exact .ifElse hcond hfirst hsecond harms hbr hne he (memberStmts_of_gives hthen)
          (memberStmts_of_gives helse)
    · exact h.of_refuse.elim
  · exact h.of_refuse.elim

theorem built_preLoop {ms : Members} {region : Region} (h : Gives (preLoop scope p ms) D region) :
    Built scope D .preLoop ms region := by
  unfold preLoop at h
  split at h
  · next cond body hcond hbody =>
    obtain ⟨test, join, inner, ht, hinner, rfl⟩ := guarded_of_gives h
    exact .preLoop hcond hbody ht hinner
  · exact h.of_refuse.elim

theorem built_postLoop {ms : Members} {region : Region}
    (h : Gives (postLoop scope p ms) D region) : Built scope D .postLoop ms region := by
  unfold postLoop at h
  split at h
  · next cond hcond =>
    obtain ⟨⟨test, join⟩, ht, h⟩ := h.bind fun _ =>
      (steady_membersOf scope _).grows.bind fun _ => (steady_member scope cond).grows.bind fun _ =>
        .pure _
    obtain ⟨inner, hinner, h⟩ := h.bind fun _ =>
      (steady_member scope cond).grows.bind fun _ => .pure _
    obtain ⟨last, hlast, h⟩ := h.bind fun _ => .pure _
    have ht := tested_of_gives ht
    rw [h.pure, ht.head_eq (memberStmts_of_gives hlast)]
    cases hbody : ms.lookup "body" with
    | none =>
      rw [hbody] at ht hinner
      rw [show inner = [] from hinner.pure]
      exact .selfLoop hcond hbody ht
    | some body =>
      rw [hbody] at ht hinner
      obtain ⟨parts, hparts, rfl⟩ := forall₂_of_gives hinner
      cases hparts with
      | cons hpart hnil =>
        cases hnil
        rw [List.flatten_cons, List.flatten_nil, List.append_nil]
        exact .postLoop hcond hbody ht hpart
  · exact h.of_refuse.elim

theorem built_compound {ms : Members} {region : Region} (h : Gives (compound p ms) D region) :
    Built scope D .compound ms region := by
  unfold compound at h
  split at h
  · next body hbody =>
    rw [h.pure]
    exact .compound hbody
  · exact h.of_refuse.elim

/-- **What the builder gives has one of the forms.** -/
theorem built_of_gives {ms : Members} {region : Region} (h : Gives (build scope p ms) D region) :
    Built scope D p.kind ms region := by
  unfold build at h
  split at h
  · next hk => exact hk ▸ built_seq h
  · next hk => exact hk ▸ built_ifThen h
  · next hk => exact hk ▸ built_ifReturn h
  · next hk => exact hk ▸ built_ifElse h
  · next hk => exact hk ▸ built_preLoop h
  · next hk => exact hk ▸ built_postLoop h
  · next hk => exact hk ▸ built_compound h
  · exact h.of_refuse.elim

/-! ### Entry and containment -/

@[simp] theorem entry_close (ss : List Stmt) (exit : Option WorkBlock) (join : Option String)
    (entry : String) : (close ss exit join entry).entry = entry := by
  cases exit <;> rfl

/-- The region is entered where one of its members is. -/
theorem Built.entry_mem {kind : Kind} {ms : Members} {region : Region}
    (h : Built scope D kind ms region) : ∃ m ∈ ms, m.2.entry = region.entry := by
  induction h with
  | @seq ms first last rest init parts hms _ _ =>
    have hmem : first ∈ ms.map Prod.snd := hms ▸ List.mem_cons_self
    obtain ⟨m, hm, rfl⟩ := List.mem_map.1 hmem
    exact ⟨m, hm, rfl⟩
  | ifThen hcond _ _ _ | ifElse hcond _ _ _ _ _ _ _ _ | preLoop hcond _ _ _
  | selfLoop hcond _ _ => exact ⟨_, mem_of_lookup hcond, (entry_close ..).symm⟩
  | ifReturn _ _ _ ih => exact ih
  | postLoop _ hbody _ _ => exact ⟨_, mem_of_lookup hbody, (entry_close ..).symm⟩
  | compound hbody => exact ⟨_, mem_of_lookup hbody, rfl⟩

theorem MemberStmts.contained {ss : List Stmt} (h : MemberStmts scope D b ss)
    (hb : Stmt.allContained b.sequence = true) : Stmt.allContained ss = true := by
  cases h with
  | stays _ => exact hb
  | leaves _ hend => simp [hb, hend.ensured (Lower.contained_exitStmts scope _)]

theorem contained_flatten {bs : List WorkBlock} {parts : List (List Stmt)}
    (h : List.Forall₂ (MemberStmts scope D) bs parts)
    (hbs : ∀ b ∈ bs, Stmt.allContained b.sequence = true) :
    Stmt.allContained parts.flatten = true := by
  induction h with
  | nil => rfl
  | cons hb _ ih =>
    rw [List.forall_mem_cons] at hbs
    simp [hb.contained hbs.1, ih hbs.2]

theorem contained_close {ss : List Stmt} {exit : Option WorkBlock} {join : Option String}
    {entry : String} (hss : Stmt.allContained ss = true)
    (hexit : ∀ b, exit = some b → Stmt.allContained b.sequence = true) :
    Stmt.allContained (close ss exit join entry).stmts = true := by
  cases exit with
  | none => exact hss
  | some b => simp [close, hss, hexit b rfl]

/-- What holds of the members of a sequence holds of those before the last one and of the last. -/
theorem forall_init_last {P : WorkBlock → Prop} {ms : Members} {first last : WorkBlock}
    {rest init : List WorkBlock} (hfirst : ms.map Prod.snd = first :: rest)
    (hlast : first :: rest = init ++ [last]) (hms : ∀ m ∈ ms, P m.2) :
    (∀ b ∈ init, P b) ∧ P last := by
  have hall : ∀ b ∈ init ++ [last], P b := by
    rw [← hlast, ← hfirst]
    exact List.forall_mem_map.2 hms
  rwa [List.forall_mem_append, List.forall_mem_singleton] at hall

/-- **No `break` leads out of the loop that it was made for**, so regions of
contained members are contained. -/
theorem Built.contained {kind : Kind} {ms : Members} {region : Region}
    (h : Built scope D kind ms region)
    (hms : ∀ m ∈ ms, Stmt.allContained m.2.sequence = true) :
    Stmt.allContained region.stmts = true := by
  have hrole : ∀ {role : String} {b : WorkBlock}, ms.lookup role = some b →
      Stmt.allContained b.sequence = true := fun hb => hms _ (mem_of_lookup hb)
  induction h with
  | @seq ms first last rest init parts hfirst hlast hparts =>
    obtain ⟨hinit, hend⟩ :=
      forall_init_last (P := fun b => Stmt.allContained b.sequence = true) hfirst hlast hms
    simp [contained_flatten hparts hinit, hend]
  | ifThen hcond hbody _ hm =>
    refine contained_close ?_ fun _ => hrole
    simp [Stmt.allContained, Stmt.contained, Stmt.elseContained, hrole hcond,
      hm.contained (hrole hbody)]
  | ifReturn _ _ _ ih => exact ih hms hrole
  | ifElse hcond hfirst hsecond harms _ _ _ hyes hno =>
    have hthen : Stmt.allContained _ = true := hyes.contained (by
      rcases harms with ⟨rfl, -⟩ | ⟨rfl, -⟩
      · exact hrole hfirst
      · exact hrole hsecond)
    have helse : Stmt.allContained _ = true := hno.contained (by
      rcases harms with ⟨-, rfl⟩ | ⟨-, rfl⟩
      · exact hrole hsecond
      · exact hrole hfirst)
    refine contained_close ?_ fun _ => hrole
    simp [Stmt.allContained, Stmt.contained, Stmt.elseContained, hrole hcond, hthen, helse]
  | preLoop _ _ _ _ =>
    refine contained_close ?_ fun _ => hrole
    unfold preLoopStmt
    split <;> simp [Stmt.allContained, Stmt.contained]
  | postLoop _ _ _ _ | selfLoop _ _ _ =>
    exact contained_close (by simp [Stmt.allContained, Stmt.contained]) fun _ => hrole
  | compound hbody => exact hrole hbody

end Region

end GoLift
