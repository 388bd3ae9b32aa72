import GoLift.Proofs.Region.Graph

/-!
# Regions of the right shape do what their members do

The builder looks at the condition of a region and takes the rest on trust: that a
body goes on where the statement made of it does. `Shape` says what it trusts in,
kind by kind, and which branches between members the statement stands for.

**A region of its shape can take the place of its members** (`Faithful`): every run
of the graph that enters it is a run of its statements up to where its terminator
leads, in fewer blocks, and every run of its statements is one of the graph. The
count of blocks is what the induction of a whole simulation goes down by; inside a
loop it is also what carries the induction over the turns.
-/

set_option autoImplicit false

namespace GoLift

open Go (Expr Stmt Host Env Action State Runs Fate Via Branch Loops via_append via_nil
  via_ifElse via_block branch_negate loops_cond loops_breakUnless)
open DraftM

/-! ### Shapes -/

/-- Control never goes on behind a block. -/
inductive Leaves (H : Host) (b : WorkBlock) : Prop
  | terminator : Region.leaves b = true → Leaves H b
  /-- A block without a terminator whose statements never fall through. -/
  | inside : b.terminator = none →
      (∀ σ σ₁ : State H, ¬ Runs (.stmts b.sequence) σ (.next σ₁)) → Leaves H b

/-- Control goes on at a label behind a block, if it goes on at all. -/
inductive Goes (H : Host) (b : WorkBlock) (l : String) : Prop
  | br : b.terminator = some (.br l) → Goes H b l
  | leaves : Leaves H b → Goes H b l

/-- A condition that goes to a target or to a different label. -/
def Forks (cond target : WorkBlock) (join : String) : Prop :=
  target.entry ≠ join ∧ ∃ c, cond.terminator = some (.condBr c target.entry join) ∨
    cond.terminator = some (.condBr c join target.entry)

/-- `Shape H kind ms first links`: the members `ms` are laid out as a primitive of the
kind expects. Control enters by `first`, and `links` are the branches between members
that the statement stands for. -/
inductive Shape (H : Host) :
    Kind → Members → WorkBlock → (WorkBlock → WorkBlock → Prop) → Prop
  | seq {ms : Members} {first : WorkBlock} {rest : List WorkBlock} :
      ms.map Prod.snd = first :: rest →
      (first :: rest).IsChain (fun b b' => Goes H b b'.entry) →
      Shape H .seq ms first (fun w w' => (w, w') ∈ (first :: rest).zip rest)
  | ifThen {kind : Kind} {ms : Members} {cond body : WorkBlock} {join : String} :
      kind = .ifThen ∨ kind = .ifReturn → ms.lookup "cond" = some cond →
      ms.lookup "body" = some body → Forks cond body join → Goes H body join →
      (∀ x, ms.lookup "exit" = some x → x.entry = join) →
      Shape H kind ms cond (fun w w' =>
        w = cond ∧ w' = body ∨ (w = cond ∨ w = body) ∧ ms.lookup "exit" = some w')
  | ifElse {ms : Members} {cond first second : WorkBlock} {join : String} {c : Value} :
      ms.lookup "cond" = some cond → ms.lookup "body_true" = some first →
      ms.lookup "body_false" = some second →
      cond.terminator = some (.condBr c first.entry second.entry) ∨
        cond.terminator = some (.condBr c second.entry first.entry) →
      Goes H first join → Goes H second join →
      (∀ x, ms.lookup "exit" = some x → x.entry = join) →
      Shape H .ifElse ms cond (fun w w' =>
        w = cond ∧ (w' = first ∨ w' = second) ∨
          (w = first ∨ w = second) ∧ ms.lookup "exit" = some w')
  | preLoop {ms : Members} {cond body : WorkBlock} {join : String} :
      ms.lookup "cond" = some cond → ms.lookup "body" = some body → Forks cond body join →
      Goes H body cond.entry → (∀ x, ms.lookup "exit" = some x → x.entry = join) →
      Shape H .preLoop ms cond (fun w w' =>
        w = cond ∧ w' = body ∨ w = body ∧ w' = cond ∨ w = cond ∧ ms.lookup "exit" = some w')
  | postLoop {ms : Members} {cond body : WorkBlock} {join : String} :
      ms.lookup "cond" = some cond → ms.lookup "body" = some body → Forks cond body join →
      Goes H body cond.entry → (∀ x, ms.lookup "exit" = some x → x.entry = join) →
      Shape H .postLoop ms body (fun w w' =>
        w = body ∧ w' = cond ∨ w = cond ∧ w' = body ∨ w = cond ∧ ms.lookup "exit" = some w')
  | selfLoop {ms : Members} {cond : WorkBlock} {join : String} :
      ms.lookup "cond" = some cond → ms.lookup "body" = none → Forks cond cond join →
      (∀ x, ms.lookup "exit" = some x → x.entry = join) →
      Shape H .postLoop ms cond (fun w w' =>
        w = cond ∧ w' = cond ∨ w = cond ∧ ms.lookup "exit" = some w')
  | compound {ms : Members} {body : WorkBlock} :
      ms.lookup "body" = some body → Shape H .compound ms body (fun _ _ => False)

variable {H : Host} {scope : Scope} {D : Draft} {bs : List WorkBlock} {b : WorkBlock}
  {E : String → Fate H} {P : Fate H} {l : String} {σ : State H} {o : Go.Outcome H}

/-! ### Members -/

/-- The statements of a member that leaves do what it does, whatever follows. -/
theorem enter_leaves {ss : List Stmt} (hb : Leaves H b) (hm : Region.MemberStmts scope D b ss) :
    Enter scope D E b σ o ↔ Via ss P σ o := by
  cases hb with
  | terminator hleaves =>
    cases hm with
    | stays hstays => rw [hleaves] at hstays; cases hstays
    | leaves _ hend =>
      obtain ⟨t, ht⟩ : ∃ t, b.terminator = some t := by
        cases hterm : b.terminator with
        | none => simp [Region.leaves, hterm] at hleaves
        | some t => exact ⟨t, rfl⟩
      have hlt : t.leaves = true := by simpa [Region.leaves, ht] using hleaves
      rw [ht] at hend
      rw [Enter, ht, via_append]
      exact ⟨Via.mono fun _ _ => (via_exit hlt hend).2, Via.mono fun _ _ => (via_exit hlt hend).1⟩
  | inside hnone hnever =>
    have hss : ss = b.sequence := by
      cases hm with
      | stays _ => rfl
      | leaves hleaves _ => simp [Region.leaves, hnone] at hleaves
    -- Its statements do not end, so it makes no difference what comes after them.
    have honly : ∀ {P : Fate H}, Via b.sequence P σ o → Runs (.stmts b.sequence) σ (.done o) := by
      rintro P (hrun | ⟨σ₁, hrun, -⟩)
      · exact hrun
      · exact absurd hrun (hnever σ σ₁)
    rw [hss]
    exact ⟨fun h => .inl (honly h), fun h => .inl (honly h)⟩

/-- The statements of a member that goes to a label lead there. -/
theorem enter_goes {ss : List Stmt} (hb : Goes H b l) (hm : Region.MemberStmts scope D b ss) :
    Enter scope D E b σ o ↔ Via ss (E l) σ o := by
  cases hb with
  | leaves hleaves => exact enter_leaves hleaves hm
  | br ht =>
    have hss : ss = b.sequence := by
      cases hm with
      | stays _ => rfl
      | leaves hleaves _ => simp [Region.leaves, ht, Terminator.leaves] at hleaves
    rw [hss, Enter, ht]
    exact ⟨Via.mono fun _ _ => after_br.1, Via.mono fun _ _ => after_br.2⟩

/-- A condition branches by the test that was made of it. -/
theorem enter_tested {cond target : WorkBlock} {test : Expr} {join : String}
    (h : Region.Tested scope D cond target test join) :
    Enter scope D E cond σ o ↔
      Via cond.sequence (Branch (fun ρ => test.test H ρ) (E target.entry) (E join)) σ o := by
  cases h with
  | towards hcond he =>
    rw [Enter, hcond]
    exact ⟨Via.mono fun _ _ => (after_condBr he).1, Via.mono fun _ _ => (after_condBr he).2⟩
  | away hcond _ he =>
    rw [Enter, hcond]
    exact ⟨Via.mono fun _ _ h => branch_negate.2 ((after_condBr he).1 h),
      Via.mono fun _ _ h => (after_condBr he).2 (branch_negate.1 h)⟩

theorem join_of_forks {cond target : WorkBlock} {test : Expr} {join join' : String}
    (h : Region.Tested scope D cond target test join) (hf : Forks cond target join') :
    join = join' := by
  obtain ⟨hne, c, hc | hc⟩ := hf <;> cases h with
  | towards hcond _ => rw [hc] at hcond; grind
  | away hcond hne' _ => rw [hc] at hcond; grind

/-! ### Shapes that are built -/

/-- `Made H scope D ms first links region`: the builder makes the region of members that
have the shape of its kind. -/
inductive Made (H : Host) (scope : Scope) (D : Draft) (ms : Members) :
    WorkBlock → (WorkBlock → WorkBlock → Prop) → Region → Prop
  | seq {first last : WorkBlock} {rest init : List WorkBlock} {parts : List (List Stmt)} :
      ms.map Prod.snd = first :: rest → first :: rest = init ++ [last] →
      (first :: rest).IsChain (fun b b' => Goes H b b'.entry) →
      List.Forall₂ (Region.MemberStmts scope D) init parts →
      Made H scope D ms first (fun w w' => (w, w') ∈ (first :: rest).zip rest)
        { stmts := parts.flatten ++ last.sequence, terminator := last.terminator,
          entry := first.entry }
  | ifThen {cond body : WorkBlock} {test : Expr} {join : String} {inner : List Stmt} :
      ms.lookup "cond" = some cond → ms.lookup "body" = some body → Forks cond body join →
      Region.Tested scope D cond body test join → Region.MemberStmts scope D body inner →
      Goes H body join → (∀ x, ms.lookup "exit" = some x → x.entry = join) →
      Made H scope D ms cond
        (fun w w' => w = cond ∧ w' = body ∨ (w = cond ∨ w = body) ∧ ms.lookup "exit" = some w')
        (Region.close (cond.sequence ++ [.ifElse test inner none]) (ms.lookup "exit") (some join)
          cond.entry)
  | ifElse {cond first second yes no : WorkBlock} {c : Value} {e : Expr} {join : String}
      {thenStmts elseStmts : List Stmt} :
      ms.lookup "cond" = some cond → ms.lookup "body_true" = some first →
      ms.lookup "body_false" = some second →
      (yes = first ∧ no = second ∨ yes = second ∧ no = first) →
      cond.terminator = some (.condBr c yes.entry no.entry) → Gives (c.lower scope) D e →
      Region.MemberStmts scope D yes thenStmts → Region.MemberStmts scope D no elseStmts →
      Goes H first join → Goes H second join →
      (∀ x, ms.lookup "exit" = some x → x.entry = join) →
      Made H scope D ms cond
        (fun w w' => w = cond ∧ (w' = first ∨ w' = second) ∨
          (w = first ∨ w = second) ∧ ms.lookup "exit" = some w')
        (Region.close (cond.sequence ++ [.ifElse e thenStmts (some (.block elseStmts))])
          (ms.lookup "exit") ((Region.branchTarget? yes).or (Region.branchTarget? no)) cond.entry)
  | preLoop {cond body : WorkBlock} {test : Expr} {join : String} {inner : List Stmt} :
      ms.lookup "cond" = some cond → ms.lookup "body" = some body → Forks cond body join →
      Region.Tested scope D cond body test join → Region.MemberStmts scope D body inner →
      Goes H body cond.entry → (∀ x, ms.lookup "exit" = some x → x.entry = join) →
      Made H scope D ms cond
        (fun w w' => w = cond ∧ w' = body ∨ w = body ∧ w' = cond ∨
          w = cond ∧ ms.lookup "exit" = some w')
        (Region.close [Region.preLoopStmt cond.sequence inner test] (ms.lookup "exit") (some join)
          cond.entry)
  | postLoop {cond body : WorkBlock} {test : Expr} {join : String} {inner : List Stmt} :
      ms.lookup "cond" = some cond → ms.lookup "body" = some body → Forks cond body join →
      Region.Tested scope D cond body test join → Region.MemberStmts scope D body inner →
      Goes H body cond.entry → (∀ x, ms.lookup "exit" = some x → x.entry = join) →
      Made H scope D ms body
        (fun w w' => w = body ∧ w' = cond ∨ w = cond ∧ w' = body ∨
          w = cond ∧ ms.lookup "exit" = some w')
        (Region.close [.loop none (inner ++ cond.sequence ++ [Region.breakUnless test])]
          (ms.lookup "exit") (some join) body.entry)
  | selfLoop {cond : WorkBlock} {test : Expr} {join : String} :
      ms.lookup "cond" = some cond → Forks cond cond join →
      Region.Tested scope D cond cond test join →
      (∀ x, ms.lookup "exit" = some x → x.entry = join) →
      Made H scope D ms cond
        (fun w w' => w = cond ∧ w' = cond ∨ w = cond ∧ ms.lookup "exit" = some w')
        (Region.close [.loop none (cond.sequence ++ [Region.breakUnless test])] (ms.lookup "exit")
          (some join) cond.entry)
  | compound {body : WorkBlock} :
      ms.lookup "body" = some body →
      Made H scope D ms body (fun _ _ => False)
        { stmts := body.sequence, terminator := body.terminator, entry := body.entry }

/-- A region that is built of members of its shape. The roles say that the builder and the
shape speak of the same blocks, and the condition that they speak of the same join. -/
theorem Shape.made {kind : Kind} {ms : Members} {region : Region} {first : WorkBlock}
    {links : WorkBlock → WorkBlock → Prop} (hs : Shape H kind ms first links)
    (hbuilt : Region.Built scope D kind ms region) : Made H scope D ms first links region := by
  cases hs with
  | seq hfirst hchain =>
    cases hbuilt with
    | seq hfirst' hinit hparts =>
      cases hfirst.symm.trans hfirst'
      exact .seq hfirst hinit hchain hparts
  | ifThen hkind hcond hbody hforks hgoes hexit =>
    cases hbuilt.ifThen_of hkind with
    | ifThen hcond' hbody' ht hm =>
      cases hcond.symm.trans hcond'
      cases hbody.symm.trans hbody'
      cases join_of_forks ht hforks
      exact .ifThen hcond hbody hforks ht hm hgoes hexit
  | ifElse hcond hfirst hsecond _ hf hg hexit =>
    cases hbuilt with
    | ifElse hcond' hfirst' hsecond' harms hbr _ he hthen helse =>
      cases hcond.symm.trans hcond'
      cases hfirst.symm.trans hfirst'
      cases hsecond.symm.trans hsecond'
      exact .ifElse hcond hfirst hsecond harms hbr he hthen helse hf hg hexit
  | preLoop hcond hbody hforks hgoes hexit =>
    cases hbuilt with
    | preLoop hcond' hbody' ht hm =>
      cases hcond.symm.trans hcond'
      cases hbody.symm.trans hbody'
      cases join_of_forks ht hforks
      exact .preLoop hcond hbody hforks ht hm hgoes hexit
  | postLoop hcond hbody hforks hgoes hexit =>
    cases hbuilt with
    | postLoop hcond' hbody' ht hm =>
      cases hcond.symm.trans hcond'
      cases hbody.symm.trans hbody'
      cases join_of_forks ht hforks
      exact .postLoop hcond hbody hforks ht hm hgoes hexit
    | selfLoop _ hbody' _ =>
      cases hbody.symm.trans hbody'
  | selfLoop hcond hbody hforks hexit =>
    cases hbuilt with
    | postLoop _ hbody' _ _ =>
      cases hbody.symm.trans hbody'
    | selfLoop hcond' _ ht =>
      cases hcond.symm.trans hcond'
      cases join_of_forks ht hforks
      exact .selfLoop hcond hforks ht hexit
  | compound hbody =>
    cases hbuilt with
    | compound hbody' =>
      cases hbody.symm.trans hbody'
      exact .compound hbody

/-- A region is entered where its first member is. -/
theorem Made.entry_eq {ms : Members} {region : Region} {first : WorkBlock}
    {links : WorkBlock → WorkBlock → Prop} (h : Made H scope D ms first links region) :
    region.entry = first.entry := by
  cases h with
  | seq => rfl
  | compound => rfl
  | _ => exact Region.entry_close ..

/-! ### The end of a region -/

/-- What comes after the structured statement: the exit member, or the join. -/
def Rest (scope : Scope) (D : Draft) (E : String → Fate H) (exit : Option WorkBlock)
    (join : Option String) : Fate H :=
  match exit with
  | some b => Enter scope D E b
  | none => After scope D E (join.map Terminator.br)

theorem via_close {ss : List Stmt} {exit : Option WorkBlock} {join : Option String}
    {entry : String} :
    Via (Region.close ss exit join entry).stmts
        (After scope D E (Region.close ss exit join entry).terminator) σ o ↔
      Via ss (Rest scope D E exit join) σ o := by
  cases exit with
  | none => rfl
  | some b => exact via_append

/-- What is true of a region that can take the place of its members. -/
structure Faithful (H : Host) (scope : Scope) (D : Draft) (bs : List WorkBlock)
    (region : Region) : Prop where
  back : ∀ {n : Nat} {σ : State H} {o}, Within scope D bs (n + 1) region.entry σ o →
    Via region.stmts (After scope D (Within scope D bs n) region.terminator) σ o
  fwd : ∀ {σ : State H} {o}, Via region.stmts (After scope D (Ends scope D bs) region.terminator) σ o →
    Ends scope D bs region.entry σ o

section

variable (hbs : (bs.map WorkBlock.entry).Nodup)

include hbs

theorem enter_of_within (hb : b ∈ bs) {n : Nat} (h : Within scope D bs n b.entry σ o) :
    Enter scope D (Within scope D bs n) b σ o := by
  cases n with
  | zero => cases h
  | succ n =>
    exact ((within_entry hbs hb).1 h).mono fun _ _ _ => Within.mono (Nat.le_succ n)

theorem rest_of_within {exit : Option WorkBlock} {join : String} {n : Nat}
    (hexit : ∀ x, exit = some x → x ∈ bs ∧ x.entry = join)
    (h : Within scope D bs n join σ o) : Rest scope D (Within scope D bs n) exit (some join) σ o := by
  cases exit with
  | none => exact after_br.2 h
  | some x =>
    obtain ⟨hx, rfl⟩ := hexit x rfl
    exact enter_of_within hbs hx h

theorem ends_of_rest {exit : Option WorkBlock} {join : String}
    (hexit : ∀ x, exit = some x → x ∈ bs ∧ x.entry = join)
    (h : Rest scope D (Ends scope D bs) exit (some join) σ o) : Ends scope D bs join σ o := by
  cases exit with
  | none => exact after_br.1 h
  | some x =>
    obtain ⟨hx, rfl⟩ := hexit x rfl
    exact (ends_entry hbs hx).2 h

/-- A statement that leads to the join makes a region that does. -/
theorem faithful_close {ss : List Stmt} {exit : Option WorkBlock} {join entry : String}
    (hexit : ∀ x, exit = some x → x ∈ bs ∧ x.entry = join)
    (hback : ∀ {n : Nat} {σ : State H} {o}, Within scope D bs (n + 1) entry σ o →
      Via ss (Within scope D bs n join) σ o)
    (hfwd : ∀ {σ : State H} {o}, Via ss (Ends scope D bs join) σ o → Ends scope D bs entry σ o) :
    Faithful H scope D bs (Region.close ss exit (some join) entry) where
  back h := by
    rw [Region.entry_close] at h
    exact via_close.2 ((hback h).mono fun _ _ => rest_of_within hbs hexit)
  fwd h := by
    rw [Region.entry_close]
    exact hfwd ((via_close.1 h).mono fun _ _ => ends_of_rest hbs hexit)

/-! ### Sequences -/

omit hbs in
/-- Entering a sequence leads through its members to the terminator of the last. -/
theorem via_seq_of_enter (hE : ∀ b ∈ bs, ∀ σ o, E b.entry σ o → Enter scope D E b σ o)
    {init : List WorkBlock} {parts : List (List Stmt)} {first last : WorkBlock}
    {rest : List WorkBlock} (hinit : first :: rest = init ++ [last])
    (hparts : List.Forall₂ (Region.MemberStmts scope D) init parts)
    (hchain : (first :: rest).IsChain (fun b b' => Goes H b b'.entry))
    (hmem : ∀ b ∈ first :: rest, b ∈ bs) (h : Enter scope D E first σ o) :
    Via (parts.flatten ++ last.sequence) (After scope D E last.terminator) σ o := by
  induction hparts generalizing first rest σ o with
  | nil =>
    cases hinit
    exact h
  | @cons b part init parts hb _ ih =>
    obtain ⟨rfl, hrest⟩ := List.cons_eq_cons.1 hinit
    cases rest with
    | nil => simp at hrest
    | cons next rest =>
      obtain ⟨hgoes, hchain⟩ := List.isChain_cons_cons.1 hchain
      rw [List.flatten_cons, List.append_assoc, via_append]
      refine ((enter_goes hgoes hb).1 h).mono fun σ₁ _ h₁ => ?_
      refine ih hrest hchain (fun b hb => hmem b (List.mem_cons_of_mem _ hb)) ?_
      exact hE next (hmem next (by simp)) _ _ h₁

omit hbs in
/-- What the statements of a sequence lead to, entering it leads to. -/
theorem enter_of_via_seq (hE : ∀ b ∈ bs, ∀ σ o, Enter scope D E b σ o → E b.entry σ o)
    {init : List WorkBlock} {parts : List (List Stmt)} {first last : WorkBlock}
    {rest : List WorkBlock} (hinit : first :: rest = init ++ [last])
    (hparts : List.Forall₂ (Region.MemberStmts scope D) init parts)
    (hchain : (first :: rest).IsChain (fun b b' => Goes H b b'.entry))
    (hmem : ∀ b ∈ first :: rest, b ∈ bs)
    (h : Via (parts.flatten ++ last.sequence) (After scope D E last.terminator) σ o) :
    Enter scope D E first σ o := by
  induction hparts generalizing first rest σ o with
  | nil =>
    cases hinit
    exact h
  | @cons b part init parts hb _ ih =>
    obtain ⟨rfl, hrest⟩ := List.cons_eq_cons.1 hinit
    cases rest with
    | nil => simp at hrest
    | cons next rest =>
      obtain ⟨hgoes, hchain⟩ := List.isChain_cons_cons.1 hchain
      rw [List.flatten_cons, List.append_assoc, via_append] at h
      refine (enter_goes hgoes hb).2 (h.mono fun σ₁ _ h₁ => ?_)
      refine hE next (hmem next (by simp)) _ _ ?_
      exact ih hrest hchain (fun b hb => hmem b (List.mem_cons_of_mem _ hb)) h₁

/-! ### Loops -/

omit hbs in
/-- If each turn of a loop is a part of a run that is entered by `l`, the loop is the
whole of such runs up to the join. -/
theorem via_loop_of_within {s : Stmt} {head inner : List Stmt} {test : Expr} {l join : String}
    (hs : Loops H s head test inner)
    (hturn : ∀ {n : Nat} {σ : State H} {o}, Within scope D bs (n + 1) l σ o →
      Via head (Branch (fun ρ => test.test H ρ) (Via inner (Within scope D bs n l))
        (Within scope D bs n join)) σ o)
    {n : Nat} (h : Within scope D bs (n + 1) l σ o) : Via [s] (Within scope D bs n join) σ o := by
  induction n using Nat.strongRecOn generalizing σ o with
  | ind n ih =>
    refine hs.turn ((hturn h).mono fun σ₁ _ => Branch.mono (fun σ₂ _ => ?_) fun _ _ => id)
    refine Via.mono fun σ₃ _ hagain => ?_
    cases n with
    | zero => cases hagain
    | succ n =>
      exact (ih n (Nat.lt_succ_self n) hagain).mono fun _ _ => Within.mono (Nat.le_succ n)

/-! ### Every kind -/

theorem faithful_ifThen {ms : Members} (hms : ∀ m ∈ ms, m.2 ∈ bs) {cond body : WorkBlock}
    {test : Expr} {join : String} {inner : List Stmt} (hcond : ms.lookup "cond" = some cond)
    (hbody : ms.lookup "body" = some body) (ht : Region.Tested scope D cond body test join)
    (hinner : Region.MemberStmts scope D body inner) (hgoes : Goes H body join)
    (hexit : ∀ x, ms.lookup "exit" = some x → x.entry = join) :
    Faithful H scope D bs
      (Region.close (cond.sequence ++ [.ifElse test inner none]) (ms.lookup "exit") (some join)
        cond.entry) := by
  have hcond := hms _ (Region.mem_of_lookup hcond)
  have hbody := hms _ (Region.mem_of_lookup hbody)
  refine faithful_close hbs (fun x hx => ⟨hms _ (Region.mem_of_lookup hx), hexit x hx⟩) ?_ ?_
  · intro n σ o h
    rw [via_append]
    refine ((enter_tested ht).1 ((within_entry hbs hcond).1 h)).mono fun _ _ hbr => ?_
    refine via_ifElse.2 (hbr.mono (fun _ _ hb => ?_) fun _ _ => via_nil.2)
    exact (enter_goes hgoes hinner).1 (enter_of_within hbs hbody hb)
  · intro σ o h
    rw [via_append] at h
    refine (ends_entry hbs hcond).2 ((enter_tested ht).2 (h.mono fun _ _ hif => ?_))
    refine (via_ifElse.1 hif).mono (fun _ _ hb => ?_) fun _ _ => via_nil.1
    exact (ends_entry hbs hbody).2 ((enter_goes hgoes hinner).2 hb)

omit hbs in
/-- A member that goes to a label branches there, or leaves without a branch. -/
theorem branchTarget_of_goes (h : Goes H b l) :
    Region.branchTarget? b = some l ∨ Region.branchTarget? b = none ∧ Leaves H b := by
  cases h with
  | br ht => exact .inl (by rw [Region.branchTarget?, ht])
  | leaves hb =>
    refine .inr ⟨?_, hb⟩
    cases hb with
    | inside hnone _ => rw [Region.branchTarget?, hnone]
    | terminator hleaves =>
      unfold Region.branchTarget?
      split
      · next ht => simp [Region.leaves, ht, Terminator.leaves] at hleaves
      · rfl

/-- The region of two arms, given what becomes of each of them. -/
theorem faithful_arms {exit : Option WorkBlock} {join : Option String}
    {cond yes no : WorkBlock} {c : Value} {e : Expr} {thenStmts elseStmts : List Stmt}
    (hcond : cond ∈ bs) (hyes : yes ∈ bs) (hno : no ∈ bs)
    (hbr : cond.terminator = some (.condBr c yes.entry no.entry)) (he : Gives (c.lower scope) D e)
    (hback : ∀ {n : Nat} {σ : State H} {o},
      (Enter scope D (Within scope D bs n) yes σ o →
        Via thenStmts (Rest scope D (Within scope D bs n) exit join) σ o) ∧
      (Enter scope D (Within scope D bs n) no σ o →
        Via elseStmts (Rest scope D (Within scope D bs n) exit join) σ o))
    (hfwd : ∀ {σ : State H} {o},
      (Via thenStmts (Rest scope D (Ends scope D bs) exit join) σ o →
        Enter scope D (Ends scope D bs) yes σ o) ∧
      (Via elseStmts (Rest scope D (Ends scope D bs) exit join) σ o →
        Enter scope D (Ends scope D bs) no σ o)) :
    Faithful H scope D bs
      (Region.close (cond.sequence ++ [.ifElse e thenStmts (some (.block elseStmts))]) exit join
        cond.entry) where
  back {n σ o} h := by
    rw [Region.entry_close, within_entry hbs hcond, Enter, hbr] at h
    rw [via_close, via_append]
    refine h.mono fun _ _ hc => via_ifElse.2 (((after_condBr he).1 hc).mono ?_ ?_)
    · exact fun _ _ h => hback.1 (enter_of_within hbs hyes h)
    · exact fun _ _ h => via_block.2 (hback.2 (enter_of_within hbs hno h))
  fwd {σ o} h := by
    rw [via_close, via_append] at h
    rw [Region.entry_close, ends_entry hbs hcond, Enter, hbr]
    refine h.mono fun _ _ hc => (after_condBr he).2 ((via_ifElse.1 hc).mono ?_ ?_)
    · exact fun _ _ h => (ends_entry hbs hyes).2 (hfwd.1 h)
    · exact fun _ _ h => (ends_entry hbs hno).2 (hfwd.2 (via_block.1 h))

theorem faithful_ifElse {ms : Members} (hms : ∀ m ∈ ms, m.2 ∈ bs) {cond yes no : WorkBlock}
    {c : Value} {e : Expr} {thenStmts elseStmts : List Stmt} {join : String}
    (hcond : cond ∈ bs) (hyes : yes ∈ bs) (hno : no ∈ bs)
    (hbr : cond.terminator = some (.condBr c yes.entry no.entry)) (he : Gives (c.lower scope) D e)
    (hthen : Region.MemberStmts scope D yes thenStmts)
    (helse : Region.MemberStmts scope D no elseStmts)
    (hy : Goes H yes join) (hn : Goes H no join)
    (hexit : ∀ x, ms.lookup "exit" = some x → x.entry = join) :
    Faithful H scope D bs
      (Region.close (cond.sequence ++ [.ifElse e thenStmts (some (.block elseStmts))])
        (ms.lookup "exit") ((Region.branchTarget? yes).or (Region.branchTarget? no))
        cond.entry) := by
  have hexit : ∀ x, ms.lookup "exit" = some x → x ∈ bs ∧ x.entry = join :=
    fun x hx => ⟨hms _ (Region.mem_of_lookup hx), hexit x hx⟩
  have hgoes : (Region.branchTarget? yes).or (Region.branchTarget? no) = some join ∨
      Leaves H yes ∧ Leaves H no := by
    rcases branchTarget_of_goes hy with hy | ⟨hy, hleaves⟩
    · exact .inl (by rw [hy, Option.some_or])
    · rcases branchTarget_of_goes hn with hn | ⟨-, hleaves'⟩
      · exact .inl (by rw [hy, hn, Option.none_or])
      · exact .inr ⟨hleaves, hleaves'⟩
  rcases hgoes with hjoin | ⟨hy, hn⟩
  · rw [hjoin]
    refine faithful_arms hbs hcond hyes hno hbr he ⟨fun h => ?_, fun h => ?_⟩ ⟨fun h => ?_, fun h => ?_⟩
    · exact ((enter_goes hy hthen).1 h).mono fun _ _ => rest_of_within hbs hexit
    · exact ((enter_goes hn helse).1 h).mono fun _ _ => rest_of_within hbs hexit
    · exact (enter_goes hy hthen).2 (h.mono fun _ _ => ends_of_rest hbs hexit)
    · exact (enter_goes hn helse).2 (h.mono fun _ _ => ends_of_rest hbs hexit)
  · -- Nothing comes after the statement, so it does not matter what stands there.
    exact faithful_arms hbs hcond hyes hno hbr he
      ⟨(enter_leaves hy hthen).1, (enter_leaves hn helse).1⟩
      ⟨(enter_leaves hy hthen).2, (enter_leaves hn helse).2⟩

theorem faithful_preLoop {ms : Members} (hms : ∀ m ∈ ms, m.2 ∈ bs) {cond body : WorkBlock}
    {test : Expr} {join : String} {inner : List Stmt} (hcond : ms.lookup "cond" = some cond)
    (hbody : ms.lookup "body" = some body) (ht : Region.Tested scope D cond body test join)
    (hinner : Region.MemberStmts scope D body inner) (hgoes : Goes H body cond.entry)
    (hexit : ∀ x, ms.lookup "exit" = some x → x.entry = join)
    (hcontained : ∀ b ∈ bs, Stmt.allContained b.sequence = true) :
    Faithful H scope D bs
      (Region.close [Region.preLoopStmt cond.sequence inner test] (ms.lookup "exit") (some join)
        cond.entry) := by
  have hcond := hms _ (Region.mem_of_lookup hcond)
  have hbody := hms _ (Region.mem_of_lookup hbody)
  have hloops : Loops H (Region.preLoopStmt cond.sequence inner test) cond.sequence test inner := by
    have hc := hinner.contained (hcontained _ hbody)
    unfold Region.preLoopStmt
    split
    · next hempty =>
      rw [List.isEmpty_iff.1 hempty]
      exact loops_cond hc
    · exact loops_breakUnless (hcontained _ hcond) hc
  refine faithful_close hbs (fun x hx => ⟨hms _ (Region.mem_of_lookup hx), hexit x hx⟩) ?_ ?_
  · refine via_loop_of_within hloops fun h => ?_
    refine ((enter_tested ht).1 ((within_entry hbs hcond).1 h)).mono fun _ _ => ?_
    refine Branch.mono (fun _ _ hb => ?_) fun _ _ => id
    exact (enter_goes hgoes hinner).1 (enter_of_within hbs hbody hb)
  · refine hloops.least fun σ o h => ?_
    refine (ends_entry hbs hcond).2 ((enter_tested ht).2 (h.mono fun _ _ => ?_))
    refine Branch.mono (fun _ _ hb => ?_) fun _ _ => id
    exact (ends_entry hbs hbody).2 ((enter_goes hgoes hinner).2 hb)

omit hbs in
/-- A loop that tests at the end of what runs before its condition. -/
theorem loops_postLoop {head : List Stmt} {e : Expr} (hhead : Stmt.allContained head = true) :
    Loops H (.loop none (head ++ [Region.breakUnless e])) head e [] :=
  loops_breakUnless hhead rfl

theorem faithful_postLoop {ms : Members} (hms : ∀ m ∈ ms, m.2 ∈ bs) {cond body : WorkBlock}
    {test : Expr} {join : String} {inner : List Stmt} (hcond : ms.lookup "cond" = some cond)
    (hbody : ms.lookup "body" = some body) (ht : Region.Tested scope D cond body test join)
    (hinner : Region.MemberStmts scope D body inner) (hgoes : Goes H body cond.entry)
    (hexit : ∀ x, ms.lookup "exit" = some x → x.entry = join)
    (hcontained : ∀ b ∈ bs, Stmt.allContained b.sequence = true) :
    Faithful H scope D bs
      (Region.close [.loop none (inner ++ cond.sequence ++ [Region.breakUnless test])]
        (ms.lookup "exit") (some join) body.entry) := by
  have hcond := hms _ (Region.mem_of_lookup hcond)
  have hbody := hms _ (Region.mem_of_lookup hbody)
  have hhead : Stmt.allContained (inner ++ cond.sequence) = true := by
    simp only [Go.allContained_append, hinner.contained (hcontained _ hbody), hcontained _ hcond,
      Bool.and_self]
  have hloops := loops_postLoop (H := H) (e := test) hhead
  refine faithful_close hbs (fun x hx => ⟨hms _ (Region.mem_of_lookup hx), hexit x hx⟩) ?_ ?_
  · refine via_loop_of_within hloops fun h => ?_
    rw [via_append]
    refine ((enter_goes hgoes hinner).1 ((within_entry hbs hbody).1 h)).mono fun _ _ hc => ?_
    refine ((enter_tested ht).1 (enter_of_within hbs hcond hc)).mono fun _ _ => ?_
    exact Branch.mono (fun _ _ => via_nil.2) fun _ _ => id
  · refine hloops.least fun σ o h => ?_
    rw [via_append] at h
    refine (ends_entry hbs hbody).2 ((enter_goes hgoes hinner).2 (h.mono fun _ _ hc => ?_))
    refine (ends_entry hbs hcond).2 ((enter_tested ht).2 (hc.mono fun _ _ => ?_))
    exact Branch.mono (fun _ _ => via_nil.1) fun _ _ => id

theorem faithful_selfLoop {ms : Members} (hms : ∀ m ∈ ms, m.2 ∈ bs) {cond : WorkBlock}
    {test : Expr} {join : String} (hcond : ms.lookup "cond" = some cond)
    (ht : Region.Tested scope D cond cond test join)
    (hexit : ∀ x, ms.lookup "exit" = some x → x.entry = join)
    (hcontained : ∀ b ∈ bs, Stmt.allContained b.sequence = true) :
    Faithful H scope D bs
      (Region.close [.loop none (cond.sequence ++ [Region.breakUnless test])]
        (ms.lookup "exit") (some join) cond.entry) := by
  have hcond := hms _ (Region.mem_of_lookup hcond)
  have hloops := loops_postLoop (H := H) (e := test) (hcontained _ hcond)
  refine faithful_close hbs (fun x hx => ⟨hms _ (Region.mem_of_lookup hx), hexit x hx⟩) ?_ ?_
  · refine via_loop_of_within hloops fun h => ?_
    refine ((enter_tested ht).1 ((within_entry hbs hcond).1 h)).mono fun _ _ => ?_
    exact Branch.mono (fun _ _ => via_nil.2) fun _ _ => id
  · refine hloops.least fun σ o h => ?_
    refine (ends_entry hbs hcond).2 ((enter_tested ht).2 (h.mono fun _ _ => ?_))
    exact Branch.mono (fun _ _ => via_nil.1) fun _ _ => id

/-- **A region of its shape can take the place of its members.** -/
theorem Made.faithful {ms : Members} {region : Region} {first : WorkBlock}
    {links : WorkBlock → WorkBlock → Prop} (h : Made H scope D ms first links region)
    (hms : ∀ m ∈ ms, m.2 ∈ bs) (hcontained : ∀ b ∈ bs, Stmt.allContained b.sequence = true) :
    Faithful H scope D bs region := by
  cases h with
  | @seq _ _ rest _ _ hfirst hinit hchain hparts =>
    have hmem : ∀ b ∈ first :: rest, b ∈ bs := by
      rw [← hfirst]
      exact List.forall_mem_map.2 hms
    have hfirst := hmem _ List.mem_cons_self
    constructor
    · intro n σ o h
      exact via_seq_of_enter (fun b hb _ _ => enter_of_within hbs hb) hinit hparts hchain hmem
        ((within_entry hbs hfirst).1 h)
    · intro σ o h
      refine (ends_entry hbs hfirst).2 ?_
      exact enter_of_via_seq (fun b hb _ _ => (ends_entry hbs hb).2) hinit hparts hchain hmem h
  | ifThen hcond hbody _ ht hm hgoes hexit =>
    exact faithful_ifThen hbs hms hcond hbody ht hm hgoes hexit
  | ifElse hcond hfirst hsecond harms hbr he hthen helse hf hg hexit =>
    have hcond := hms _ (Region.mem_of_lookup hcond)
    have hfirst := hms _ (Region.mem_of_lookup hfirst)
    have hsecond := hms _ (Region.mem_of_lookup hsecond)
    rcases harms with ⟨rfl, rfl⟩ | ⟨rfl, rfl⟩
    · exact faithful_ifElse hbs hms hcond hfirst hsecond hbr he hthen helse hf hg hexit
    · exact faithful_ifElse hbs hms hcond hsecond hfirst hbr he hthen helse hg hf hexit
  | preLoop hcond hbody _ ht hm hgoes hexit =>
    exact faithful_preLoop hbs hms hcond hbody ht hm hgoes hexit hcontained
  | postLoop hcond hbody _ ht hm hgoes hexit =>
    exact faithful_postLoop hbs hms hcond hbody ht hm hgoes hexit hcontained
  | selfLoop hcond _ ht hexit =>
    exact faithful_selfLoop hbs hms hcond ht hexit hcontained
  | compound hbody =>
    have hbody := hms _ (Region.mem_of_lookup hbody)
    exact ⟨(within_entry hbs hbody).1, (ends_entry hbs hbody).2⟩

end

end GoLift
