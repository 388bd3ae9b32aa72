import GoLift.Proofs.Region.Accounting

/-!
# What is checked of the members

A primitive is trusted to name blocks that belong together. What is looked at before it is
applied (`Region.Vetted`) is **the condition, and that a body that has to leave the function
does**: a condition goes to the body or the arms of its region, and where else it goes is the
join. How the other members end is not looked at. The carrier lends the region its end, a
member that leaves the function does so in place, and the branch of any other member is
dropped in the belief that the statement makes it.

`Region.Realised` is that belief: the statement of a region makes every transfer of control
between its members.
-/

set_option autoImplicit false

namespace GoLift

open DraftM

namespace Region

variable {scope : Scope} {D : Draft} {kind : Kind} {ms : Members} {region : Region}
  {cond target : WorkBlock} {join : String}

/-! ### What is checked -/

/-- A condition goes to a block or else to the join. -/
inductive Branches (cond target : WorkBlock) : String → Prop
  | towards {c : Value} {join : String} :
      cond.terminator = some (.condBr c target.entry join) → Branches cond target join
  | away {c : Value} {join : String} :
      cond.terminator = some (.condBr c join target.entry) → join ≠ target.entry →
      Branches cond target join

/-- How a region with an optional exit member ends. -/
def closing (ms : Members) (join : Option String) : Option Terminator :=
  match ms.lookup "exit" with
  | some b => b.terminator
  | none => join.map Terminator.br

/-- What is known of the members of a region, and how the region ends. -/
inductive Vetted : Kind → Members → Option Terminator → Prop
  | seq {ms : Members} {last : WorkBlock} {init : List WorkBlock} :
      ms.map Prod.snd = init ++ [last] → Vetted .seq ms last.terminator
  | conditional {kind : Kind} {ms : Members} {cond body : WorkBlock} {join : String} :
      kind = .ifThen ∨ kind = .ifReturn ∨ kind = .preLoop →
      ms.lookup "cond" = some cond → ms.lookup "body" = some body → Branches cond body join →
      (kind = .ifReturn → leaves body = true) → Vetted kind ms (closing ms (some join))
  | ifElse {ms : Members} {cond first second yes no : WorkBlock} {c : Value} :
      ms.lookup "cond" = some cond → ms.lookup "body_true" = some first →
      ms.lookup "body_false" = some second →
      (yes = first ∧ no = second ∨ yes = second ∧ no = first) →
      cond.terminator = some (.condBr c yes.entry no.entry) → yes.entry ≠ no.entry →
      Vetted .ifElse ms (closing ms ((branchTarget? yes).or (branchTarget? no)))
  | postLoop {ms : Members} {cond : WorkBlock} {join : String} :
      ms.lookup "cond" = some cond → Branches cond ((ms.lookup "body").getD cond) join →
      Vetted .postLoop ms (closing ms (some join))
  | compound {ms : Members} {body : WorkBlock} :
      ms.lookup "body" = some body → Vetted .compound ms body.terminator

theorem terminator_close (ss : List Go.Stmt) (ms : Members) (join : Option String)
    (entry : String) : (close ss (ms.lookup "exit") join entry).terminator = closing ms join := by
  unfold close closing
  cases ms.lookup "exit" <;> rfl

theorem Tested.branches {test : Go.Expr} (h : Tested scope D cond target test join) :
    Branches cond target join := by
  cases h with
  | towards hcond _ => exact .towards hcond
  | away hcond hne _ => exact .away hcond hne

/-- **Every region that is built was vetted.** -/
theorem Built.vetted (h : Built scope D kind ms region) : Vetted kind ms region.terminator := by
  induction h with
  | seq hms hlast _ => exact .seq (hms.trans hlast)
  | ifThen hcond hbody ht _ =>
    rw [terminator_close]
    exact .conditional (.inl rfl) hcond hbody ht.branches nofun
  | ifReturn hbody hleaves h _ =>
    -- It was built as a condition with the same body.
    cases h with
    | ifThen hcond hbody' ht _ =>
      rw [terminator_close]
      cases hbody.symm.trans hbody'
      exact .conditional (.inr (.inl rfl)) hcond hbody ht.branches fun _ => hleaves
  | ifElse hcond hfirst hsecond harms hbr hne _ _ _ =>
    rw [terminator_close]
    exact .ifElse hcond hfirst hsecond harms hbr hne
  | preLoop hcond hbody ht _ =>
    rw [terminator_close]
    exact .conditional (.inr (.inr rfl)) hcond hbody ht.branches nofun
  | postLoop hcond hbody ht _ =>
    rw [terminator_close]
    refine .postLoop hcond ?_
    rw [hbody]
    exact ht.branches
  | selfLoop hcond hbody ht =>
    rw [terminator_close]
    refine .postLoop hcond ?_
    rw [hbody]
    exact ht.branches
  | compound hbody => exact .compound hbody

/-! ### What is believed -/

/-- Control goes on from a block to a label, or leaves the function. -/
def GoesOn (b : WorkBlock) (l : String) : Prop :=
  b.terminator = some (.br l) ∨ leaves b = true

theorem GoesOn.eq {b : WorkBlock} {l t : String} (h : GoesOn b l)
    (hb : b.terminator = some (.br t)) : t = l := by
  rcases h with h | h
  · rw [hb] at h
    cases h
    rfl
  · rw [leaves, hb] at h
    cases h

/-- Control forks at the end of a block. -/
def forks (b : WorkBlock) : Bool :=
  match b.terminator with
  | some (.condBr ..) | some (.switch ..) => true
  | _ => false

/-- The join of a region. -/
inductive Joins : Kind → Members → String → Prop
  | conditional {kind : Kind} {ms : Members} {cond body : WorkBlock} {join : String} :
      kind = .ifThen ∨ kind = .ifReturn ∨ kind = .preLoop →
      ms.lookup "cond" = some cond → ms.lookup "body" = some body → Branches cond body join →
      Joins kind ms join
  | ifElse {ms : Members} {role : String} {arm : WorkBlock} {join : String} :
      role = "body_true" ∨ role = "body_false" → ms.lookup role = some arm →
      arm.terminator = some (.br join) → Joins .ifElse ms join
  | postLoop {ms : Members} {cond : WorkBlock} {join : String} :
      ms.lookup "cond" = some cond → Branches cond ((ms.lookup "body").getD cond) join →
      Joins .postLoop ms join

/-- The statement of a region looks at how a member ends. -/
def Heeds (kind : Kind) (ms : Members) (m : String × WorkBlock) : Prop :=
  match kind with
  | .seq => ms.getLast? = some m
  | .compound => m.1 = "body"
  | _ => m.1 = "cond" ∨ m.1 = "exit"

/-- The statement of a region makes all transfers of control of its members. -/
structure Realised (kind : Kind) (ms : Members) : Prop where
  seq : kind = .seq → ∀ before b next after,
    ms.map Prod.snd = before ++ b :: next :: after → GoesOn b next.entry
  ifThen : kind = .ifThen ∨ kind = .ifReturn → ∀ body join,
    ms.lookup "body" = some body → Joins kind ms join → GoesOn body join
  ifElse : kind = .ifElse → ∀ first second, ms.lookup "body_true" = some first →
    ms.lookup "body_false" = some second → ∃ join, GoesOn first join ∧ GoesOn second join
  preLoop : kind = .preLoop → ∀ cond body, ms.lookup "cond" = some cond →
    ms.lookup "body" = some body → GoesOn body cond.entry
  postLoop : kind = .postLoop → ∀ cond body, ms.lookup "cond" = some cond →
    ms.lookup "body" = some body → body.terminator = some (.br cond.entry)
  exit : ∀ b join, ms.lookup "exit" = some b → Joins kind ms join → b.entry = join
  forks : ∀ m ∈ ms, forks m.2 = true → Heeds kind ms m

end Region

end GoLift
