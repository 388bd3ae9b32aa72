import GoLift.Proofs.Source.Lists

/-!
# Reading types

The rule of types is left recursive, and the parser is not: it reads a head and then what is built
around it. Every derivation of a type is a head with suffixes wrapped around it
(`Derivation.exists_wrapAll`), which is the form in which the parser finds it.
-/

set_option autoImplicit false

namespace GoLift.Source

open Parse Rhs

/-! ### Heads and suffixes -/

/-- What may stand behind a type. -/
abbrev typeSuffix : Rhs :=
  alt (word .star) (row (word .openParen) [opt (rule .typeList), word .closeParen])

/-- What a type goes on with. -/
def suffixFirst : List Terminal := [.word .star, .word .openParen]

namespace Derivation

/-- The derivation of a type with a suffix. -/
def wrap (d : Derivation (.rule .type)) : Derivation typeSuffix → Derivation (.rule .type)
  | .left s => .rule ⟨5, by decide⟩ (.seq d s)
  | .right s => .rule ⟨9, by decide⟩ (.seq d s)

/-- The derivation of a type with suffixes. -/
def wrapAll (d : Derivation (.rule .type)) (ss : List (Derivation typeSuffix)) :
    Derivation (.rule .type) :=
  ss.foldl wrap d

theorem yield_wrap (d : Derivation (.rule .type)) (s : Derivation typeSuffix) :
    (d.wrap s).yield = d.yield ++ s.yield := by
  match s with
  | .left s => rfl
  | .right s => rfl

theorem yield_wrapAll (d : Derivation (.rule .type)) (ss : List (Derivation typeSuffix)) :
    (d.wrapAll ss).yield = d.yield ++ ss.flatMap yield := by
  induction ss generalizing d with
  | nil => simp [wrapAll]
  | cons s ss ih => simpa [wrapAll, yield_wrap] using ih (d.wrap s)

theorem wrapAll_concat (d : Derivation (.rule .type)) (ss : List (Derivation typeSuffix))
    (s : Derivation typeSuffix) : d.wrapAll (ss ++ [s]) = (d.wrapAll ss).wrap s := by
  simp [wrapAll]

/-- Is an alternative of types not built around another type? -/
def isHead (i : Fin Rule.type.alternatives.length) : Bool := i.val != 5 && i.val != 9

/-- A type that is not built around another one. -/
abbrev Head : Type :=
  Σ i : { i : Fin Rule.type.alternatives.length // isHead i },
    Derivation (Rule.type.alternatives.get i.1).rhs

/-- The derivation of a head. -/
def Head.derivation (h : Head) : Derivation (.rule .type) := .rule h.1.1 h.2

/-- Every type is a head with suffixes around it. -/
theorem exists_wrapAll (d : Derivation (.rule .type)) :
    ∃ (h : Head) (ss : List (Derivation typeSuffix)), h.derivation.wrapAll ss = d := by
  match d with
  | .rule ⟨5, _⟩ (.seq d s) =>
    obtain ⟨h, ss, hd⟩ := exists_wrapAll d
    exact ⟨h, ss ++ [.left s], by rw [wrapAll_concat, hd]; rfl⟩
  | .rule ⟨9, _⟩ (.seq d s) =>
    obtain ⟨h, ss, hd⟩ := exists_wrapAll d
    exact ⟨h, ss ++ [.right s], by rw [wrapAll_concat, hd]; rfl⟩
  | .rule ⟨0, h⟩ d | .rule ⟨1, h⟩ d | .rule ⟨2, h⟩ d | .rule ⟨3, h⟩ d | .rule ⟨4, h⟩ d
  | .rule ⟨6, h⟩ d | .rule ⟨7, h⟩ d | .rule ⟨8, h⟩ d =>
    exact ⟨⟨⟨⟨_, h⟩, rfl⟩, d⟩, [], rfl⟩
termination_by d.yield.length
decreasing_by
  all_goals
    show d.yield.length < (d.yield ++ s.yield).length
    have hs : ([] : List Token).length < s.yield.length := s.length_lt rfl (by simp)
    simpa using hs

end Derivation

open Source.Derivation

variable {ts : List Token} {k : Terminal} {stops : List Token → Prop} [Ends stops]

instance : Sampled fun h : Head => h.derivation.yield := by
  -- The word for no type is a head.
  let i : Fin Rule.type.alternatives.length := ⟨1, by decide⟩
  obtain ⟨d, hd⟩ := (Rhs.derivable (Rule.type.alternatives.get i).rhs).exists_spelled
  exact ⟨⟨⟨i, rfl⟩, d⟩, hd⟩

theorem Reads.head {p : Parse TypeTree} (hk : next ts = some k)
    (i : Fin Rule.type.alternatives.length) (hi : isHead i)
    (only : ∀ j, isHead j → k ∈ (Rule.type.alternatives.get j).rhs.first → j = i)
    (hp : Reads yield (fun d => (Derivation.rule i d).tree) stops p ts) :
    Reads (fun h : Head => h.derivation.yield) (fun h => h.derivation.tree) stops p ts := by
  refine .of_form (fun d => ⟨⟨i, hi⟩, d⟩) (fun _ => rfl) ?_ hp
  intro us hus h rest hd _
  obtain ⟨⟨j, hj⟩, d⟩ := h
  have hn : (Rule.type.alternatives.get j).rhs.nullable = false := by
    have := (Rule.type.first_closed j).2
    simp_all [Rule.nullable]
  obtain ⟨l, hl, hnext⟩ := d.next_mem_first hn hd
  obtain rfl : l = k := Option.some.inj (hnext.symm.trans (hus.trans hk))
  obtain rfl := only j hj hl
  exact ⟨d, rfl⟩

/-- Shorter tokens are read as types. -/
def TypesBelow (n : Nat) : Prop :=
  ∀ mid, mid.length < n →
    Fueled 2 yield (Derivation.tree (e := .rule .type)) (Avoids suffixFirst) typeTree mid

theorem moreTypes_eq (fuel : Nat) : moreTypes fuel = listOf typeTree fuel := by
  induction fuel with
  | zero => rfl
  | succ fuel ih => simp only [moreTypes, listOf, ih]

theorem moreTypeParams_eq (fuel : Nat) : moreTypeParams fuel = dottedListOf typeTree fuel := by
  induction fuel with
  | zero => rfl
  | succ fuel ih => simp only [moreTypeParams, dottedListOf, ih]

theorem typeHead_reads (ih : TypesBelow ts.length) :
    Fueled 1 (fun h : Head => h.derivation.yield) (fun h => h.derivation.tree) (Avoids []) typeHead
      ts := by
  intro fuel hfuel
  obtain _ | fuel := fuel
  · omega
  simp only [typeHead, word_bind, name_bind]
  refine .peek_seq ?_
  -- A head is told by its first token, since the left recursive alternatives are no heads.
  split
  · next h =>
    exact .head h ⟨0, by decide⟩ rfl (by decide) (.token_last fun _ _ _ => rfl)
  · next h =>
    exact .head h ⟨8, by decide⟩ rfl (by decide) (.token_last fun _ _ _ => rfl)
  · next h =>
    exact .head h ⟨1, by decide⟩ rfl (by decide) (.token_last fun _ _ _ => rfl)
  · next h =>
    exact .head h ⟨2, by decide⟩ rfl (by decide) (.token_last fun _ _ _ => rfl)
  · next h =>
    exact .head h ⟨3, by decide⟩ rfl (by decide) (.token_last fun _ _ _ => rfl)
  · next h =>
    exact .head h ⟨4, by decide⟩ rfl (by decide) (.token_last fun _ _ _ => rfl)
  · next h =>
    refine .head h ⟨6, by decide⟩ rfl (by decide) ?_
    refine .token_seq fun _ mid₁ _ h₁ => .token_seq fun n mid₂ _ h₂ =>
      .token_seq fun _ mid₃ _ h₃ => ?_
    refine .seq (ih mid₃ (by omega) fuel (by omega)) (fun t mid₄ _ => ?_) fun d _ _ => ?_
    · exact .token_last fun _ _ _ => rfl
    · exact d.avoids (by decide) rfl
  · next h =>
    refine .head h ⟨7, by decide⟩ rfl (by decide) (.token_seq fun _ mid₁ _ h₁ => ?_)
    refine .closedList (rule .type) TypeTree.struct rfl (by decide) (by decide)
      (ih mid₁ (by omega) fuel (by omega)) (fun mid₂ h₂ => ?_) (fun _ => rfl) fun _ _ => rfl
    rw [moreTypes_eq]
    exact listOf_reads (by omega) rfl (by decide) ih mid₂ (by omega) fuel (by omega)
  · next h₁ h₂ h₃ h₄ h₅ h₆ h₇ h₈ =>
    have hfirst : Avoids (rule .type).first ts := avoids_of_ne (by
      simpa [Rhs.first, Rule.first, typeFirst] using ⟨h₁, h₂, h₃, h₄, h₅, h₆, h₇, h₈⟩)
    exact .of_none (fun _ hus h _ hd _ =>
      h.derivation.not_avoids rfl hd (hfirst.of_next_eq hus)) rfl

theorem typeParams_reads (ih : TypesBelow (ts.length + 1)) :
    Fueled 3 yield (fun d : Derivation (opt (rule .typeList)) => d.tree.getD ([], false))
      (fun rest => next rest = some (.word .closeParen)) typeParams ts := by
  intro fuel hfuel
  obtain _ | fuel := fuel
  · omega
  simp only [typeParams, word_bind]
  refine .peek_seq ?_
  split
  · next h => exact .opt_none (avoids_of_next h (by decide)) rfl rfl
  · next h =>
    refine .opt_some (by simp [h]) (.rule h ⟨1, by decide⟩ (by decide) rfl ?_)
    exact .token_last fun _ _ _ => rfl
  · next h₁ h₂ =>
    have hdots : Avoids [.word .dots] ts := avoids_of_ne (by simpa using h₂)
    refine .opt_some h₁ (.rule_of_avoids hdots ⟨0, by decide⟩ (by decide) rfl ?_)
    refine .seq (ih ts (by omega) fuel (by omega)) (fun t mid hmid => ?_) fun d rest hrest => ?_
    · have := t.length_lt rfl hmid
      simp only [moreTypeParams_eq]
      refine .map ((dottedListOf_reads (by omega) rfl (by decide) (by decide)
        (fun mid h => ih mid (by omega)) mid (Nat.le_refl _) fuel (by omega)).mono
          fun rest hrest => avoids_of_next hrest (by decide)) fun d => ?_
      cases d with
      | seq xs d => rfl
    · exact d.avoids_append (by decide) fun _ => avoids_of_next hrest (by decide)

/-- The next suffix can only be of one form. -/
theorem Reads.suffix {A : Type} {yieldA : A → List Token} {p : Parse TypeTree}
    {g : List (Derivation typeSuffix) → TypeTree} (f : A → Derivation typeSuffix)
    (hf : ∀ x, (f x).yield = yieldA x) (hs : ¬ stops ts)
    (hall : ∀ us, next us = next ts → ∀ s rest, us = s.yield ++ rest → ∃ x, f x = s)
    (hp : Reads (paired yieldA (List.flatMap yield)) (fun d => g (f d.1 :: d.2)) stops p ts) :
    Reads (List.flatMap yield) g stops p ts := by
  refine .of_form (fun d : A × List (Derivation typeSuffix) => f d.1 :: d.2)
    (fun d => by simp [hf, paired]) ?_ hp
  intro us hus ss rest hd hrest
  cases ss with
  | nil =>
    obtain rfl : us = rest := hd
    exact absurd (Ends.of_next_eq hus.symm hrest) hs
  | cons s ss =>
    rw [List.flatMap_cons, List.append_assoc] at hd
    obtain ⟨x, rfl⟩ := hall us hus s _ hd
    exact ⟨(x, ss), rfl⟩

theorem Reads.seq_pair {a b : Rhs} {B β : Type} {yieldB : B → List Token}
    {g : Derivation (.seq a b) × B → β} {p : Parse β}
    (hp : Reads (paired yield (paired yield yieldB)) (fun d => g (.seq d.1 d.2.1, d.2.2)) stops
      p ts) : Reads (paired yield yieldB) g stops p ts := by
  refine .of_form (fun d : Derivation a × Derivation b × B => (.seq d.1 d.2.1, d.2.2)) ?_ ?_ hp
  · intro d
    simp [yield, paired]
  · intro _ _ d _ _ _
    obtain ⟨d, y⟩ := d
    cases d with
    | seq d e => exact ⟨(d, e, y), rfl⟩

theorem typeSuffixes_reads (ih : TypesBelow ts.length) (d : Derivation (.rule .type)) :
    Fueled 1 (List.flatMap yield) (fun ss => (d.wrapAll ss).tree) (Avoids suffixFirst)
      (typeSuffixes · d.tree) ts := by
  intro fuel
  -- What is read so far is wrapped in one suffix after the other, so the induction is for all
  -- heads.
  induction fuel generalizing ts d with
  | zero => omega
  | succ fuel ih' =>
    intro hfuel
    simp only [typeSuffixes, word_bind]
    refine .peek_seq ?_
    split
    · next h =>
      refine .suffix .left (fun _ => rfl) (not_avoids_of_next h (by decide)) ?_ ?_
      · intro us hus s rest hd
        match s with
        | .left s => exact ⟨s, rfl⟩
        | .right s => exact absurd (avoids_of_next (hus.trans h) (by decide)) (s.not_avoids rfl hd)
      · refine .token_pair fun t mid ht hmid => ?_
        exact ih' (fun _ h => ih _ (by omega)) (d.wrap (.left (.token t ht))) (by omega)
    · next h =>
      refine .suffix .right (fun _ => rfl) (not_avoids_of_next h (by decide)) ?_ ?_
      · intro us hus s rest hd
        match s with
        | .left s => exact absurd (avoids_of_next (hus.trans h) (by decide)) (s.not_avoids rfl hd)
        | .right s => exact ⟨s, rfl⟩
      · refine .seq_pair (.token_pair fun t mid ht hmid => .seq_pair ?_)
        refine .pair (typeParams_reads (fun _ h => ih _ (by omega)) fuel (by omega))
          (fun ps mid' hmid' => .token_pair fun t' mid'' ht' hmid'' => ?_) ?_
        · have : mid'.length ≤ mid.length := by simp [hmid']
          exact ih' (fun _ h => ih _ (by omega))
            (d.wrap (.right (.seq (.token t ht) (.seq ps (.token t' ht'))))) (by omega)
        · intro y rest _
          obtain ⟨d, ss⟩ := y
          cases d with
          | token t ht => simp [Reads.paired, yield, next, ht]
    · next h₁ h₂ =>
      refine .of_empty [] rfl ?_ rfl
      have hfirst : Avoids typeSuffix.first ts :=
        avoids_of_ne (by simpa [Rhs.first, row, Rhs.nullable] using ⟨h₁, h₂⟩)
      intro us hus ss rest hd _
      cases ss with
      | nil => rfl
      | cons s ss =>
        rw [List.flatMap_cons, List.append_assoc] at hd
        exact absurd (hfirst.of_next_eq hus) (s.not_avoids rfl hd)

theorem typesBelow (n : Nat) : TypesBelow n := by
  induction n with
  | zero =>
    intro ts hts
    omega
  | succ n ih =>
    intro ts hts fuel hfuel
    have ih : TypesBelow ts.length := fun mid hmid => ih mid (by omega)
    obtain _ | fuel := fuel
    · omega
    simp only [typeTree]
    refine .of_form (fun d : Head × List (Derivation typeSuffix) => d.1.derivation.wrapAll d.2)
      (fun d => yield_wrapAll _ _) ?_ (.pair (typeHead_reads ih fuel (by omega))
        (fun h mid hmid => ?_) fun _ _ _ => avoids_nil)
    · intro _ _ d _ _ _
      obtain ⟨h, ss, hd⟩ := d.exists_wrapAll
      exact ⟨(h, ss), hd⟩
    · have := h.derivation.length_lt rfl hmid
      exact typeSuffixes_reads (fun _ h => ih _ (by omega)) h.derivation fuel (by omega)

/-- The parser of types finds the types of the grammar. -/
theorem type_reads (ts : List Token) :
    Reads yield (Derivation.tree (e := .rule .type)) (Avoids suffixFirst) type ts :=
  Fueled.reads (typesBelow (ts.length + 1) ts (by omega)) (by omega)

end GoLift.Source
