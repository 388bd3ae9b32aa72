import GoLift.Proofs.Source.Types

/-!
# The parser finds what the grammar derives

Values, instructions, functions and modules, rule by rule.
-/

set_option autoImplicit false

namespace GoLift.Source

open Parse Rhs Source.Derivation

variable {ts : List Token}

/-! ### Values -/

/-- Shorter tokens are read as values. -/
def ValuesBelow (n : Nat) : Prop :=
  ∀ mid, mid.length < n →
    Fueled 1 yield (Derivation.tree (e := .rule .value)) (Avoids []) valueTree mid

theorem moreTyped_eq (fuel : Nat) : moreTyped fuel = listOf typedTree fuel := by
  induction fuel with
  | zero => rfl
  | succ fuel ih => simp only [moreTyped, listOf, ih]

theorem typedTree_reads (ih : ValuesBelow ts.length) :
    Fueled 1 yield (fun d : Derivation Rhs.typed => typedPair d.tree) (Avoids []) typedTree ts := by
  intro fuel hfuel
  obtain _ | fuel := fuel
  · omega
  simp only [typedTree]
  refine .seq (type_reads ts) (fun t mid hmid => ?_) fun v _ _ => v.avoids (by decide) rfl
  have := t.length_lt rfl hmid
  exact .map (ih mid this fuel (by omega)) fun _ => rfl

theorem typedValue_reads (ih : ValuesBelow ts.length) :
    Fueled 1 yield (Derivation.tree (e := .rule .typedValue)) (Avoids []) typedTree ts := by
  intro fuel hfuel
  refine .sole ⟨0, by decide⟩ (by decide) ?_
  exact typedTree_reads ih fuel hfuel

theorem moreTyped_reads (ih : ValuesBelow ts.length) :
    Fueled 1 yield (fun d : Derivation (more (rule .typedValue)) => List.map Prod.snd d.tree)
      (Avoids [.word .comma]) moreTyped ts := by
  intro fuel hfuel
  rw [moreTyped_eq]
  refine listOf_reads (by omega) rfl (by decide) (fun mid h => typedValue_reads fun mid' h' => ?_)
    ts (Nat.le_refl _) fuel hfuel
  exact ih mid' (by omega)

theorem typedList_reads {close : Word} (hclose : .word close ∉ .word .comma :: typeFirst ++ [])
    (ih : ValuesBelow ts.length) :
    Fueled 2 yield
      (fun d : Derivation (seq (opt (commas (rule .typedValue))) (word close)) => listed? d.tree.1)
      (Avoids []) (typedList · close) ts := by
  intro fuel hfuel
  obtain _ | fuel := fuel
  · omega
  simp only [typedList, word_bind]
  refine .closedList (rule .typedValue) id rfl hclose (by decide)
    (typedValue_reads ih fuel (by omega)) (fun mid h => ?_) (fun _ => rfl) fun _ _ => rfl
  exact moreTyped_reads (fun _ h => ih _ (by omega)) fuel (by omega)

theorem valueTree_reads (ih : ValuesBelow ts.length) :
    Fueled 1 yield (Derivation.tree (e := .rule .value)) (Avoids []) valueTree ts := by
  intro fuel hfuel
  obtain _ | fuel := fuel
  · omega
  simp only [valueTree, word_bind, name_bind]
  refine .line_seq (.peek_seq ?_)
  -- The next token tells the alternative: that no other starts with it is decided on the grammar.
  split
  · next h => exact .rule h ⟨0, by decide⟩ (by decide) rfl (.token_last fun _ _ _ => rfl)
  · next h => exact .rule h ⟨1, by decide⟩ (by decide) rfl (.token_last fun _ _ _ => rfl)
  · next h =>
    exact .rule h ⟨2, by decide⟩ (by decide) rfl (.token_last fun _ _ hl => by rw [hl]; rfl)
  · next h =>
    exact .rule h ⟨3, by decide⟩ (by decide) rfl (.token_last fun _ _ hl => by rw [hl]; rfl)
  · next h =>
    exact .rule h ⟨4, by decide⟩ (by decide) rfl (.token_last fun _ _ hl => by rw [hl]; rfl)
  · next h =>
    exact .rule h ⟨11, by decide⟩ (by decide) rfl (.token_last fun _ _ hl => by rw [hl]; rfl)
  · next h =>
    exact .rule h ⟨5, by decide⟩ (by decide) rfl (.token_last fun _ _ hl => by rw [hl]; rfl)
  · next h =>
    exact .rule h ⟨6, by decide⟩ (by decide) rfl (.token_last fun _ _ hl => by rw [hl]; rfl)
  · next h =>
    exact .rule h ⟨7, by decide⟩ (by decide) rfl (.token_last fun _ _ hl => by rw [hl]; rfl)
  · next h =>
    exact .rule h ⟨8, by decide⟩ (by decide) rfl (.token_last fun _ _ hl => by rw [hl]; rfl)
  · next h =>
    exact .rule h ⟨9, by decide⟩ (by decide) rfl (.token_last fun _ _ hl => by rw [hl]; rfl)
  · next h =>
    exact .rule h ⟨10, by decide⟩ (by decide) rfl (.token_last fun _ _ hl => by rw [hl]; rfl)
  · next h =>
    refine .rule h ⟨12, by decide⟩ (by decide) rfl (.token_seq fun t mid _ hmid => ?_)
    refine .map (typedList_reads (by decide) (fun _ h => ih _ (by omega)) fuel (by omega)) ?_
    exact fun d => by rw [hmid.2]; rfl
  · next h =>
    refine .rule h ⟨13, by decide⟩ (by decide) rfl (.token_seq fun t mid _ hmid => ?_)
    refine .map (typedList_reads (by decide) (fun _ h => ih _ (by omega)) fuel (by omega)) ?_
    exact fun d => by rw [hmid.2]; rfl
  · next h₁ h₂ h₃ h₄ h₅ h₆ h₇ h₈ h₉ h₁₀ h₁₁ h₁₂ h₁₃ h₁₄ =>
    refine .fail (avoids_of_ne ?_) rfl rfl
    simpa [Rhs.first, Rule.first, valueFirst] using
      ⟨h₁, h₂, h₃, h₄, h₅, h₆, h₇, h₈, h₉, h₁₀, h₁₁, h₁₂, h₁₃, h₁₄⟩

theorem valuesBelow (n : Nat) : ValuesBelow n := by
  induction n with
  | zero =>
    intro ts hts
    omega
  | succ n ih => exact fun ts hts => valueTree_reads fun mid hmid => ih mid (by omega)

theorem value_reads (ts : List Token) :
    Reads yield (Derivation.tree (e := .rule .value)) (Avoids []) value ts :=
  Fueled.reads (valueTree_reads (valuesBelow _)) (by omega)

theorem typed_reads (ts : List Token) :
    Reads yield (fun d : Derivation Rhs.typed => typedPair d.tree) (Avoids []) typed ts :=
  Fueled.reads (typedTree_reads (valuesBelow _)) (by omega)

/-! ### Instructions -/

/-- What an instruction goes on with. -/
def instructionFollow : List Terminal := .word .comma :: suffixFirst

theorem args_reads (ts : List Token) :
    Reads yield
      (fun d : Derivation (seq (opt (commas (rule .typedValue))) (word .closeParen)) =>
        listed? d.tree.1)
      (Avoids []) (fueled (typedList · .closeParen)) ts :=
  Fueled.reads (typedList_reads (by decide) (valuesBelow _)) (by omega)

theorem call_reads (ts : List Token) :
    Reads yield (Derivation.tree (e := .rule .call)) (Avoids []) call ts := by
  simp only [call, word_bind]
  refine .sole ⟨0, by decide⟩ (by decide) (.token_seq fun _ ts _ _ => ?_)
  refine .seq (type_reads ts) (fun t ts _ => ?_) fun d _ _ => d.avoids (by decide) rfl
  refine .seq (value_reads ts) (fun v ts _ => ?_) fun _ _ _ => avoids_nil
  exact .token_seq fun _ ts _ _ => .map (args_reads ts) fun _ => rfl

theorem incoming_reads (ts : List Token) :
    Reads yield (Derivation.tree (e := .rule .incoming)) (Avoids []) incoming ts := by
  simp only [incoming, word_bind, name_bind]
  refine .sole ⟨0, by decide⟩ (by decide) (.token_seq fun _ ts _ _ => ?_)
  refine .seq (value_reads ts) (fun v ts _ => ?_) fun _ _ _ => avoids_nil
  exact .token_seq fun _ ts _ _ => .token_seq fun _ ts _ _ => .token_last fun _ _ _ => rfl

theorem moreIncoming_eq (fuel : Nat) : moreIncoming fuel = listOf (fun _ => incoming) fuel := by
  induction fuel with
  | zero => rfl
  | succ fuel ih => simp only [moreIncoming, listOf, ih]

theorem moreIncoming_reads (ts : List Token) :
    Reads yield (fun d : Derivation (more (rule .incoming)) => List.map Prod.snd d.tree)
      (Avoids [.word .comma]) (fueled moreIncoming) ts := by
  have hlist := listOf_reads (Nat.zero_le 4) rfl (by decide)
    (fun mid _ _ _ => incoming_reads mid) ts (Nat.le_refl ts.length)
  refine Fueled.reads (fun fuel hfuel => ?_) (Nat.le_add_left 1 7)
  rw [moreIncoming_eq]
  exact hlist fuel hfuel

theorem twoOperands_reads (ts : List Token) (make : TypeTree → ValueTree → ValueTree → OpTree)
    {g : Derivation (row (rule .type) [rule .value, word .comma, rule .value]) → OpTree}
    (hg : ∀ t l c r, g (.seq t (.seq l (.seq c r))) = make t.tree l.tree r.tree) :
    Reads yield g (Avoids instructionFollow) (twoOperands make) ts := by
  simp only [twoOperands, word_bind]
  refine .seq (type_reads ts) (fun t ts _ => ?_) fun d _ _ => d.avoids (by decide) rfl
  refine .seq (value_reads ts) (fun l ts _ => .token_seq fun _ ts _ _ => ?_)
    fun _ _ _ => avoids_nil
  exact .map ((value_reads ts).mono fun _ _ => avoids_nil) fun r => hg t l _ r

theorem op_reads (ts : List Token) :
    Reads yield (Derivation.tree (e := .rule .op)) (Avoids instructionFollow) op ts := by
  simp only [op, word_bind, text_bind]
  refine .peek_seq ?_
  split
  · next h =>
    refine .rule h ⟨0, by decide⟩ (by decide) rfl (.token_seq fun _ ts _ _ => ?_)
    exact twoOperands_reads ts _ fun _ _ _ _ => rfl
  · next h =>
    refine .rule h ⟨1, by decide⟩ (by decide) rfl (.token_seq fun _ ts _ _ => ?_)
    exact .token_seq fun _ ts _ _ => twoOperands_reads ts _ fun _ _ _ _ => rfl
  · next h =>
    refine .rule h ⟨2, by decide⟩ (by decide) rfl (.token_seq fun _ ts _ _ => ?_)
    exact .token_seq fun _ ts _ _ => twoOperands_reads ts _ fun _ _ _ _ => rfl
  · next h =>
    refine .rule h ⟨3, by decide⟩ (by decide) rfl (.token_seq fun _ ts _ _ => ?_)
    refine .seq (type_reads ts) (fun t ts _ => .if_sees (fun h => ?_) fun h => ?_)
      fun d _ hrest => d.avoids_append (by decide) fun _ => hrest.mono (by decide)
    · refine .opt_some (not_avoids_of_next h (by decide)) (.token_seq fun _ ts _ _ => ?_)
      exact .map ((typed_reads ts).mono fun _ _ => avoids_nil) fun _ => rfl
    · exact .opt_none (avoids_of_ne (by simpa [Rhs.first, Rhs.nullable] using h)) rfl rfl
  · next h =>
    refine .rule h ⟨4, by decide⟩ (by decide) rfl (.token_seq fun _ ts _ _ => ?_)
    refine .seq (type_reads ts) (fun t ts _ => .token_seq fun _ ts _ _ => ?_)
      fun d _ _ => d.avoids (by decide) rfl
    exact .map ((typed_reads ts).mono fun _ _ => avoids_nil) fun _ => rfl
  · next h =>
    refine .rule h ⟨5, by decide⟩ (by decide) rfl (.token_seq fun _ ts _ _ => ?_)
    refine .seq (typed_reads ts) (fun v ts _ => .token_seq fun _ ts _ _ => ?_)
      fun _ _ _ => avoids_nil
    exact .map ((type_reads ts).mono fun _ h => h.mono (by decide)) fun _ => rfl
  · next h =>
    refine .rule h ⟨6, by decide⟩ (by decide) rfl (.token_seq fun _ ts _ _ => ?_)
    refine .seq (typed_reads ts) (fun c ts _ => .token_seq fun _ ts _ _ => ?_)
      fun _ _ _ => avoids_nil
    refine .seq (typed_reads ts) (fun t ts _ => .token_seq fun _ ts _ _ => ?_)
      fun _ _ _ => avoids_nil
    exact .map ((typed_reads ts).mono fun _ _ => avoids_nil) fun _ => rfl
  · next h =>
    refine .rule h ⟨7, by decide⟩ (by decide) rfl (.token_seq fun _ ts _ _ => ?_)
    refine .seq (type_reads ts) (fun t ts _ => .token_seq fun _ ts _ _ => ?_)
      fun d _ _ => d.avoids (by decide) rfl
    refine .seq (typed_reads ts) (fun p ts _ => ?_) fun _ _ _ => avoids_nil
    have hmore := Fueled.reads (moreTyped_reads (valuesBelow ts.length)) (by omega)
    exact .map (hmore.mono fun _ h => h.mono (by decide)) fun _ => rfl
  · next h =>
    refine .rule h ⟨8, by decide⟩ (by decide) rfl (.token_seq fun _ ts _ _ => ?_)
    refine .seq (type_reads ts) (fun t ts _ => ?_) fun d _ _ => d.avoids (by decide) rfl
    refine .seq (incoming_reads ts) (fun i ts _ => ?_) fun _ _ _ => avoids_nil
    exact .map ((moreIncoming_reads ts).mono fun _ h => h.mono (by decide)) fun _ => rfl
  · next h =>
    refine .rule h ⟨9, by decide⟩ (by decide) rfl ?_
    exact .map ((call_reads ts).mono fun _ _ => avoids_nil) fun _ => rfl
  · next h₁ h₂ h₃ h₄ h₅ h₆ h₇ h₈ h₉ h₁₀ =>
    refine .fail (avoids_of_ne ?_) rfl rfl
    simpa [Rhs.first, Rule.first] using ⟨h₁, h₂, h₃, h₄, h₅, h₆, h₇, h₈, h₉, h₁₀⟩

/-- What instructions go on with. -/
def instructionsFollow : List Terminal := instructionFirst ++ instructionFollow

theorem instrs_reads (ts : List Token) :
    Fueled 1 yield (Derivation.tree (e := star (rule .instruction))) (Avoids instructionsFollow)
      instrs ts := by
  intro fuel
  -- The fuel is more than the tokens that are left, and each instruction takes one at least.
  induction fuel generalizing ts with
  | zero => omega
  | succ fuel ih =>
    intro hfuel
    simp only [instrs, word_bind, name_bind]
    refine .peek_seq ?_
    split
    · next h =>
      refine .star_cons (not_avoids_of_next h (by decide))
        (.rule_seq h ⟨0, by decide⟩ (by decide) rfl ?_)
      refine .assoc (.token_seq fun _ ts _ h₁ => .assoc (.token_seq fun _ ts' _ h₂ => ?_))
      refine .seq (op_reads ts') (fun o mid hmid => ?_) fun d _ hrest =>
        d.avoids_append (by decide) fun _ => hrest.mono (by decide)
      have := o.length_lt rfl hmid
      exact .map (ih mid (by omega)) fun _ => rfl
    · next h =>
      refine .star_cons (not_avoids_of_next h (by decide))
        (.rule_seq h ⟨1, by decide⟩ (by decide) rfl ?_)
      refine .assoc (.token_seq fun _ ts _ h₁ => .assoc ?_)
      refine .seq (typed_reads ts) (fun v mid hmid => .assoc (.token_seq fun _ ts' _ h₂ => ?_))
        fun _ _ _ => avoids_nil
      refine .seq (typed_reads ts') (fun p mid' hmid' => ?_) fun _ _ _ => avoids_nil
      have := v.length_lt rfl hmid
      have := p.length_lt rfl hmid'
      exact .map (ih mid' (by omega)) fun _ => rfl
    · next h =>
      refine .star_cons (not_avoids_of_next h (by decide))
        (.rule_seq h ⟨2, by decide⟩ (by decide) rfl ?_)
      refine .seq (call_reads ts) (fun c mid hmid => ?_) fun _ _ _ => avoids_nil
      have := c.length_lt rfl hmid
      exact .map (ih mid (by omega)) fun _ => rfl
    · next h₁ h₂ h₃ =>
      refine .star_nil (avoids_of_ne ?_) rfl rfl
      simpa [Rhs.first, Rule.first, instructionFirst] using ⟨h₁, h₂, h₃⟩

/-! ### Terminators -/

/-- What a terminator goes on with. -/
def terminatorFollow : List Terminal := valueFirst ++ suffixFirst

theorem startsValue_iff (k : Terminal) : startsValue k = true ↔ k ∈ valueFirst := by
  cases k with
  | word w => cases w <;> decide
  | _ => decide

theorem labelRef_reads (ts : List Token) :
    Reads yield (fun d : Derivation Rhs.label => labelName d.tree) (Avoids []) labelRef ts := by
  simp only [labelRef, word_bind, name]
  exact .token_seq fun _ ts _ _ => .token_last fun _ _ _ => rfl

theorem cases_reads (ts : List Token) :
    Fueled 1 yield
      (fun d : Derivation (seq (star (rule .switchCase)) (word .closeBracket)) => d.tree.1)
      (Avoids []) cases ts := by
  intro fuel
  induction fuel generalizing ts with
  | zero => omega
  | succ fuel ih =>
    intro hfuel
    simp only [cases, word_bind]
    refine .if_sees (fun h => ?_) fun h => ?_
    · exact .star_skip (avoids_of_next h (by decide)) rfl (.token_last fun _ _ _ => rfl)
    · refine .star_take (avoids_of_ne (by simpa [Rhs.first] using h)) rfl
        (.sole_seq ⟨0, by decide⟩ (by decide) (.assoc ?_))
      refine .seq (typed_reads ts) (fun v mid hmid => .assoc (.token_seq fun _ ts' _ h₁ => ?_))
        fun _ _ _ => avoids_nil
      refine .seq (labelRef_reads ts') (fun l mid' hmid' => ?_) fun _ _ _ => avoids_nil
      have := v.length_lt rfl hmid
      have := l.length_lt rfl hmid'
      refine .map (ih mid' (by omega)) fun d => ?_
      cases d with
      | seq cs d => rfl

/-- The token after `br` tells whether it has a condition. -/
def branch :
    Derivation (seq (word .br) (alt Rhs.label
      (row (token .intType) [rule .value, word .comma, Rhs.label, word .comma, Rhs.label]))) →
      Derivation (.rule .terminator)
  | .seq b (.left d) => .rule ⟨1, by decide⟩ (.seq b d)
  | .seq b (.right d) => .rule ⟨2, by decide⟩ (.seq b d)

theorem yield_branch (d : Derivation (seq (word .br) (alt Rhs.label
    (row (token .intType) [rule .value, word .comma, Rhs.label, word .comma, Rhs.label])))) :
    (branch d).yield = d.yield := by
  match d with
  | .seq b (.left d) => rfl
  | .seq b (.right d) => rfl

theorem exists_branch (d : Derivation (.rule .terminator)) {rest : List Token}
    (hts : ts = d.yield ++ rest) (h : next ts = Option.some (.word .br)) : ∃ d', branch d' = d := by
  have hothers : ∀ i : Fin Rule.terminator.alternatives.length, i.val ≠ 1 → i.val ≠ 2 →
      .word .br ∉ (Rule.terminator.alternatives.get i).rhs.first := by decide
  match d with
  | .rule ⟨1, _⟩ (.seq b d) => exact ⟨.seq b (.left d), rfl⟩
  | .rule ⟨2, _⟩ (.seq b d) => exact ⟨.seq b (.right d), rfl⟩
  | .rule ⟨0, hi⟩ d | .rule ⟨3, hi⟩ d | .rule ⟨4, hi⟩ d =>
    have hd := hothers ⟨_, hi⟩ (by simp) (by simp)
    exact absurd (avoids_of_next h hd) (d.not_avoids rfl hts)

theorem terminator_reads (ts : List Token) :
    Reads yield (Derivation.tree (e := .rule .terminator)) (Avoids terminatorFollow) terminator
      ts := by
  simp only [terminator, word_bind]
  refine .line_seq (.peek_seq ?_)
  split
  · next h =>
    refine .rule h ⟨0, by decide⟩ (by decide) rfl (.token_seq fun r ts _ hr => ?_)
    -- A value behind the type is what is returned; whatever else follows does not belong to it.
    refine .seq (type_reads ts) (fun t ts _ => .peek_seq ?_)
      fun d _ hrest => d.avoids_append (by decide) fun _ => hrest.mono (by decide)
    split
    · next hvalue =>
      obtain ⟨k, hk, hvalue⟩ := Option.any_eq_true _ _ |>.1 hvalue
      refine .opt_some (not_avoids_of_next hk (List.mem_append_left _ ?_)) ?_
      · exact (startsValue_iff k).1 hvalue
      · exact .map ((value_reads ts).mono fun _ _ => avoids_nil) fun _ => by rw [hr.2]; rfl
    · next hvalue =>
      refine .opt_none (fun k hk hmem => hvalue ?_) rfl (by rw [hr.2]; rfl)
      exact Option.any_eq_true _ _ |>.2 ⟨k, hk, (startsValue_iff k).2 hmem⟩
  -- Both branches start alike, so they are read as one form.
  · next h =>
    refine .of_form branch yield_branch (fun _ hus d _ hd _ => exists_branch d hd (hus.trans h)) ?_
    refine .token_seq fun _ ts _ _ => .if_sees (fun h => ?_) fun h => ?_
    · exact .alt_left (avoids_of_next h (by decide)) rfl
        (.map ((labelRef_reads ts).mono fun _ _ => avoids_nil) fun _ => rfl)
    · refine .alt_right (avoids_of_ne (by simpa [Rhs.first, Rhs.label, Rhs.nullable] using h)) rfl
        (.token_seq fun i ts _ _ => ?_)
      refine .seq (value_reads ts) (fun c ts _ => .token_seq fun _ ts _ _ => ?_)
        fun _ _ _ => avoids_nil
      refine .seq (labelRef_reads ts) (fun t ts _ => .token_seq fun _ ts _ _ => ?_)
        fun _ _ _ => avoids_nil
      exact .map ((labelRef_reads ts).mono fun _ _ => avoids_nil) fun _ => rfl
  · next h =>
    refine .rule h ⟨3, by decide⟩ (by decide) rfl (.token_seq fun _ ts _ _ => ?_)
    refine .seq (type_reads ts) (fun t ts _ => ?_) fun d _ _ => d.avoids (by decide) rfl
    refine .seq (value_reads ts) (fun v ts _ => .token_seq fun _ ts _ _ => ?_)
      fun _ _ _ => avoids_nil
    refine .seq (labelRef_reads ts) (fun l ts _ => .token_seq fun _ ts _ _ => ?_)
      fun _ _ _ => avoids_nil
    have hcases := Fueled.reads (cases_reads ts) (by omega)
    refine .map (hcases.mono fun _ _ => avoids_nil) fun d => ?_
    cases d with
    | seq cs d => rfl
  · next h =>
    refine .rule h ⟨4, by decide⟩ (by decide) rfl ?_
    exact .token_last fun _ _ _ => rfl
  · next h₁ h₂ h₃ h₄ =>
    refine .fail (avoids_of_ne ?_) rfl rfl
    simpa [Rhs.first, Rule.first, terminatorFirst] using ⟨h₁, h₂, h₃, h₄⟩

/-! ### Functions -/

theorem block_reads (ts : List Token) :
    Reads yield (fun d : Derivation body => blockTree d.tree) (Avoids terminatorFollow) block
      ts := by
  simp only [block]
  refine .seq (Fueled.reads (instrs_reads ts) (by omega)) (fun is ts _ => ?_)
    fun d _ _ => d.avoids (by decide) rfl
  exact .map (terminator_reads ts) fun _ => rfl

theorem blocks_reads (ts : List Token) :
    Fueled 1 yield
      (fun d : Derivation (seq (star (rule .block)) (word .closeBrace)) => d.tree.1)
      (Avoids []) blocks ts := by
  intro fuel
  induction fuel generalizing ts with
  | zero => omega
  | succ fuel ih =>
    intro hfuel
    simp only [blocks, word_bind, name_bind]
    refine .if_sees (fun h => ?_) fun h => ?_
    · exact .star_skip (avoids_of_next h (by decide)) rfl (.token_last fun _ _ _ => rfl)
    · refine .star_take (avoids_of_ne (by simpa [Rhs.first] using h)) rfl
        (.sole_seq ⟨0, by decide⟩ (by decide) (.assoc (.token_seq fun l ts' _ h₁ => ?_)))
      refine .seq (block_reads ts') (fun b mid hmid => ?_) fun d _ _ => d.avoids (by decide) rfl
      have := b.length_lt rfl hmid
      refine .map (ih mid (by omega)) fun d => ?_
      cases d with
      | seq bs d => rfl

/-- A first block and the others, up to the brace behind them. -/
theorem bodies_reads (ts : List Token) (make : BlockTree → List (String × BlockTree) → ItemTree)
    {g : Derivation (seq body (seq (star (rule .block)) (word .closeBrace))) → ItemTree}
    (hg : ∀ b bs c, g (.seq b (.seq bs c)) = make (blockTree b.tree) bs.tree) :
    Reads yield g (Avoids suffixFirst) (do return make (← block) (← fueled blocks)) ts := by
  refine .seq (block_reads ts) (fun b ts _ => ?_) fun d _ _ => d.avoids (by decide) rfl
  have hblocks := Fueled.reads (blocks_reads ts) (by omega)
  refine .map (hblocks.mono fun _ _ => avoids_nil) fun d => ?_
  cases d with
  | seq bs c => exact hg b bs c

/-- What a parameter goes on with. -/
def paramFollow : List Terminal := .localName :: suffixFirst

theorem param_reads (ts : List Token) :
    Reads yield (Derivation.tree (e := .rule .param)) (Avoids paramFollow) param ts := by
  simp only [param, name_bind]
  refine .sole ⟨0, by decide⟩ (by decide) ?_
  refine .seq (type_reads ts) (fun t ts _ => .peek_seq ?_)
    fun d _ hrest => d.avoids_append (by decide) fun _ => hrest.mono (by decide)
  split
  · next h =>
    exact .opt_some (not_avoids_of_next h (by decide)) (.token_last fun _ _ _ => rfl)
  · next h => exact .opt_none (avoids_of_ne (by simpa [Rhs.first] using h)) rfl rfl

/-- The parameters of a list that dots may end. -/
def dotted (ps : List (TypeTree × Option String) × Bool) : ParamsTree :=
  { params := ps.1, varArg := ps.2 }

theorem moreParams_eq (fuel : Nat) :
    moreParams fuel = (do
      let ps ← dottedListOf (fun _ => param) fuel
      word .closeParen
      return dotted ps) := by
  induction fuel with
  | zero => rfl
  | succ fuel ih =>
    simp only [moreParams, dottedListOf, ih, bind_assoc]
    congr 1
    funext comma
    cases comma
    · simp [dotted]
    · simp only [if_true, bind_assoc]
      congr 2
      funext _
      congr 1
      funext dots
      cases dots <;> simp [dotted]

theorem moreParams_reads (ts : List Token) :
    Reads yield
      (fun d : Derivation (seq (moreOrDots (rule .param)) (word .closeParen)) =>
        dotted (List.map Prod.snd d.tree.1.1, d.tree.1.2.isSome))
      (Avoids []) (fueled moreParams) ts := by
  have hlist := dottedListOf_reads (Nat.zero_le 4) rfl (by decide) (by decide)
    (fun mid _ _ _ => param_reads mid) ts (Nat.le_refl ts.length)
  refine Fueled.reads (fun fuel hfuel => ?_) (Nat.le_add_left 1 7)
  simp only [moreParams_eq, word_bind]
  refine .seq (hlist fuel hfuel) (fun ps ts _ => ?_) fun d _ _ => d.avoids (by decide) rfl
  refine .token_last fun _ _ _ => ?_
  match ps with
  | .seq xs d => rfl

theorem params_reads (ts : List Token) :
    Reads yield (fun d : Derivation parameters => parenthesized d.tree) (Avoids []) params ts := by
  simp only [params, word_bind]
  refine .token_seq fun _ ts _ _ => .peek_seq ?_
  split
  · next h =>
    exact .opt_skip (avoids_of_next h (by decide)) rfl (.token_last fun _ _ _ => rfl)
  · next h =>
    refine .opt_take (avoids_of_next h (by decide)) rfl
      (.rule_seq h ⟨1, by decide⟩ (by decide) rfl (.token_seq fun _ ts _ _ => ?_))
    exact .token_last fun _ _ _ => rfl
  · next h₁ h₂ =>
    have hdots : Avoids [.word .dots] ts := avoids_of_ne (by simpa using h₂)
    refine .opt_take (avoids_of_ne (by simpa [Rhs.first, row] using h₁)) rfl
      (.rule_seq_of_avoids hdots ⟨0, by decide⟩ (by decide) rfl (.assoc ?_))
    refine .seq (param_reads ts) (fun p ts _ => ?_) fun d _ _ => d.avoids (by decide) rfl
    refine .map (moreParams_reads ts) fun d => ?_
    cases d with
    | seq ps d =>
      cases ps with
      | seq ps dots => rfl

/-! ### Modules -/

/-- The token after `=` tells where a global variable is defined. -/
def globalItem :
    Derivation (row (token .globalName) [word .equals,
      alt (row (word .external) [token .globalKind, rule .type])
        (row (token .globalKind) [rule .type, rule .value])]) → Derivation (.rule .item)
  | .seq n (.seq e (.left d)) => .rule ⟨2, by decide⟩ (.rule ⟨0, by decide⟩ (.seq n (.seq e d)))
  | .seq n (.seq e (.right d)) => .rule ⟨1, by decide⟩ (.rule ⟨0, by decide⟩ (.seq n (.seq e d)))

theorem yield_globalItem (d : Derivation (row (token .globalName) [word .equals,
    alt (row (word .external) [token .globalKind, rule .type])
      (row (token .globalKind) [rule .type, rule .value])])) : (globalItem d).yield = d.yield := by
  match d with
  | .seq n (.seq e (.left d)) => rfl
  | .seq n (.seq e (.right d)) => rfl

theorem exists_globalItem (d : Derivation (.rule .item)) {rest : List Token}
    (hts : ts = d.yield ++ rest) (h : next ts = Option.some .globalName) :
    ∃ d', globalItem d' = d := by
  have hothers : ∀ i : Fin Rule.item.alternatives.length, i.val ≠ 1 → i.val ≠ 2 →
      .globalName ∉ (Rule.item.alternatives.get i).rhs.first := by decide
  match d with
  | .rule ⟨1, _⟩ (.rule ⟨0, _⟩ (.seq n (.seq e d))) => exact ⟨.seq n (.seq e (.right d)), rfl⟩
  | .rule ⟨2, _⟩ (.rule ⟨0, _⟩ (.seq n (.seq e d))) => exact ⟨.seq n (.seq e (.left d)), rfl⟩
  | .rule ⟨0, hi⟩ d | .rule ⟨3, hi⟩ d | .rule ⟨4, hi⟩ d =>
    have hd := hothers ⟨_, hi⟩ (by simp) (by simp)
    exact absurd (avoids_of_next h hd) (d.not_avoids rfl hts)

theorem item_reads (ts : List Token) :
    Reads yield (Derivation.tree (e := .rule .item)) (Avoids suffixFirst) item ts := by
  simp only [item, globalKind, word_bind, name_bind, text_bind, bind_assoc, pure_bind]
  refine .line_seq (.peek_seq ?_)
  split
  -- A type, the body of which may be left open.
  · next h =>
    refine .rule h ⟨0, by decide⟩ (by decide) rfl (.sole ⟨0, by decide⟩ (by decide) ?_)
    refine .token_seq fun n ts _ hn => .token_seq fun _ ts _ _ => .token_seq fun _ ts _ _ =>
      .peek_seq ?_
    split
    · next h =>
      exact .alt_right (avoids_of_next h (by decide)) rfl
        (.token_last fun _ _ _ => by rw [hn.2]; rfl)
    · next h =>
      refine .alt_left (avoids_of_ne (by simpa [Rhs.first] using h)) rfl ?_
      exact .map (type_reads ts) fun _ => by rw [hn.2]; rfl
  -- Two alternatives start with a global name, so they are read as one form.
  · next h =>
    refine .of_form globalItem yield_globalItem
      (fun _ hus d _ hd _ => exists_globalItem d hd (hus.trans h)) ?_
    refine .token_seq fun n ts _ hn => .token_seq fun _ ts _ _ =>
      .if_sees (fun h => ?_) fun h => ?_
    · refine .alt_left (avoids_of_next h (by decide)) rfl
        (.token_seq fun _ ts _ _ => .token_seq fun k ts _ _ => ?_)
      exact .map (type_reads ts) fun _ => rfl
    · refine .alt_right (avoids_of_ne (by simpa [Rhs.first, row, Rhs.nullable] using h)) rfl
        (.token_seq fun k ts _ _ => ?_)
      refine .seq (type_reads ts) (fun t ts _ => ?_) fun d _ _ => d.avoids (by decide) rfl
      exact .map ((value_reads ts).mono fun _ _ => avoids_nil) fun _ => rfl
  · next h =>
    refine .rule h ⟨3, by decide⟩ (by decide) rfl (.sole ⟨0, by decide⟩ (by decide) ?_)
    refine .token_seq fun _ ts _ _ => .seq (type_reads ts) (fun t ts _ => ?_)
      fun d _ _ => d.avoids (by decide) rfl
    refine .token_seq fun n ts _ _ => ?_
    exact .map ((params_reads ts).mono fun _ _ => avoids_nil) fun _ => rfl
  -- A definition. A label is taken before the rule of its first block is entered.
  · next h =>
    refine .rule h ⟨4, by decide⟩ (by decide) rfl (.sole ⟨0, by decide⟩ (by decide) ?_)
    refine .token_seq fun d ts _ hd => .seq (type_reads ts) (fun t ts _ => ?_)
      fun d _ _ => d.avoids (by decide) rfl
    refine .token_seq fun n ts _ _ => .seq (params_reads ts) (fun ps ts _ => ?_)
      fun _ _ _ => avoids_nil
    refine .token_seq fun _ ts _ _ => .sole_seq ⟨0, by decide⟩ (by decide) (.assoc ?_)
    refine .peek_seq ?_
    split
    · next h =>
      refine .opt_take (avoids_of_next h (by decide)) rfl (.token_seq fun l ts _ _ => ?_)
      exact bodies_reads ts _ fun _ _ _ => by rw [hd.2]; rfl
    · next h =>
      refine .opt_skip (avoids_of_ne (by simpa [Rhs.first] using h)) rfl ?_
      exact bodies_reads ts _ fun _ _ _ => by rw [hd.2]; rfl
  · next h₁ h₂ h₃ h₄ =>
    refine .fail (avoids_of_ne ?_) rfl rfl
    simpa [Rhs.first, Rule.first] using ⟨h₁, h₂, h₃, h₄⟩

theorem items_reads (ts : List Token) :
    Fueled 1 yield (Derivation.tree (e := star (rule .item))) (fun rest => rest = []) items ts := by
  intro fuel
  induction fuel generalizing ts with
  | zero => omega
  | succ fuel ih =>
    intro hfuel
    simp only [items]
    refine .peek_seq ?_
    split
    · next h =>
      refine .star_nil (fun k hk => ?_) rfl rfl
      simp [h] at hk
    · next h =>
      refine .star_cons (fun hts => by simp [hts, next] at h) ?_
      refine .seq (item_reads ts) (fun i mid hmid => ?_) fun d rest hrest =>
        d.avoids_append (by decide) fun _ => by simp [hrest, Avoids, next]
      have := i.length_lt rfl hmid
      exact .map (ih mid (by omega)) fun _ => rfl

theorem module_reads (ts : List Token) :
    Reads yield (Derivation.tree (e := .rule .module)) (fun rest => rest = []) (fueled items)
      ts := by
  refine .sole ⟨0, by decide⟩ (by decide) ?_
  exact Fueled.reads (items_reads ts) (by omega)

/-- Items are read until no token is left. -/
theorem items_rest (fuel : Nat) (ts : List Token) (trees : List ItemTree) (rest : List Token)
    (h : items fuel ts = .ok (trees, rest)) : rest = [] := by
  induction fuel generalizing ts trees with
  | zero => cases h
  | succ fuel ih =>
    rw [items, peek_bind] at h
    cases hnext : next ts with
    | none =>
      rw [hnext] at h
      cases h
      simpa [next] using hnext
    | some k =>
      rw [hnext] at h
      obtain ⟨i, mid, -, h⟩ := bind_eq_ok.1 h
      obtain ⟨is, mid, h, hpure⟩ := bind_eq_ok.1 h
      cases hpure
      exact ih _ _ h

/-- **The parser accepts the grammar.** Tokens parse as trees exactly if they are derived from the
rule of modules with these trees, and no tokens are derived in two ways. -/
theorem parseItems_grammar :
    (∀ (tokens : List Token) (trees : List ItemTree), parseItems tokens = .ok trees ↔
      ∃ d : Derivation (.rule .module), d.yield = tokens ∧ d.tree = trees) ∧
    ∀ d d' : Derivation (.rule .module), d.yield = d'.yield → d = d' := by
  constructor
  · intro tokens trees
    have hmodule := module_reads tokens
    constructor
    · intro h
      unfold parseItems at h
      split at h
      · next found rest hrun =>
        cases h
        obtain rfl := items_rest _ _ _ _ hrun
        obtain ⟨d, hd, htree⟩ := hmodule.sound _ _ hrun
        exact ⟨d, by simpa using hd.symm, htree⟩
      · cases h
    · intro h
      obtain ⟨d, rfl, rfl⟩ := h
      have hrun : fueled items d.yield = .ok ((d.tree : List ItemTree), []) :=
        hmodule.complete d [] (by simp) rfl
      rw [parseItems, hrun]
  · intro d d' h
    exact (module_reads d.yield).unique d d' [] [] (by simp) rfl (by simp [h]) rfl

end GoLift.Source
