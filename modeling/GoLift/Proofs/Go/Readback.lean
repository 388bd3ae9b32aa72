import GoLift.Go.Printer
import GoLift.Proofs.Go.Grammar

/-!
# Printed expressions are read back

An expression is printed with parentheses where its place asks for something that binds more
tightly. **That is enough for its text to be read as the same tree**, parentheses aside
(`Expr.Readable.read_back`): the text of an operand is an expression of the level that its place
asks for, so each place of the grammar gets what it asks for, and the grammar is unambiguous.

Two things keep tokens apart. A binary operator stands between blanks; and what stands behind an
operator without a blank does not go on with it.
-/

set_option autoImplicit false

namespace GoLift.Go

/-! ### Trees without parentheses -/

mutual

/-- The tree without its parentheses; a negative literal is a minus sign before a literal. -/
def Expr.core : Expr → Expr
  | .lit .int text =>
    match text.toList with
    | '-' :: cs => .unary (.ofSymbol "-") (.lit .int (.ofList cs))
    | _ => .lit .int text
  | .paren x => x.core
  | .selector x sel => .selector x.core sel
  | .star x => .star x.core
  | .unary op x => .unary op x.core
  | .binary x op y => .binary x.core op y.core
  | .call fn args => .call fn.core (Expr.cores args)
  | x => x

/-- The trees of a list without their parentheses. -/
def Expr.cores : List Expr → List Expr
  | [] => []
  | x :: xs => x.core :: Expr.cores xs

end

/-! ### The expressions in question -/

/-- May an expression be the function part of a call? -/
def Expr.isCallee : Expr → Bool
  | .ident _ | .selector .. | .paren _ | .call .. | .star _ | .unary .. => true
  | _ => false

/-- Expressions of identifiers, integers and operators. -/
inductive Expr.Readable (α : Alphabet) : Expr → Prop
  | ident {name : String} (h : α.isIdent name = true) : Readable α (.ident name)
  | int {text : String} (h : isIntLit text.toList = true) : Readable α (.lit .int text)
  | negative {text : String} (h : isIntLit text.toList = true) :
      Readable α (.lit .int ("-" ++ text))
  | paren {x : Expr} (hx : Readable α x) : Readable α (.paren x)
  | selector {name sel : String} (h : α.isIdent name = true) (hsel : α.isIdent sel = true) :
      Readable α (.selector (.ident name) sel)
  | star {x : Expr} (hx : Readable α x) : Readable α (.star x)
  | not {x : Expr} (hx : Readable α x) : Readable α (.unary .not x)
  | addr {name : String} (h : α.isIdent name = true) : Readable α (.unary .addr (.ident name))
  | binary {x y : Expr} {op : BinaryOp} (hop : op ∈ BinaryOp.all) (hx : Readable α x)
      (hy : Readable α y) : Readable α (.binary x op y)
  | call {fn : Expr} {args : List Expr} (hcallee : fn.isCallee = true) (hfn : Readable α fn)
      (hargs : ∀ a ∈ args, Readable α a) : Readable α (.call fn args)

/-- The identifier of a name is such an expression. -/
theorem Expr.Readable.name (α : Alphabet) (raw : String) : (Expr.ident (goName raw)).Readable α :=
  .ident (Alphabet.isIdent_goName raw)

/-- An integer in decimal is such an expression. -/
theorem Expr.Readable.number (α : Alphabet) (i : Int) :
    (Expr.lit .int (toString i)).Readable α := by
  cases i with
  | ofNat n => exact .int (isIntLit_toString n)
  | negSucc n => exact .negative (isIntLit_toString (n + 1))

/-- The level at which the text of an expression is read. -/
def Expr.readLevel : Expr → Nat
  | .lit _ text => if text.toList.head? = some '-' then unaryPrec else primaryPrec
  | x => x.prec

/-- A text is an expression. -/
def Alphabet.IsExpr (α : Alphabet) (text : String) (x : Expr) : Prop :=
  ∃ ts, α.tokens text = some ts ∧ Derives 1 ts x

variable {α : Alphabet} {n m : Nat} {x y e : Expr} {ts : List Token} {text name s : String}
  {rest : List Char}

/-- A text is one expression at most. -/
theorem Alphabet.IsExpr.unique (hx : α.IsExpr text x) (hy : α.IsExpr text y) : x = y := by
  obtain ⟨ts, hts, hx⟩ := hx
  obtain ⟨us, hus, hy⟩ := hy
  obtain rfl : ts = us := Option.some.inj (hts.symm.trans hus)
  exact hx.unique hy

/-- What binds more tightly may stand where something looser is asked for. -/
theorem Derives.lower (h : Derives m ts x) (hn : n ≤ m) : Derives n ts x := by
  obtain ⟨d, rfl⟩ := Nat.exists_eq_add_of_le hn
  induction d with
  | zero => exact h
  | succ d ih => exact ih (.operand h) (Nat.le_add_right n d)

/-! ### Where a text comes to an end -/

/-- An operand ends here. -/
def Ends (rest : List Char) : Prop :=
  ∀ c ∈ rest.head?, c ∈ [' ', ',', '(', ')']

theorem Ends.word (h : Ends rest) : Alphabet.Stops α.isWordChar rest := by
  have hchars : ∀ c ∈ [' ', ',', '(', ')'], α.isWordChar c = false := by
    simp only [List.forall_mem_cons]
    exact ⟨rfl, rfl, rfl, rfl, nofun⟩
  exact fun c hc => hchars c (h c hc)

theorem Ends.number (h : Ends rest) : Alphabet.Stops isNumberChar rest := by
  have hchars : ∀ c ∈ [' ', ',', '(', ')'], isNumberChar c = false := by
    simp only [List.forall_mem_cons]
    exact ⟨rfl, rfl, rfl, rfl, nofun⟩
  exact fun c hc => hchars c (h c hc)

theorem Ends.of_cons {c : Char} (hc : c ∈ [' ', ',', '(', ')']) : Ends (c :: rest) := by
  intro d hd
  obtain rfl : c = d := Option.some.inj hd
  exact hc

/-- A text that can stand behind an operator without a blank: only `=` goes on with a negation or a
star. -/
def Opens (text : String) : Prop :=
  ∃ c cs, text.toList = c :: cs ∧ c ≠ '='

theorem Opens.append {text' : String} (h : Opens text) : Opens (text ++ text') := by
  obtain ⟨c, cs, htext, hc⟩ := h
  exact ⟨c, cs ++ text'.toList, by rw [String.toList_append, htext, List.cons_append], hc⟩

theorem Opens.ident (h : α.isIdent name = true) : Opens name := by
  obtain ⟨c, cs, hname, hletter⟩ := Alphabet.isIdent_cons h
  refine ⟨c, cs, hname, fun hc => ?_⟩
  rw [hc] at hletter
  cases hletter

theorem Opens.int (h : isIntLit text.toList = true) : Opens text := by
  obtain ⟨c, cs, htext, hc, -⟩ := isIntLit_cons h
  refine ⟨c, cs, htext, fun heq => ?_⟩
  subst heq
  cases hc

/-! ### The parts of an expression -/

/-- Wherever an operand may end, a text is read as an expression of a level, the same as a given one
up to parentheses. -/
def ReadsAs (α : Alphabet) (n : Nat) (text : String) (e : Expr) : Prop :=
  Opens text ∧ ∃ ts x, (∀ rest, Ends rest → α.Reads text ts rest) ∧ Derives n ts x ∧
    x.core = e.core

namespace ReadsAs

theorem lower (h : ReadsAs α m text e) (hn : n ≤ m) : ReadsAs α n text e := by
  obtain ⟨hopens, ts, x, hts, hx, hcore⟩ := h
  exact ⟨hopens, ts, x, hts, hx.lower hn, hcore⟩

theorem of_core (h : ReadsAs α n text x) (heq : x.core = e.core) : ReadsAs α n text e := by
  obtain ⟨hopens, ts, y, hts, hy, hcore⟩ := h
  exact ⟨hopens, ts, y, hts, hy, hcore.trans heq⟩

theorem ident (h : α.isIdent name = true) : ReadsAs α 7 name (.ident name) :=
  ⟨.ident h, _, _, fun _ hrest => .ident h hrest.word, .ident name, rfl⟩

theorem int (h : isIntLit text.toList = true) : ReadsAs α 7 text (.lit .int text) :=
  ⟨.int h, _, _, fun _ hrest => .int h hrest.number, .int text, rfl⟩

/-- An operator stands before an operand that does not go on with it. -/
theorem prefixed (h : ReadsAs α 6 text e) (hs : s ∈ prefixOps) (hsymbol : s ∈ goSymbols)
    (hopens : Opens s) (hnext : ∀ c ∈ text.toList.head?, c ∉ followers s) :
    ReadsAs α 6 (s ++ text) (prefixed s e) := by
  obtain ⟨⟨c, cs, htext, -⟩, ts, x, hts, hx, hcore⟩ := h
  refine ⟨hopens.append, _, _, fun rest hrest => ?_, .prefixed hs hx, ?_⟩
  · refine .append (.symbol hsymbol fun d hd => ?_) (hts rest hrest)
    obtain rfl : c = d := by simpa [htext] using hd
    exact hnext c (by simp [htext])
  · unfold Go.prefixed
    split
    · rw [Expr.core, Expr.core, hcore]
    · rw [Expr.core, Expr.core, hcore]

/-- A literal without a sign has no core but itself. -/
theorem core_int (h : isIntLit text.toList = true) :
    Expr.core (.lit .int text) = .lit .int text := by
  obtain ⟨c, cs, htext, hc, -⟩ := isIntLit_cons h
  rw [Expr.core]
  split
  · next cs' heq =>
    obtain rfl : c = '-' := (List.cons.inj (htext.symm.trans heq)).1
    cases hc
  · rfl

/-- A negative literal is read as a minus sign before a literal. -/
theorem negative (h : isIntLit text.toList = true) :
    ReadsAs α 6 ("-" ++ text) (.lit .int ("-" ++ text)) := by
  obtain ⟨c, cs, htext, hc, -⟩ := isIntLit_cons h
  have hfollowers : (followers "-").all (!·.isDigit) = true := by
    decide
  have hsigned : ReadsAs α 6 ("-" ++ text) (Go.prefixed "-" (.lit .int text)) := by
    refine prefixed ((int h).lower (by decide)) (by decide) (by decide) ⟨'-', [], rfl, by decide⟩ ?_
    intro d hd hmem
    obtain rfl : c = d := by simpa [htext] using hd
    have hnot := List.all_eq_true.1 hfollowers c hmem
    rw [hc] at hnot
    cases hnot
  refine hsigned.of_core ?_
  have hchars : ("-" ++ text).toList = '-' :: text.toList := by simp
  rw [Expr.core, hchars]
  show Expr.core (.unary (.ofSymbol "-") (.lit .int text)) =
    .unary (.ofSymbol "-") (.lit .int (.ofList text.toList))
  rw [Expr.core, core_int h, String.ofList_toList]

/-- Any operand may stand behind a negation or a star. -/
theorem prefixed_of_opens (h : ReadsAs α 6 text e) (hs : s = "!" ∨ s = "*") :
    ReadsAs α 6 (s ++ text) (Go.prefixed s e) := by
  obtain ⟨c, cs, htext, hc⟩ := h.1
  have hnext : ∀ t ∈ ["!", "*"], followers t = ['='] := by
    decide
  have hfollowers : ∀ t ∈ ["!", "*"], ∀ d ∈ text.toList.head?, d ∉ followers t := by
    intro t ht d hd hmem
    obtain rfl : c = d := by simpa [htext] using hd
    rw [hnext t ht] at hmem
    exact hc (List.mem_singleton.1 hmem)
  rcases hs with rfl | rfl
  · exact prefixed h (by decide) (by decide) ⟨'!', [], rfl, by decide⟩ (hfollowers _ (by decide))
  · exact prefixed h (by decide) (by decide) ⟨'*', [], rfl, by decide⟩ (hfollowers _ (by decide))

/-- No identifier goes on with the operator of addresses or with a point. -/
theorem head_not_mem_followers (hs : s ∈ ["&", "."]) (h : α.isIdent name = true) :
    ∀ c ∈ name.toList.head?, c ∉ followers s := by
  have hfollowers : ∀ s ∈ ["&", "."], (followers s).all Alphabet.isMark = true := by
    decide
  obtain ⟨c, cs, hname, hletter⟩ := Alphabet.isIdent_cons h
  intro d hd hmem
  obtain rfl : c = d := by simpa [hname] using hd
  rw [Alphabet.isLetter_of_isMark (List.all_eq_true.1 (hfollowers s hs) c hmem)] at hletter
  cases hletter

theorem addr (h : α.isIdent name = true) :
    ReadsAs α 6 ("&" ++ name) (.unary .addr (.ident name)) :=
  prefixed ((ident h).lower (by decide)) (by decide) (by decide) ⟨'&', [], rfl, by decide⟩
    (head_not_mem_followers (by decide) h)

/-- Parentheses make an operand that nothing can take apart. -/
theorem parens (h : ReadsAs α 1 text e) : ReadsAs α 7 (parens text) e := by
  obtain ⟨-, ts, x, hts, hx, hcore⟩ := h
  refine ⟨⟨'(', (text ++ ")").toList, ?_, by decide⟩, _, .paren x, fun rest _ => ?_, hx.paren, ?_⟩
  · simp [Go.parens]
  · exact (Alphabet.Reads.append (.punctuation (by decide)) (hts _ (.of_cons (by decide)))).append
      (.punctuation (by decide))
  · rw [Expr.core, hcore]

theorem selector {sel : String} (h : α.isIdent name = true) (hsel : α.isIdent sel = true) :
    ReadsAs α 7 (name ++ "." ++ sel) (.selector (.ident name) sel) := by
  refine ⟨(Opens.ident h).append.append, _, _, fun rest hrest => ?_,
    (Derives.ident name).selector sel, rfl⟩
  have hpoint : Alphabet.Stops α.isWordChar (".".toList ++ (sel.toList ++ rest)) := by
    intro c hc
    obtain rfl : '.' = c := Option.some.inj hc
    rfl
  have hname : α.Reads name [.ident name] (".".toList ++ (sel.toList ++ rest)) := .ident h hpoint
  refine (hname.append (.symbol (by decide) fun c hc => ?_)).append (.ident hsel hrest.word)
  obtain ⟨d, ds, hchars, -⟩ := Alphabet.isIdent_cons hsel
  rw [hchars] at hc
  exact head_not_mem_followers (by decide) hsel c (by rw [hchars]; exact hc)

theorem binary {l r : String} {op : BinaryOp} (hop : op ∈ BinaryOp.all)
    (hx : ReadsAs α op.prec l x) (hy : ReadsAs α (op.prec + 1) r y) :
    ReadsAs α op.prec (l ++ " " ++ op.symbol ++ " " ++ r) (.binary x op y) := by
  have hops : ∀ op ∈ BinaryOp.all, op.symbol ∈ goSymbols ∧ ' ' ∉ followers op.symbol ∧
      binaryLevel? op.symbol = some op.prec ∧ BinaryOp.ofSymbol op.symbol = op := by
    decide
  obtain ⟨hsymbol, hfollowers, hlevel, hof⟩ := hops op hop
  obtain ⟨hopens, ts, x', hts, hx', hxcore⟩ := hx
  obtain ⟨-, us, y', hus, hy', hycore⟩ := hy
  refine ⟨hopens.append.append.append.append, ts ++ .symbol op.symbol :: us, _,
    fun rest hrest => ?_, .binary hlevel hx' hy', ?_⟩
  · have hl := hts (" ".toList ++ (op.symbol.toList ++ (" ".toList ++ (r.toList ++ rest))))
      (.of_cons (by decide))
    have hsym : α.Reads op.symbol [.symbol op.symbol] (" ".toList ++ (r.toList ++ rest)) := by
      refine .symbol hsymbol fun c hc => ?_
      obtain rfl : ' ' = c := Option.some.inj hc
      exact hfollowers
    have hall := (((hl.append .blank).append hsym).append .blank).append (hus rest hrest)
    simpa using hall
  · rw [Expr.core, Expr.core, hxcore, hycore, hof]

/-- Arguments are read one after the other. -/
theorem args {args : List Expr} (h : ∀ a ∈ args, ReadsAs α 1 a.text a) :
    ∃ parts : List (List Token × Expr), (∀ p ∈ parts, Derives 1 p.1 p.2) ∧
      Expr.cores (parts.map Prod.snd) = Expr.cores args ∧
      ∀ rest, Ends rest →
        α.Reads (", ".intercalate (Expr.texts args)) (commas (parts.map Prod.fst)) rest := by
  induction args with
  | nil => exact ⟨[], nofun, rfl, fun rest _ => (id_map _).symm⟩
  | cons a args ih =>
    obtain ⟨⟨-, ts, x, hts, hx, hcore⟩, hargs⟩ := List.forall_mem_cons.1 h
    obtain ⟨parts, hparts, hcores, hreads⟩ := ih hargs
    refine ⟨(ts, x) :: parts, List.forall_mem_cons.2 ⟨hx, hparts⟩, ?_, fun rest hrest => ?_⟩
    · rw [List.map_cons, Expr.cores, Expr.cores, hcore, hcores]
    · cases args with
      | nil =>
        cases parts with
        | nil => exact hts rest hrest
        | cons => cases hcores
      | cons b args =>
        cases parts with
        | nil => cases hcores
        | cons part parts =>
          have hcomma : ∀ rest, α.Reads ("," ++ " ") [.symbol ","] rest :=
            fun rest => Alphabet.Reads.append (.punctuation (by decide)) .blank
          have ha : ∀ rest, α.Reads (a.text ++ ", ") (ts ++ [.symbol ","]) rest :=
            fun rest => (hts (", ".toList ++ rest) (.of_cons (by decide))).append (hcomma rest)
          have hall := (ha _).append (hreads rest hrest)
          rw [List.append_assoc] at hall
          show α.Reads (", ".intercalate (a.text :: b.text :: Expr.texts args)) _ _
          rw [String.intercalate_cons_cons]
          exact hall

theorem call {fn : Expr} {args : List Expr} (hfn : ReadsAs α 7 text fn)
    (hargs : ∀ a ∈ args, ReadsAs α 1 a.text a) :
    ReadsAs α 7 (text ++ Go.parens (", ".intercalate (Expr.texts args))) (.call fn args) := by
  obtain ⟨hopens, ts, f, hts, hf, hcore⟩ := hfn
  obtain ⟨parts, hparts, hcores, hreads⟩ := ReadsAs.args hargs
  refine ⟨hopens.append, _, _, fun rest _ => ?_, .call hf hparts (.inl rfl), ?_⟩
  · have hopen : Ends ((Go.parens (", ".intercalate (Expr.texts args))).toList ++ rest) := by
      rw [Go.parens, String.toList_append, String.toList_append]
      exact .of_cons (by decide)
    have hclose : Ends (")".toList ++ rest) := .of_cons (by decide)
    have hinner : α.Reads (Go.parens (", ".intercalate (Expr.texts args)))
        ([.symbol "("] ++ commas (parts.map Prod.fst) ++ [.symbol ")"]) rest :=
      (Alphabet.Reads.append (.punctuation (by decide)) (hreads _ hclose)).append
        (.punctuation (by decide))
    simpa using (hts _ hopen).append hinner
  · rw [Expr.core, Expr.core, hcore, hcores]

end ReadsAs

/-! ### Reading back -/

namespace Expr

theorem prec_le_of_mem_all : ∀ op ∈ BinaryOp.all, 1 ≤ op.prec ∧ op.prec + 1 ≤ unaryPrec := by
  decide

/-- No level is tighter than that of an operand which nothing can take apart, but for the sign of
a literal. -/
theorem le_readLevel (hprec : n ≤ e.prec) (hn : n ≤ unaryPrec) : n ≤ e.readLevel := by
  cases e with
  | lit kind text =>
    rw [readLevel]
    split
    · exact hn
    · exact Nat.le_succ_of_le hn
  | _ => exact hprec

theorem readLevel_int (h : isIntLit text.toList = true) :
    (Expr.lit .int text).readLevel = primaryPrec := by
  obtain ⟨c, cs, htext, hc, -⟩ := isIntLit_cons h
  refine if_neg fun hsign => ?_
  rw [htext] at hsign
  obtain rfl : c = '-' := Option.some.inj hsign
  cases hc

theorem readLevel_negative : (Expr.lit .int ("-" ++ text)).readLevel = unaryPrec := by
  have hchars : ("-" ++ text).toList = '-' :: text.toList := by simp
  exact if_pos (by rw [hchars]; rfl)

theorem Readable.one_le (h : e.Readable α) : 1 ≤ e.readLevel := by
  refine le_readLevel ?_ (by decide)
  cases h with
  | binary hop => exact (prec_le_of_mem_all _ hop).1
  | _ => simp [Expr.prec, primaryPrec, unaryPrec]

/-- The text of an operand is an expression of the level that its place asks for. -/
theorem readsAs_operand (h : ReadsAs α e.readLevel e.text e) (hone : 1 ≤ e.readLevel)
    (hn : n ≤ unaryPrec) : ReadsAs α n (operand e e.text n) e := by
  unfold operand
  split
  · exact (h.lower hone).parens.lower (Nat.le_trans hn (by decide))
  · next hprec => exact h.lower (le_readLevel (Nat.not_lt.1 hprec) hn)

/-- The text of the function part of a call is an operand that nothing can take apart. -/
theorem readsAs_callee (h : ReadsAs α e.readLevel e.text e) (hone : 1 ≤ e.readLevel)
    (hcallee : e.isCallee = true) :
    ReadsAs α primaryPrec (if e.wrapsAsCallee then parens e.text else e.text) e := by
  split
  · exact (h.lower hone).parens
  · next hwraps =>
    have hlevel : e.readLevel = primaryPrec := by
      cases e with
      | star | unary => exact absurd rfl hwraps
      | ident | selector | paren | call => rfl
      | _ => cases hcallee
    exact hlevel ▸ h

/-- The text of an expression is read as the expression. -/
theorem Readable.readsAs (h : e.Readable α) : ReadsAs α e.readLevel e.text e := by
  induction h with
  | ident h => exact .ident h
  | int h => exact readLevel_int h ▸ .int h
  | negative h => exact readLevel_negative ▸ .negative h
  | paren hx ih => exact (ih.lower hx.one_le).parens
  | selector h hsel => exact .selector h hsel
  | star hx ih => exact .prefixed_of_opens (readsAs_operand ih hx.one_le (Nat.le_refl _)) (.inr rfl)
  | not hx ih => exact .prefixed_of_opens (readsAs_operand ih hx.one_le (Nat.le_refl _)) (.inl rfl)
  | addr h => exact .addr h
  | binary hop hx hy ihx ihy =>
    obtain ⟨-, hprec⟩ := prec_le_of_mem_all _ hop
    exact .binary hop (readsAs_operand ihx hx.one_le (Nat.le_of_succ_le hprec))
      (readsAs_operand ihy hy.one_le hprec)
  | call hcallee hfn hargs ihfn ihargs =>
    exact .call (readsAs_callee ihfn hfn.one_le hcallee)
      fun a ha => (ihargs a ha).lower (hargs a ha).one_le

theorem faults?_eq_none {args : List Expr} (h : ∀ a ∈ args, a.fault? = none) :
    Expr.faults? args = none := by
  induction args with
  | nil => rfl
  | cons a args ih =>
    obtain ⟨ha, hargs⟩ := List.forall_mem_cons.1 h
    rw [Expr.faults?, ha, ih hargs]
    rfl

theorem fault?_binary {op : BinaryOp} (hop : op ∈ BinaryOp.all) (hx : x.fault? = none)
    (hy : y.fault? = none) : (binary x op y).fault? = none := by
  have hforeign : ∀ symbol, op ≠ .foreign symbol := by
    rintro symbol rfl
    simp [BinaryOp.all] at hop
  unfold Expr.fault?
  split
  · next symbol => exact absurd rfl (hforeign symbol)
  · rw [hx, hy]
    rfl

/-- Such an expression is printed. -/
theorem Readable.fault?_eq_none (h : e.Readable α) : e.fault? = none := by
  induction h with
  | ident | int | negative | selector | addr => rfl
  | paren _ ih | star _ ih | not _ ih => exact ih
  | binary hop _ _ ihx ihy => exact fault?_binary hop ihx ihy
  | @call fn args _ _ _ ihfn ihargs =>
    rw [Expr.fault?, ihfn, faults?_eq_none ihargs]
    rfl

/-- **Printed expressions are read back as the same tree.** -/
theorem Readable.read_back (h : e.Readable α) :
    Printer.expr e = .ok e.text ∧
      ∃ x, (∀ y, α.IsExpr e.text y ↔ y = x) ∧ x.core = e.core := by
  refine ⟨by rw [Printer.expr, h.fault?_eq_none, Printer.guarded], ?_⟩
  obtain ⟨-, ts, x, hts, hx, hcore⟩ := h.readsAs.lower h.one_le
  have hexpr : α.IsExpr e.text x := ⟨ts, (hts [] nofun).tokens_eq, hx⟩
  refine ⟨x, fun y => ⟨fun hy => hy.unique hexpr, ?_⟩, hcore⟩
  rintro rfl
  exact hexpr

end Expr

namespace Printed

/-- No letters or digits beyond ASCII. -/
def ascii : Alphabet := { letter := fun _ => false, digit := fun _ => false }

/-- The function that a pointer points to is called with a difference on the right of another, and
with a comparison that is negated. -/
def sample : Expr :=
  .call (.star (.ident "p"))
    [.binary (.ident "a") .sub (.binary (.ident "b") .sub (.ident "c")),
      .unary .not (.binary (.selector (.ident "x") "n") .eq (.lit .int "-5"))]

theorem readable_sample : sample.Readable ascii := by
  have five : (Expr.lit .int ("-" ++ "5")).Readable ascii := .negative (by decide)
  refine .call rfl (.star (.ident (by decide))) ?_
  refine List.forall_mem_cons.2 ⟨?_, List.forall_mem_singleton.2 ?_⟩
  · exact .binary (by decide) (.ident (by decide))
      (.binary (by decide) (.ident (by decide)) (.ident (by decide)))
  · exact .not (.binary (by decide) (.selector (by decide) (by decide))
      five)

/-- Its text has parentheses around three operands, and is read as the same tree. -/
theorem sample_read_back :
    sample.Readable ascii ∧
      Printer.expr sample = .ok "(*p)(a - (b - c), !(x.n == -5))" ∧
      ∃ x, (∀ y, ascii.IsExpr "(*p)(a - (b - c), !(x.n == -5))" y ↔ y = x) ∧
        x.core = sample.core := by
  have htext : sample.text = "(*p)(a - (b - c), !(x.n == -5))" := by decide
  obtain ⟨hprinted, hread⟩ := readable_sample.read_back
  rw [htext] at hprinted hread
  exact ⟨readable_sample, hprinted, hread⟩

end Printed

end GoLift.Go
