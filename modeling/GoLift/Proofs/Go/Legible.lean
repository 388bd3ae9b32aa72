import GoLift.Proofs.Go.Pieces
import GoLift.Proofs.Go.Readback
import Mathlib.Data.List.TakeWhile

/-!
# How expressions look in a line

Whatever the names, numbers and operators of an expression are, **its text has no separator outside
of its brackets, its brackets match, and it does not begin like a statement**
(`Expr.Legal.legible`). Types count as expressions here: conversions and declarations name them.
-/

set_option autoImplicit false

namespace GoLift.Go

variable {a b text : String}

/-! ### How a text starts -/

/-- The words that statements begin with, other than expressions and assignments. -/
def statementWords : List String :=
  ["var", "if", "for", "return", "break"]

/-- A text begins like an expression: neither with a blank, a brace nor a word of a statement. -/
def Starts (α : Alphabet) (text : String) : Prop :=
  (∃ c cs, text.toList = c :: cs ∧ c ∉ ['\t', ' ', '\x7d']) ∧
    String.ofList (text.toList.takeWhile α.isWordChar) ∉ statementWords

/-- Does a character begin neither a blank, a brace nor a word of a statement? -/
def mayBegin (c : Char) : Bool :=
  !(['\t', ' ', '\x7d', 'v', 'i', 'f', 'r', 'b'].contains c)

theorem mayBegin_iff {c : Char} :
    mayBegin c = true ↔ c ∉ ['\t', ' ', '\x7d', 'v', 'i', 'f', 'r', 'b'] := by
  simp [mayBegin]

namespace Starts

variable {α : Alphabet}

theorem head_ne (h : Starts α text) :
    text.toList.head? ≠ some '\t' ∧ text.toList.head? ≠ some '\x7d' := by
  obtain ⟨⟨c, cs, hchars, hc⟩, -⟩ := h
  simp only [List.mem_cons, List.not_mem_nil, or_false, not_or] at hc
  rw [hchars, List.head?_cons]
  exact ⟨fun h => hc.1 (Option.some.inj h), fun h => hc.2.2 (Option.some.inj h)⟩

/-- A word is read to its end if no character of a word follows. -/
theorem append {c : Char} {cs : List Char} (ha : Starts α a) (hb : b.toList = c :: cs)
    (hc : α.isWordChar c = false) : Starts α (a ++ b) := by
  obtain ⟨⟨d, ds, hchars, hd⟩, hword⟩ := ha
  refine ⟨⟨d, ds ++ b.toList, by rw [String.toList_append, hchars, List.cons_append], hd⟩, ?_⟩
  have hnil : b.toList.takeWhile α.isWordChar = [] := by
    rw [hb, List.takeWhile_cons, hc]
    rfl
  have hsame : (a ++ b).toList.takeWhile α.isWordChar = a.toList.takeWhile α.isWordChar := by
    rw [String.toList_append, List.takeWhile_append, hnil, List.append_nil]
    split
    · next hall => exact ((List.takeWhile_prefix _).eq_of_length hall).symm
    · rfl
  rw [hsame]
  exact hword

/-- A word that no statement begins with. -/
theorem word {name : String} (hne : name ≠ "") (hall : ∀ c ∈ name.toList, α.isWordChar c = true)
    (h : name ∉ statementWords) : Starts α name := by
  have hmarks : ∀ c ∈ ['\t', ' ', '\x7d'], α.isWordChar c = false := by
    simp only [List.forall_mem_cons]
    exact ⟨rfl, rfl, rfl, nofun⟩
  obtain ⟨c, cs, hchars⟩ : ∃ c cs, name.toList = c :: cs :=
    List.exists_cons_of_ne_nil (by simpa using hne)
  refine ⟨⟨c, cs, hchars, fun hc => ?_⟩, ?_⟩
  · have hword : α.isWordChar c = true := hall c (hchars ▸ List.mem_cons_self)
    rw [hmarks c hc] at hword
    cases hword
  · rw [List.takeWhile_eq_self_iff.2 hall, String.ofList_toList]
    exact h

/-- A text whose first character begins neither a blank, a brace nor a word of a statement. -/
theorem of_head {c : Char} {cs : List Char} (hchars : text.toList = c :: cs)
    (hc : mayBegin c = true) : Starts α text := by
  have hheads : ∀ w ∈ statementWords, w.toList.head?.any mayBegin = false ∧ w.toList ≠ [] := by
    decide
  refine ⟨⟨c, cs, hchars, fun hmem => ?_⟩, fun hword => ?_⟩
  · simp only [List.mem_cons, List.not_mem_nil, or_false] at hmem
    rcases hmem with rfl | rfl | rfl <;> cases hc
  · obtain ⟨hhead, hne⟩ := hheads _ hword
    rw [String.toList_ofList, hchars, List.takeWhile_cons] at hhead hne
    split at hhead
    · rw [List.head?_cons, Option.any_some, hc] at hhead
      cases hhead
    · next h => exact hne (if_neg h)

end Starts

/-! ### The expressions in question -/

/-- May a character stand in a number with a sign or an exponent? -/
def isNumeralChar (c : Char) : Bool :=
  isNumberChar c || c == '+' || c == '-'

/-- Does a text begin like a number and have no other characters than numbers do? Numbers of all
bases are such texts, with or without a sign, a fraction or an exponent. -/
def isNumeral : List Char → Bool
  | [] => false
  | c :: cs => (c.isDigit || c == '.' || c == '-') && cs.all isNumeralChar

/-- Expressions, types among them, of identifiers, numbers and operators. -/
inductive Expr.Legal (α : Alphabet) : Expr → Prop
  | ident {name : String} (h : α.isIdent name = true) : Legal α (.ident name)
  /-- The type of everything, which is spelled like an identifier. -/
  | anything : Legal α (.ident "interface\x7b\x7d")
  | number {kind : LitKind} {text : String} (h : isNumeral text.toList = true) :
      Legal α (.lit kind text)
  /-- The message of a place that is never reached. -/
  | unreachable {kind : LitKind} : Legal α (.lit kind "\"unreachable\"")
  | paren {x : Expr} (hx : Legal α x) : Legal α (.paren x)
  | selector {x : Expr} {sel : String} (hx : Legal α x) (hsel : α.isIdent sel = true) :
      Legal α (.selector x sel)
  | star {x : Expr} (hx : Legal α x) : Legal α (.star x)
  | unary {op : UnaryOp} {x : Expr} (hop : op.symbol ∈ prefixOps) (hx : Legal α x) :
      Legal α (.unary op x)
  | binary {x y : Expr} {op : BinaryOp} (hop : op ∈ BinaryOp.all) (hx : Legal α x)
      (hy : Legal α y) : Legal α (.binary x op y)
  | call {fn : Expr} {args : List Expr} (hfn : Legal α fn) (hargs : ∀ a ∈ args, Legal α a) :
      Legal α (.call fn args)
  | composite {type : Expr} {elts : List Expr} (htype : Legal α type)
      (helts : ∀ e ∈ elts, Legal α e) : Legal α (.composite type elts)
  | ellipsis {elt : Expr} (helt : Legal α elt) : Legal α (.ellipsis elt)
  | array {len elt : Expr} (hlen : Legal α len) (helt : Legal α elt) : Legal α (.array len elt)
  | func {params results : List FieldDecl}
      (hnames : ∀ names type, .mk names type ∈ params ++ results → ∀ n ∈ names, α.isIdent n = true)
      (htypes : ∀ names type, .mk names type ∈ params ++ results → Legal α type) :
      Legal α (.func params results)
  | struct {fields : List FieldDecl}
      (hnames : ∀ names type, .mk names type ∈ fields → ∀ n ∈ names, α.isIdent n = true)
      (htypes : ∀ names type, .mk names type ∈ fields → Legal α type) : Legal α (.struct fields)

/-- A text in which an expression is recognized. -/
structure Legible (α : Alphabet) (text : String) : Prop where
  solid : Solid text
  starts : Starts α text

variable {α : Alphabet}

/-- A kind of characters without any of those that a scan looks at. -/
theorem isPlain_of {p : Char → Bool} (h : marks.all (fun m => !p m) = true) {c : Char}
    (hc : p c = true) : isPlain c = true := by
  rw [isPlain_iff]
  intro hmem
  have hnot := List.all_eq_true.1 h c hmem
  rw [hc] at hnot
  cases hnot

/-- No scan looks at a character of a word. -/
theorem isPlain_of_isWordChar {c : Char} (h : α.isWordChar c = true) : isPlain c = true :=
  isPlain_of (p := α.isWordChar) rfl h

theorem word_of_isIdent {name : String} (h : α.isIdent name = true) :
    name ≠ "" ∧ (∀ c ∈ name.toList, α.isWordChar c = true) ∧ name ∉ goKeywords := by
  unfold Alphabet.isIdent at h
  split at h
  · cases h
  · next c cs hname =>
    obtain ⟨⟨hc, hcs⟩, hkeyword⟩ := by simpa only [Bool.and_eq_true] using h
    refine ⟨fun hempty => ?_, fun d hd => ?_, by simpa using hkeyword⟩
    · rw [hempty] at hname
      cases hname
    · rw [hname] at hd
      rcases List.mem_cons.1 hd with rfl | hd
      · simp [Alphabet.isWordChar, hc]
      · exact List.all_eq_true.1 hcs d hd

namespace Legible

theorem word {name : String} (hne : name ≠ "") (hall : ∀ c ∈ name.toList, α.isWordChar c = true)
    (h : name ∉ statementWords) : Legible α name :=
  ⟨.plain hne (List.all_eq_true.2 fun c hc => isPlain_of_isWordChar (hall c hc)),
    .word hne hall h⟩

theorem ident {name : String} (h : α.isIdent name = true) : Legible α name := by
  have hwords : ∀ w ∈ statementWords, w ∈ goKeywords := by
    decide
  obtain ⟨hne, hall, hkeyword⟩ := word_of_isIdent h
  exact word hne hall fun hmem => hkeyword (hwords name hmem)

/-- The keywords that types begin with. -/
theorem typeWord : ∀ w ∈ ["interface", "func", "struct"], Legible α w := by
  have hwords : ∀ w ∈ ["interface", "func", "struct"],
      w ≠ "" ∧ w ∉ statementWords ∧ w.toList.all Char.isAlpha = true := by
    decide
  intro w hw
  obtain ⟨hne, hstatement, hletters⟩ := hwords w hw
  refine word hne (fun c hc => ?_) hstatement
  simp [Alphabet.isWordChar, Alphabet.isLetter, List.all_eq_true.1 hletters c hc]

/-- The message of a place that is never reached. -/
theorem message : Legible α "\"unreachable\"" :=
  ⟨.plain (by decide) (by decide), .of_head (c := '"') rfl (by decide)⟩

theorem number {text : String} (h : isNumeral text.toList = true) : Legible α text := by
  cases hchars : text.toList with
  | nil =>
    rw [hchars] at h
    cases h
  | cons c cs =>
    rw [hchars] at h
    obtain ⟨hc, hcs⟩ := Bool.and_eq_true_iff.1 h
    have hfirst : isNumeralChar c = true := by
      simp only [Bool.or_eq_true, beq_iff_eq] at hc
      rcases hc with (hc | rfl) | rfl
      · simp [isNumeralChar, isNumberChar_of_isDigit hc]
      · rfl
      · rfl
    have hplain : ∀ d ∈ c :: cs, isPlain d = true := by
      intro d hd
      have hall : (c :: cs).all isNumeralChar = true := Bool.and_eq_true_iff.2 ⟨hfirst, hcs⟩
      exact isPlain_of (by decide) (List.all_eq_true.1 hall d hd)
    refine ⟨.plain (fun hempty => ?_) (hchars ▸ List.all_eq_true.2 hplain), .of_head hchars ?_⟩
    · rw [hempty] at hchars
      cases hchars
    · rw [mayBegin_iff]
      intro hmem
      simp only [List.mem_cons, List.not_mem_nil, or_false] at hmem
      rcases hmem with rfl | rfl | rfl | rfl | rfl | rfl | rfl | rfl <;> cases hc

/-- A text goes on behind what is recognized, unless this goes on with the word. -/
theorem append {c : Char} {cs : List Char} (ha : Legible α a) (hb : Solid b)
    (hchars : b.toList = c :: cs) (hc : α.isWordChar c = false) : Legible α (a ++ b) :=
  ⟨ha.solid.append hb, ha.starts.append hchars hc⟩

theorem parens (h : Inner text) : Legible α (Go.parens text) :=
  ⟨h.parens, .of_head (parens_toList text) (by decide)⟩

theorem operand {x : Expr} (h : Legible α text) (prec : Nat) :
    Legible α (Go.operand x text prec) := by
  unfold Go.operand
  split
  · exact parens h.solid.inner
  · exact h

/-- An operator in front of an operand. -/
theorem prefixed {s : String} (hs : s ∈ "..." :: prefixOps) (h : Legible α text) :
    Legible α (s ++ text) := by
  have hops : ∀ s ∈ "..." :: prefixOps, s ≠ "" ∧ s.toList.all isPlain = true ∧
      s.toList.head?.any mayBegin = true := by
    decide
  obtain ⟨hne, hplain, hhead⟩ := hops s hs
  obtain ⟨c, hc, hbegin⟩ := (Option.any_eq_true _ _).1 hhead
  obtain ⟨cs, hchars⟩ := List.head?_eq_some_iff.1 hc
  have hstart : (s ++ text).toList = c :: (cs ++ text.toList) := by
    rw [String.toList_append, hchars, List.cons_append]
  exact ⟨(Solid.plain hne hplain).append h.solid, .of_head hstart hbegin⟩

end Legible

/-! ### Expressions are legible -/

theorem texts_eq_map (es : List Expr) : Expr.texts es = es.map Expr.text := by
  induction es with
  | nil => rfl
  | cons e es ih => rw [Expr.texts, ih, List.map_cons]

theorem forall_mem_texts {es : List Expr} {P : String → Prop} :
    (∀ t ∈ Expr.texts es, P t) ↔ ∀ e ∈ es, P e.text := by
  rw [texts_eq_map, List.forall_mem_map]

theorem mem_fieldTexts {fs : List FieldDecl} {t : String} (h : t ∈ FieldDecl.texts fs) :
    ∃ names type, .mk names type ∈ fs ∧ fieldText names type.text = t := by
  induction fs with
  | nil => cases h
  | cons f fs ih =>
    rcases List.mem_cons.1 h with rfl | h
    · obtain ⟨names, type⟩ := f
      exact ⟨names, type, List.mem_cons_self, rfl⟩
    · obtain ⟨names, type, hf, ht⟩ := ih h
      exact ⟨names, type, List.mem_cons_of_mem _ hf, ht⟩

/-- The expressions of a list between brackets. -/
theorem inner_texts {es : List Expr} (h : ∀ e ∈ es, Legible α e.text) :
    Inner (", ".intercalate (Expr.texts es)) :=
  .intercalate (by decide) (forall_mem_texts.2 fun e he => (h e he).solid.inner)

/-- The fields of a list between brackets. -/
theorem inner_fieldTexts {fs : List FieldDecl} {sep : String} (hsep : sep ∈ [" ", ", ", "; "])
    (hnames : ∀ names type, .mk names type ∈ fs → ∀ n ∈ names, α.isIdent n = true)
    (htypes : ∀ names type, .mk names type ∈ fs → Legible α type.text) :
    Inner (sep.intercalate (FieldDecl.texts fs)) := by
  refine .intercalate hsep fun t ht => ?_
  obtain ⟨names, type, hf, rfl⟩ := mem_fieldTexts ht
  have htype := (htypes names type hf).solid.inner
  unfold fieldText
  split
  · exact htype
  · have hwords : Inner (", ".intercalate names) :=
      .intercalate (by decide) fun n hn => (Legible.ident (hnames names type hf n hn)).solid.inner
    exact (hwords.append (.separator " " (by decide))).append htype

/-- Parameters are in parentheses, and so are results other than a single type. -/
theorem solid_signatureText {params results : List FieldDecl}
    (hnames : ∀ names type, .mk names type ∈ params ++ results → ∀ n ∈ names, α.isIdent n = true)
    (htypes : ∀ names type, .mk names type ∈ params ++ results → Legible α type.text) :
    Solid (signatureText results (FieldDecl.texts params) (FieldDecl.texts results)) := by
  have hparams : Solid (parens (", ".intercalate (FieldDecl.texts params))) :=
    (inner_fieldTexts (by decide)
      (fun names type hf => hnames names type (List.mem_append_left _ hf))
      (fun names type hf => htypes names type (List.mem_append_left _ hf))).parens
  have hresults : Inner (", ".intercalate (FieldDecl.texts results)) :=
    inner_fieldTexts (by decide)
      (fun names type hf => hnames names type (List.mem_append_right _ hf))
      (fun names type hf => htypes names type (List.mem_append_right _ hf))
  cases results with
  | nil => exact hparams
  | cons r rs =>
    cases rs with
    | nil =>
      obtain ⟨names, type⟩ := r
      show Solid (if names.isEmpty then _ else _)
      split
      · next hnil =>
        have hmem : FieldDecl.mk names type ∈ params ++ [.mk names type] := by simp
        have htext : (FieldDecl.mk names type).text = type.text := by
          rw [FieldDecl.text, fieldText, if_pos hnil]
        rw [htext]
        exact hparams.blank (htypes names type hmem).solid
      · exact hparams.blank hresults.parens
    | cons r' rs => exact hparams.blank hresults.parens

theorem signatureText_toList (results : List FieldDecl) (paramTexts resultTexts : List String) :
    ∃ cs, (signatureText results paramTexts resultTexts).toList = '(' :: cs := by
  have happend : ∀ text more : String, ∃ cs, (parens text ++ more).toList = '(' :: cs := by
    intro text more
    exact ⟨_, by rw [String.toList_append, parens_toList, List.cons_append]⟩
  unfold signatureText
  split
  · exact ⟨_, parens_toList _⟩
  · split <;> (rw [String.append_assoc]; exact happend _ _)
  · rw [String.append_assoc]
    exact happend _ _

/-- **The text of an expression has no separator outside of its brackets, which match, and does not
begin like a statement.** -/
theorem Expr.Legal.legible {x : Expr} (h : x.Legal α) : Legible α x.text := by
  -- Either a mark stands in front, or the text starts as its first part does: what goes on behind
  -- the part is no character of a word.
  induction h with
  | ident h => exact .ident h
  | anything =>
    exact (Legible.typeWord "interface" (by decide)).append .noContent rfl rfl
  | number h => exact .number h
  | unreachable => exact .message
  | paren _ ih => exact .parens ih.solid.inner
  | @selector x sel _ hsel ih =>
    have hpoint : Solid ("." ++ sel) :=
      (Solid.plain (by decide) (by decide)).append (Legible.ident hsel).solid
    rw [Expr.text, String.append_assoc]
    exact (ih.operand _).append hpoint String.toList_append rfl
  | star _ ih => exact .prefixed (by decide) (ih.operand _)
  | unary hop _ ih => exact .prefixed (List.mem_cons_of_mem _ hop) (ih.operand _)
  | @binary x y op hop _ _ ihx ihy =>
    have hx := ihx.operand (x := x) op.prec
    have hy := ihy.operand (x := y) (op.prec + 1)
    refine ⟨.spaced hop hx.solid hy.solid, ?_⟩
    rw [Expr.text, String.append_assoc, String.append_assoc, String.append_assoc]
    exact hx.starts.append String.toList_append rfl
  | @call fn args _ _ ihfn ihargs =>
    have hfn : Legible α (if fn.wrapsAsCallee then parens fn.text else fn.text) := by
      split
      · exact .parens ihfn.solid.inner
      · exact ihfn
    exact hfn.append (inner_texts ihargs).parens (parens_toList _) rfl
  | @composite type elts _ _ ihtype ihelts =>
    have htext : (Expr.composite type elts).text =
        type.text ++ ("\x7b" ++ ", ".intercalate (Expr.texts elts) ++ "\x7d") := by
      simp only [Expr.text, String.append_assoc]
    rw [htext]
    exact ihtype.append (inner_texts ihelts).braces (enclosed_toList (o := '\x7b') rfl _ _) rfl
  | ellipsis _ ih => exact .prefixed (by decide) ih
  | @array len elt _ _ ihlen ihelt =>
    have hlen : Solid ("[" ++ len.text ++ "]") := ihlen.solid.inner.enclosed (o := '[') rfl rfl rfl
    have hchars : (Expr.array len elt).text.toList =
        '[' :: (len.text.toList ++ "]".toList ++ elt.text.toList) := by
      rw [Expr.text, String.toList_append, enclosed_toList (o := '[') rfl, List.cons_append]
    exact ⟨hlen.append ihelt.solid, .of_head hchars (by decide)⟩
  | @func params results hnames _ ih =>
    obtain ⟨cs, hchars⟩ := signatureText_toList results (FieldDecl.texts params)
      (FieldDecl.texts results)
    exact (Legible.typeWord "func" (by decide)).append (solid_signatureText hnames ih) hchars rfl
  | @struct fields hnames _ ih =>
    rw [Expr.text]
    split
    · exact (Legible.typeWord "struct" (by decide)).append .noContent rfl rfl
    · have hfields : Inner (" " ++ "; ".intercalate (FieldDecl.texts fields) ++ " ") :=
        ((Inner.separator " " (by decide)).append (inner_fieldTexts (by decide) hnames ih)).append
          (.separator " " (by decide))
      have htext : "struct\x7b " ++ "; ".intercalate (FieldDecl.texts fields) ++ " \x7d" =
          "struct" ++
            ("\x7b" ++ (" " ++ "; ".intercalate (FieldDecl.texts fields) ++ " ") ++ "\x7d") := by
        have hopening : "struct\x7b " = "struct" ++ ("\x7b" ++ " ") := by
          decide
        have hclosing : " \x7d" = " " ++ "\x7d" := by
          decide
        simp only [hopening, hclosing, String.append_assoc]
      rw [htext]
      exact (Legible.typeWord "struct" (by decide)).append hfields.braces
        (enclosed_toList (o := '\x7b') rfl _ _) rfl

theorem FieldDecl.faults?_eq_none {fs : List FieldDecl}
    (h : ∀ names type, .mk names type ∈ fs → type.fault? = none) :
    FieldDecl.faults? fs = none := by
  induction fs with
  | nil => rfl
  | cons f fs ih =>
    obtain ⟨names, type⟩ := f
    rw [FieldDecl.faults?, FieldDecl.fault?, h names type List.mem_cons_self,
      ih fun names type hf => h names type (List.mem_cons_of_mem _ hf)]
    rfl

/-- Such an expression is printed. -/
theorem Expr.Legal.fault?_eq_none {x : Expr} (h : x.Legal α) : x.fault? = none := by
  induction h with
  | ident | anything | number | unreachable => rfl
  | paren _ ih | selector _ _ ih | star _ ih | unary _ _ ih | ellipsis _ ih => exact ih
  | binary hop _ _ ihx ihy => exact Expr.fault?_binary hop ihx ihy
  | call _ _ ih ihs | composite _ _ ih ihs =>
    rw [Expr.fault?, ih, Expr.faults?_eq_none ihs]
    rfl
  | array _ _ ihlen ihelt =>
    rw [Expr.fault?, ihlen, ihelt]
    rfl
  | func _ _ ih =>
    rw [Expr.fault?,
      FieldDecl.faults?_eq_none fun names type hf => ih names type (List.mem_append_left _ hf),
      FieldDecl.faults?_eq_none fun names type hf => ih names type (List.mem_append_right _ hf)]
    rfl
  | struct _ _ ih => exact FieldDecl.faults?_eq_none ih

end GoLift.Go
