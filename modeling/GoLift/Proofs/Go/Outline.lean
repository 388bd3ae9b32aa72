import GoLift.Proofs.Go.Legible

/-!
# Statements and their lines

The statements that bodies are made of, and what a line of their text says.

The `outline` of a statement is its tree with nothing but the text of each expression. It keeps
everything that is printed (`Stmt.Emitted.lines_outline`), and **a statement of one line is read from
its line as its outline** (`Reading.exists_printsAs`): the first word tells what kind of statement it
is, and the pieces of the line are its expressions.
-/

set_option autoImplicit false

namespace GoLift.Go

/-! ### The statements in question -/

/-- Statements of one line. -/
inductive Stmt.Simple (α : Alphabet) : Stmt → Prop
  | set {lhs rhs : Expr} (hlhs : lhs.Legal α) (hrhs : rhs.Legal α) : Simple α (.set lhs rhs)
  | expr {x : Expr} (hx : x.Legal α) : Simple α (.expr x)
  /-- The declaration of a variable, with a type, a value or both. -/
  | var {name : String} {type value : Option Expr} (hname : α.isIdent name = true)
      (htype : ∀ t ∈ type, t.Legal α) (hvalue : ∀ v ∈ value, v.Legal α) :
      Simple α (.decl { tok := "var", specs := [.value [name] type value.toList] })
  | ret {results : List Expr} (hresults : ∀ x ∈ results, x.Legal α) : Simple α (.ret results)
  | leave : Simple α (.branch "break")

mutual

/-- Statements as bodies are made of. -/
inductive Stmt.Emitted (α : Alphabet) : Stmt → Prop
  | simple {s : Stmt} (hs : s.Simple α) : Emitted α s
  | loop {cond : Option Expr} {body : List Stmt} (hcond : ∀ c ∈ cond, c.Legal α)
      (hbody : AllEmitted α body) : Emitted α (.loop cond body)
  | ifElse {cond : Expr} {body : List Stmt} {orElse : Option Stmt} (hcond : cond.Legal α)
      (hbody : AllEmitted α body) (helse : ElseEmitted α orElse) :
      Emitted α (.ifElse cond body orElse)

/-- Lists of such statements. -/
inductive Stmt.AllEmitted (α : Alphabet) : List Stmt → Prop
  | nil : AllEmitted α []
  | cons {s : Stmt} {ss : List Stmt} (hs : Emitted α s) (hss : AllEmitted α ss) :
      AllEmitted α (s :: ss)

/-- What may stand for an else-branch: nothing, a block, or an if that continues the chain. -/
inductive Stmt.ElseEmitted (α : Alphabet) : Option Stmt → Prop
  | none : ElseEmitted α none
  | block {body : List Stmt} (hbody : AllEmitted α body) : ElseEmitted α (some (.block body))
  | chain {cond : Expr} {body : List Stmt} {orElse : Option Stmt} (hcond : cond.Legal α)
      (hbody : AllEmitted α body) (helse : ElseEmitted α orElse) :
      ElseEmitted α (some (.ifElse cond body orElse))

end

/-! ### Outlines -/

/-- An expression of which only the text is left. -/
def Expr.outline (e : Expr) : Expr := .ident e.text

/-- A spec with nothing but the texts of its expressions. -/
def Spec.outline : Spec → Spec
  | .value names type values => .value names (type.map Expr.outline) (values.map Expr.outline)
  | spec => spec

mutual

/-- A statement with nothing but the texts of its expressions. -/
def Stmt.outline : Stmt → Stmt
  | .assign lhs tok rhs => .assign (lhs.map Expr.outline) tok (rhs.map Expr.outline)
  | .expr x => .expr x.outline
  | .block body => .block (Stmt.outlines body)
  | .ifElse cond body orElse => .ifElse cond.outline (Stmt.outlines body) (Stmt.elseOutline orElse)
  | .loop cond body => .loop (cond.map Expr.outline) (Stmt.outlines body)
  | .branch tok => .branch tok
  | .ret results => .ret (results.map Expr.outline)
  | .decl d => .decl { d with specs := d.specs.map Spec.outline }
  | .foreign kind => .foreign kind

/-- The outlines of a list of statements. -/
def Stmt.outlines : List Stmt → List Stmt
  | [] => []
  | s :: ss => s.outline :: Stmt.outlines ss

/-- The outline of an else-branch. -/
def Stmt.elseOutline : Option Stmt → Option Stmt
  | none => none
  | some s => some s.outline

end

theorem texts_outline (es : List Expr) : Expr.texts (es.map Expr.outline) = Expr.texts es := by
  rw [texts_eq_map, texts_eq_map, List.map_map]
  rfl

variable {α : Alphabet}

theorem Stmt.Simple.lines_outline {s : Stmt} (hs : s.Simple α) (d : Nat) :
    s.outline.lines d = s.lines d := by
  cases hs with
  | set | expr | leave => rfl
  | @var name type value => cases type <;> cases value <;> rfl
  | ret => rw [Stmt.outline, Stmt.lines, Stmt.lines, texts_outline, List.isEmpty_map]

mutual

/-- **An outline keeps everything that is printed.** -/
theorem Stmt.Emitted.lines_outline : ∀ {s : Stmt}, s.Emitted α →
    ∀ d, s.outline.lines d = s.lines d
  | _, .simple hs, d => hs.lines_outline d
  | .loop cond body, .loop _ hbody, d => by
    rw [Stmt.outline, Stmt.lines, Stmt.lines, hbody.bodyLines_outlines]
    cases cond <;> rfl
  | .ifElse cond body orElse, .ifElse _ hbody helse, d => by
    rw [Stmt.outline, Stmt.lines, Stmt.lines, hbody.bodyLines_outlines, helse.elseLines_outline]
    rfl

theorem Stmt.AllEmitted.bodyLines_outlines : ∀ {ss : List Stmt}, AllEmitted α ss →
    ∀ d, Stmt.bodyLines d (Stmt.outlines ss) = Stmt.bodyLines d ss
  | _, .nil, _ => rfl
  | _, .cons hs hss, d => by
    rw [Stmt.outlines, Stmt.bodyLines, Stmt.bodyLines, hs.lines_outline, hss.bodyLines_outlines]

theorem Stmt.ElseEmitted.elseLines_outline : ∀ {orElse : Option Stmt}, ElseEmitted α orElse →
    ∀ d, Stmt.elseLines d (Stmt.elseOutline orElse) = Stmt.elseLines d orElse
  | _, .none, _ => rfl
  | some (.block body), .block hbody, d => by
    rw [Stmt.elseOutline, Stmt.outline, Stmt.elseLines, Stmt.elseLines, hbody.bodyLines_outlines]
  | some (.ifElse cond body orElse), .chain _ hbody helse, d => by
    rw [Stmt.elseOutline, Stmt.outline, Stmt.elseLines, Stmt.elseLines, hbody.bodyLines_outlines,
      helse.elseLines_outline]
    rfl

end

theorem bind_fault?_eq_none {e : Option Expr} (h : ∀ x ∈ e, x.Legal α) :
    e.bind Expr.fault? = none := by
  cases e with
  | none => rfl
  | some x => exact (h x rfl).fault?_eq_none

theorem Stmt.Simple.fault?_eq_none {s : Stmt} (hs : s.Simple α) : s.fault? = none := by
  cases hs with
  | set hlhs hrhs =>
    simp only [Stmt.set, Stmt.fault?, Expr.faults?, hlhs.fault?_eq_none, hrhs.fault?_eq_none,
      Option.or_none]
  | expr hx => exact hx.fault?_eq_none
  | @var name type value _ htype hvalue =>
    have hvalues : Expr.faults? value.toList = none :=
      Expr.faults?_eq_none fun v hv => (hvalue v (Option.mem_toList.1 hv)).fault?_eq_none
    have hspec : Spec.fault? (.value [name] type value.toList) = none := by
      rw [Spec.fault?, bind_fault?_eq_none htype, hvalues]
      rfl
    rw [Stmt.fault?, GenDecl.fault?, List.findSome?_cons, hspec]
    rfl
  | ret hresults => exact Expr.faults?_eq_none fun x hx => (hresults x hx).fault?_eq_none
  | leave => rfl

mutual

/-- Such statements are printed. -/
theorem Stmt.Emitted.fault?_eq_none : ∀ {s : Stmt}, s.Emitted α → s.fault? = none
  | _, .simple hs => hs.fault?_eq_none
  | _, .loop hcond hbody => by
    rw [Stmt.fault?, bind_fault?_eq_none hcond, hbody.faults?_eq_none]
    rfl
  | _, .ifElse hcond hbody helse => by
    rw [Stmt.fault?, hcond.fault?_eq_none, hbody.faults?_eq_none, helse.elseFault?_eq_none]
    rfl

theorem Stmt.AllEmitted.faults?_eq_none : ∀ {ss : List Stmt}, AllEmitted α ss →
    Stmt.faults? ss = none
  | _, .nil => rfl
  | _, .cons hs hss => by
    rw [Stmt.faults?, hs.fault?_eq_none, hss.faults?_eq_none]
    rfl

theorem Stmt.ElseEmitted.elseFault?_eq_none : ∀ {orElse : Option Stmt}, ElseEmitted α orElse →
    Stmt.elseFault? orElse = none
  | _, .none => rfl
  | _, .block hbody => by
    rw [Stmt.elseFault?, Stmt.fault?, hbody.faults?_eq_none]
  | _, .chain hcond hbody helse => by
    rw [Stmt.elseFault?, Stmt.fault?, hcond.fault?_eq_none, hbody.faults?_eq_none,
      helse.elseFault?_eq_none]
    rfl

end

/-! ### Reading a line -/

namespace Reading

/-- What a line says. -/
inductive Line
  /-- A whole statement. -/
  | stmt (s : Stmt)
  | opensIf (cond : Expr)
  | opensLoop (cond : Option Expr)
  /-- The end of a branch, and the next condition of the chain. -/
  | elseIf (cond : Expr)
  /-- The end of a branch, and the beginning of the else-branch. -/
  | els
  | close

/-- An expression by its text. -/
def named (cs : List Char) : Expr :=
  .ident (.ofList cs)

/-- What stands between a blank and the brace behind it that opens a block. -/
def heading (cs : List Char) : List Char :=
  (cs.drop 1).dropLast.dropLast

/-- Read a declared name and its type behind a blank. -/
def readSpec (α : Alphabet) (cs : List Char) (values : List Expr) : Spec :=
  .value [.ofList ((cs.drop 1).takeWhile α.isWordChar)]
    (match (cs.drop 1).dropWhile α.isWordChar with
      | [] => none
      | _ :: type => some (named type))
    values

/-- Read what a declaration says behind its keyword. -/
def readVar (α : Alphabet) (cs : List Char) : Spec :=
  match pieces cs with
  | spec :: value :: _ => readSpec α spec.dropLast.dropLast [named value]
  | _ => readSpec α cs []

/-- Read what is returned, behind the keyword. -/
def readResults (cs : List Char) : List Expr :=
  if cs = [] then [] else (pieces cs).map (fun piece => named (piece.drop 1))

/-- Read an expression or an assignment. -/
def readPlain (cs : List Char) : Stmt :=
  match pieces cs with
  | lhs :: rhs :: _ => .set (named lhs.dropLast.dropLast) (named rhs)
  | _ => .expr (named cs)

/-- Read a line by the word that it begins with and what stands behind the word. -/
def readWord (α : Alphabet) (cs : List Char) (word : String) (rest : List Char) : Line :=
  match word with
  | "if" => .opensIf (named (heading rest))
  -- A blank and a brace alone leave no room for a condition.
  | "for" => .opensLoop (if rest.length = 2 then none else some (named (heading rest)))
  | "var" => .stmt (.decl { tok := "var", specs := [readVar α rest] })
  | "return" => .stmt (.ret (readResults rest))
  | "break" => .stmt (.branch "break")
  | _ => .stmt (readPlain cs)

/-- Read a line without its indentation. -/
def read (α : Alphabet) (cs : List Char) : Line :=
  if cs = "\x7d".toList then .close
  else if cs = "\x7d else \x7b".toList then .els
  else if cs.head? = some '\x7d' then .elseIf (named (heading (cs.drop 9)))
  else readWord α cs (.ofList (cs.takeWhile α.isWordChar)) (cs.dropWhile α.isWordChar)

/-- The head of a line that begins with a word of a statement. -/
theorem word_head {word : String} (hword : word ∈ statementWords) (rest : String) :
    (word ++ rest).toList.head? ≠ some '\t' ∧ (word ++ rest).toList.head? ≠ some '\x7d' := by
  have hheads : ∀ w ∈ statementWords, w.toList ≠ [] ∧
      w.toList.head? ≠ some '\t' ∧ w.toList.head? ≠ some '\x7d' := by
    decide
  obtain ⟨hne, hhead⟩ := hheads word hword
  rw [String.toList_append, List.head?_append_of_ne_nil _ hne]
  exact hhead

theorem read_of_head {cs : List Char} (h : cs.head? ≠ some '\x7d') :
    read α cs =
      readWord α cs (.ofList (cs.takeWhile α.isWordChar)) (cs.dropWhile α.isWordChar) := by
  unfold read
  rw [if_neg, if_neg, if_neg h]
  · rintro rfl
    exact h rfl
  · rintro rfl
    exact h rfl

theorem span_word {word rest : String} (hall : ∀ c ∈ word.toList, α.isWordChar c = true)
    (hrest : Alphabet.Stops α.isWordChar rest.toList) :
    (word ++ rest).toList.takeWhile α.isWordChar = word.toList ∧
      (word ++ rest).toList.dropWhile α.isWordChar = rest.toList := by
  rw [String.toList_append]
  exact ⟨Alphabet.takeWhile_append_of_stops hall hrest,
    Alphabet.dropWhile_append_of_stops hall hrest⟩

/-- A line that begins with a word of a statement is told by the word. -/
theorem read_word {word rest : String} (hword : word ∈ statementWords)
    (hrest : Alphabet.Stops α.isWordChar rest.toList) :
    read α (word ++ rest).toList = readWord α (word ++ rest).toList word rest.toList := by
  have hletters : ∀ w ∈ statementWords, w.toList.all Char.isAlpha = true := by
    decide
  have hall : ∀ c ∈ word.toList, α.isWordChar c = true :=
    fun c hc => by
      simp [Alphabet.isWordChar, Alphabet.isLetter, List.all_eq_true.1 (hletters word hword) c hc]
  obtain ⟨htake, hdrop⟩ := span_word hall hrest
  rw [read_of_head (word_head hword rest).2, htake, hdrop, String.ofList_toList]

/-- A line that begins like an expression is an expression or an assignment. -/
theorem read_starts {text : String} (h : Starts α text) :
    read α text.toList = .stmt (readPlain text.toList) := by
  obtain ⟨⟨c, cs, hchars, hc⟩, hword⟩ := h
  rw [read_of_head]
  · unfold readWord
    split
    all_goals first
      | rfl
      | next heq => exact absurd (heq ▸ by decide) hword
  · rw [hchars]
    intro hhead
    obtain rfl : c = '\x7d' := Option.some.inj hhead
    exact hc (by decide)

/-! ### Statements of one line -/

/-- A statement is printed on one line, from which its outline is read. -/
structure PrintsAs (α : Alphabet) (s : Stmt) (text : String) : Prop where
  lines : ∀ d, s.lines d = [tabs d ++ text]
  matched : Matched text
  head : text.toList.head? ≠ some '\t' ∧ text.toList.head? ≠ some '\x7d'
  read : read α text.toList = .stmt s.outline

theorem named_toList (e : Expr) : named e.text.toList = e.outline := by
  rw [named, String.ofList_toList]
  rfl

theorem dropLast_dropLast (cs : List Char) (a b : Char) :
    (cs ++ [a, b]).dropLast.dropLast = cs := by
  rw [List.append_cons, List.dropLast_concat, List.dropLast_concat]

theorem heading_eq (text : String) : heading (" " ++ (text ++ " \x7b")).toList = text.toList := by
  rw [heading, String.toList_append, String.toList_append]
  exact dropLast_dropLast text.toList ' ' '\x7b'

theorem printsAs_set {lhs rhs : Expr} (hlhs : lhs.Legal α) (hrhs : rhs.Legal α) :
    PrintsAs α (.set lhs rhs) (lhs.text ++ (" = " ++ rhs.text)) := by
  have hstarts : Starts α (lhs.text ++ (" = " ++ rhs.text)) :=
    hlhs.legible.starts.append String.toList_append rfl
  have hpieces : pieces (lhs.text ++ (" = " ++ rhs.text)).toList =
      [lhs.text.toList ++ [' ', '='], rhs.text.toList] := by
    rw [String.toList_append]
    exact pieces_assigned (hlhs.legible.solid [] .tight nofun) hrhs.legible.solid
  have hsign : Matched " = " := fun _ => rfl
  refine ⟨fun d => ?_, hlhs.legible.solid.matched.append (hsign.append hrhs.legible.solid.matched),
    hstarts.head_ne, ?_⟩
  · have hsign : " = " = " " ++ ("=" ++ " ") := by
      decide
    rw [hsign]
    simp only [Stmt.set, Stmt.lines, Expr.texts, String.intercalate_singleton, String.append_assoc]
  · rw [read_starts hstarts, readPlain, hpieces]
    show Line.stmt (.set (named (lhs.text.toList ++ [' ', '=']).dropLast.dropLast) _) = _
    rw [dropLast_dropLast, named_toList, named_toList]
    rfl

theorem printsAs_expr {x : Expr} (hx : x.Legal α) : PrintsAs α (.expr x) x.text := by
  refine ⟨fun d => rfl, hx.legible.solid.matched, hx.legible.starts.head_ne, ?_⟩
  rw [read_starts hx.legible.starts, readPlain,
    pieces_of_run (hx.legible.solid [] .tight nofun)]
  show Line.stmt (.expr (named _)) = _
  rw [named_toList]
  rfl

theorem stops_blank (text : String) : Alphabet.Stops α.isWordChar (" " ++ text).toList := by
  intro c hc
  rw [String.toList_append] at hc
  obtain rfl : ' ' = c := Option.some.inj hc
  rfl

theorem readResults_eq {x : Expr} {xs : List Expr} (h : ∀ y ∈ x :: xs, y.Legal α) :
    readResults (" " ++ ", ".intercalate (Expr.texts (x :: xs))).toList =
      (x :: xs).map Expr.outline := by
  have htexts : ∀ t ∈ Expr.texts (x :: xs), Solid t :=
    forall_mem_texts.2 fun y hy => (h y hy).legible.solid
  rw [String.toList_append]
  show (pieces (' ' :: (", ".intercalate (x.text :: Expr.texts xs)).toList)).map _ = _
  rw [pieces_intercalate htexts, ← Expr.texts, texts_eq_map, List.map_map, List.map_map]
  exact List.map_congr_left fun y _ => named_toList y

theorem printsAs_ret {results : List Expr} (hresults : ∀ x ∈ results, x.Legal α) :
    PrintsAs α (.ret results)
      ("return" ++ if results.isEmpty then "" else " " ++ ", ".intercalate (Expr.texts results)) := by
  have hword : Matched "return" := fun _ => rfl
  have hcomma : Matched ", " := fun _ => rfl
  have hmatched : Matched (" " ++ ", ".intercalate (Expr.texts results)) :=
    Matched.blank.append (hcomma.intercalate
      (forall_mem_texts.2 fun x hx => (hresults x hx).legible.solid.matched))
  refine ⟨fun d => by rw [Stmt.lines, String.append_assoc], ?_, word_head (by decide) _, ?_⟩
  · split
    · exact hword.append fun _ => rfl
    · exact hword.append hmatched
  · cases results with
    | nil => exact read_word (by decide) nofun
    | cons x xs =>
      rw [List.isEmpty_cons, if_neg Bool.false_ne_true, read_word (by decide) (stops_blank _)]
      show Line.stmt (.ret (readResults _)) = _
      rw [readResults_eq hresults]
      rfl

/-- The type of a declaration, behind a blank. -/
def typeText (type : Option Expr) : String :=
  (type.map (" " ++ ·.text)).getD ""

theorem solid_declared {name : String} {type : Option Expr} (hname : α.isIdent name = true)
    (htype : ∀ t ∈ type, t.Legal α) : Solid (name ++ typeText type) := by
  have hsolid := (Legible.ident hname).solid
  cases type with
  | none =>
    rw [typeText, Option.map_none, Option.getD_none, String.append_empty]
    exact hsolid
  | some t =>
    rw [typeText, Option.map_some, Option.getD_some, ← String.append_assoc]
    exact hsolid.blank (htype t rfl).legible.solid

theorem readSpec_eq {name : String} {type : Option Expr} (hname : α.isIdent name = true)
    (values : List Expr) :
    readSpec α (" " ++ (name ++ typeText type)).toList values =
      .value [name] (type.map Expr.outline) values := by
  have hstops : Alphabet.Stops α.isWordChar (typeText type).toList := by
    cases type with
    | none => exact nofun
    | some t => exact stops_blank t.text
  obtain ⟨htake, hdrop⟩ := span_word (word_of_isIdent hname).2.1 hstops
  have hblank : (" " ++ (name ++ typeText type)).toList.drop 1 =
      (name ++ typeText type).toList := by
    rw [String.toList_append]
    rfl
  rw [readSpec, hblank, htake, hdrop, String.ofList_toList]
  cases type with
  | none => rfl
  | some t =>
    have hchars : (typeText (some t)).toList = ' ' :: t.text.toList := by
      rw [typeText, Option.map_some, Option.getD_some, String.toList_append]
      rfl
    rw [hchars]
    show Spec.value [name] (some (named t.text.toList)) values = _
    rw [named_toList]
    rfl

/-- The value of a declaration, behind its sign. -/
def valueText (value : Option Expr) : String :=
  (value.map (" = " ++ ·.text)).getD ""

theorem specText_eq (name : String) (type value : Option Expr) :
    Spec.text (.value [name] type value.toList) = name ++ typeText type ++ valueText value := by
  cases value <;> rfl

theorem readVar_eq {name : String} {type value : Option Expr} (hname : α.isIdent name = true)
    (htype : ∀ t ∈ type, t.Legal α) (hvalue : ∀ v ∈ value, v.Legal α) :
    readVar α (" " ++ Spec.text (.value [name] type value.toList)).toList =
      .value [name] (type.map Expr.outline) (value.toList.map Expr.outline) := by
  have hrun : Scan.run {} (" " ++ (name ++ typeText type)).toList = some {} := by
    rw [String.toList_append]
    exact solid_declared hname htype [] .blank nofun
  rw [specText_eq]
  cases value with
  | none =>
    rw [valueText, Option.map_none, Option.getD_none, String.append_empty, readVar,
      pieces_of_run hrun]
    exact readSpec_eq hname []
  | some v =>
    have hpieces := pieces_assigned hrun (hvalue v rfl).legible.solid
    rw [← String.toList_append, String.append_assoc] at hpieces
    rw [valueText, Option.map_some, Option.getD_some, readVar, hpieces]
    show readSpec α (_ ++ [' ', '=']).dropLast.dropLast [named v.text.toList] = _
    rw [dropLast_dropLast, readSpec_eq hname, named_toList]
    rfl

theorem printsAs_var {name : String} {type value : Option Expr} (hname : α.isIdent name = true)
    (htype : ∀ t ∈ type, t.Legal α) (hvalue : ∀ v ∈ value, v.Legal α) :
    PrintsAs α (.decl { tok := "var", specs := [.value [name] type value.toList] })
      ("var" ++ (" " ++ Spec.text (.value [name] type value.toList))) := by
  have hword : Matched "var" := fun _ => rfl
  have hspec : Matched (Spec.text (.value [name] type value.toList)) := by
    rw [specText_eq]
    refine (solid_declared hname htype).matched.append ?_
    cases value with
    | none => exact fun _ => rfl
    | some v =>
      have hsign : Matched " = " := fun _ => rfl
      exact hsign.append (hvalue v rfl).legible.solid.matched
  refine ⟨fun d => ?_, hword.append (Matched.blank.append hspec), word_head (by decide) _, ?_⟩
  · show [tabs d ++ ("var" ++ " " ++ Spec.text _)] = _
    rw [String.append_assoc]
  · rw [read_word (by decide) (stops_blank _)]
    show Line.stmt (.decl { tok := "var", specs := [readVar α _] }) = _
    rw [readVar_eq hname htype hvalue]
    rfl

theorem printsAs_break : PrintsAs α (.branch "break") "break" := by
  have hread : read α ("break" ++ "").toList = .stmt (.branch "break") :=
    read_word (by decide) nofun
  rw [String.append_empty] at hread
  exact ⟨fun d => rfl, fun _ => rfl, by decide, hread⟩

/-- **A statement of one line is read from it.** -/
theorem exists_printsAs {s : Stmt} (hs : s.Simple α) : ∃ text, PrintsAs α s text := by
  cases hs with
  | set hlhs hrhs => exact ⟨_, printsAs_set hlhs hrhs⟩
  | expr hx => exact ⟨_, printsAs_expr hx⟩
  | var hname htype hvalue => exact ⟨_, printsAs_var hname htype hvalue⟩
  | ret hresults => exact ⟨_, printsAs_ret hresults⟩
  | leave => exact ⟨_, printsAs_break⟩

end Reading

end GoLift.Go
