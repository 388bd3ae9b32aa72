import GoLift.Proofs.Source.Jumps
import GoLift.Proofs.Source.Labels
import GoLift.Source.Reader
import Mathlib

/-!
# Labels and branches to them agree

The lines of a definition with a branch to its second block, as text (`Jump`). What is read of them
names the block and the branch alike exactly if the passes and the lexer spare the label
(`Jump.goesOnTo_iff`).
-/

set_option autoImplicit false

namespace GoLift.Source

open Parse Text

variable {n : Label} {cs : List Char}

/-! ### Lines -/

/-- Lines in normal form, a line feed behind each. -/
def normalLines (lines : List (List Char)) : List Char := lines.flatMap (normalOrEmpty · ++ ['\n'])

theorem normalLines_append (ls ms : List (List Char)) :
    normalLines (ls ++ ms) = normalLines ls ++ normalLines ms :=
  List.flatMap_append

theorem normalLines_cons (l : List Char) (ls : List (List Char)) :
    normalLines (l :: ls) = normalOrEmpty l ++ '\n' :: normalLines ls := by
  simp [normalLines]

theorem normalText_of_lines {text : List Char} (h : splitLines text ≠ []) :
    normalText text = normalLines (splitLines text) := by
  obtain ⟨l, ls, hlines⟩ := List.exists_cons_of_ne_nil h
  simp [normalText, normalLines, hlines, List.flatMap_map]

/-- Lines that are read to their end have the same tokens whatever follows. -/
theorem lexFrom_lines {lines : List (List Char)} (p : Position)
    (h : (lexFrom 0 p (normalLines lines)).stop = none) (rest : List Char) :
    lexFrom 0 p (normalLines lines ++ rest) =
      (lexFrom 0 (p.behind (normalLines lines)) rest).after
        (lexFrom 0 p (normalLines lines)).tokens := by
  obtain rfl | ⟨ls, l, rfl⟩ := List.eq_nil_or_concat' lines
  · simp [normalLines, lexFrom, Lexed.after]
  · have hlast : normalLines (ls ++ [l]) = normalLines ls ++ normalOrEmpty l ++ ['\n'] := by
      simp [normalLines]
    rw [hlast] at h ⊢
    simpa using lexFrom_append p (Nat.zero_le _) h rest

/-- A line is split off at its line feed. -/
theorem splitLines_line {line : List Char} (h : line.all (!isLineEnd ·) = true)
    (rest : List Char) : splitLines (line ++ '\n' :: rest) = line :: splitLines rest := by
  induction line with
  | nil =>
    have hend : isLineEnd '\n' = true := by decide
    simp [splitLines, hend]
  | cons c line ih =>
    simp only [List.all_cons, Bool.and_eq_true, Bool.not_eq_true'] at h
    have hreturn : c ≠ '\r' := by
      rintro rfl
      exact absurd h.1 (by decide)
    rw [List.cons_append, splitLines, h.1, if_neg (by simp), ih h.2]
    exact fun _ hr => absurd hr hreturn

/-- Lines are found in the text that is made of them. -/
theorem splitLines_lines {lines : List (List Char)}
    (h : lines.all (·.all (!isLineEnd ·)) = true) :
    splitLines (lines.flatMap (· ++ ['\n'])) = lines := by
  induction lines with
  | nil => rfl
  | cons line lines ih =>
    rw [List.all_cons, Bool.and_eq_true] at h
    rw [List.flatMap_cons, List.append_assoc, List.singleton_append, splitLines_line h.1, ih h.2]

theorem parseText_of_lex {tokens : List Token} {trees : List ItemTree}
    (hlex : lex cs = ⟨tokens, none⟩) (h : parseItems tokens = .ok trees) :
    parseText cs = .ok trees := by
  rw [parseText, hlex, h]

theorem parseText_eq_ok {trees : List ItemTree} (h : parseText cs = .ok trees) :
    (lex cs).stop = none ∧ parseItems (lex cs).tokens = .ok trees := by
  unfold parseText at h
  dsimp only at h
  split at h
  · next hparse hstop =>
    cases h
    exact ⟨hstop, hparse⟩
  · cases h
  · cases h

theorem readModule_eq_ok {name : String} {m : Module} (h : readModule name cs = .ok m) :
    ∃ trees, parseText (normalText cs) = .ok trees ∧ Build.module name trees = .ok m := by
  unfold readModule at h
  dsimp only at h
  split at h
  · next trees hparse => exact ⟨trees, hparse, h⟩
  · cases h

/-! ### Names -/

theorem ne_quote (hplain : ∀ c ∈ cs, isNameChar c = true) (ds : List Char) : cs ≠ '"' :: ds := by
  rintro rfl
  exact absurd (hplain _ List.mem_cons_self) (by decide)

theorem name_local {t : Token} (ht : t.terminal = .localName) (htext : t.text = '%' :: cs)
    (hplain : ∀ c ∈ cs, isNameChar c = true) : t.name = String.ofList cs := by
  rw [Token.name, ht, htext, List.drop_one, List.tail_cons]
  dsimp only
  split
  · next ds => exact absurd rfl (ne_quote hplain ds)
  · rfl

theorem name_labelDef {t : Token} (ht : t.terminal = .labelDef) (htext : t.text = cs ++ [':'])
    (hplain : ∀ c ∈ cs, isNameChar c = true) : t.name = String.ofList cs := by
  rw [Token.name, ht, htext]
  dsimp only
  rw [List.dropLast_concat]
  split
  · next ds => exact absurd rfl (ne_quote hplain ds)
  · rfl

/-! ### Definitions with a branch to the second block -/

/-- The line of a branch to a label. -/
def branchLine (indent : List Char) (n : Label) : List Char := indent ++ (branchTo ++ n.chars)

/-- The line of a label. -/
def labelLine (n : Label) : List Char := n.chars ++ [':']

/-- A definition whose first block ends in a branch to a label and whose second block has the label,
each on a line of its own. Between the two lines there is nothing to read. What stands before and
behind is well written, and can be built. -/
structure Jump (n : Label) where
  text : List Char
  opening : List (List Char)
  indent : List Char
  between : List (List Char)
  closing : List (List Char)
  lines : splitLines text =
    opening ++ branchLine indent n :: between ++ labelLine n :: closing
  indented : IsIndent indent
  -- What is read of the other lines.
  idle : ∀ p, lexFrom 0 p (normalLines between) = ⟨[], none⟩
  front : Opening
  back : Closing
  opens : lex (normalLines opening) = ⟨front.tokens, none⟩
  closes : lexFrom 0 (({} : Position).behind
      (normalLines (opening ++ branchLine indent n :: between ++ [labelLine n])))
    (normalLines closing) = ⟨back.tokens, none⟩
  -- What is built of it.
  head : Function
  instrs : List Instr
  second : Block
  others : List Block
  head_built : Build.header front.retTree front.name.name front.paramsTree {} = .ok (head, {})
  instrs_built : Build.instrs front.instrTrees {} = .ok (instrs, {})
  second_built : Build.block n.name back.block {} = .ok (second, {})
  others_built : Build.blocks back.blockTrees {} = .ok (others, {})
  labels_nodup : (front.label.name :: n.name :: back.blockTrees.map Prod.fst).Nodup

/-- What is read is one function, whose first block goes to a label, and the second block has it. -/
def GoesOnTo (label : String) (result : Except Fault Module) : Prop :=
  ∃ m f b c others, result = .ok m ∧ m.functions = [f] ∧ f.blocks = some (b :: c :: others) ∧
    b.terminator = some (.br label) ∧ c.name = label

/-! ### What becomes of a label -/

/-- What normal form leaves of a label in a branch. -/
def kept (n : Label) : List Char := eraseFrom comdat 0 (some '%') n.chars

theorem plain_kept : ∀ c ∈ kept n, isNameChar c = true :=
  fun c hc => n.plain c (eraseFrom_subset _ _ _ _ hc)

/-- A branch keeps its label if there is no comdat in it. -/
theorem kept_eq_iff : kept n = n.chars ↔ holdsWord "comdat".toList none n.chars = false := by
  have hstart : holdsWord "comdat".toList (some '%') n.chars =
      holdsWord "comdat".toList none n.chars := by
    have hsign : heldBy isWord (some '%') = heldBy isWord none := by decide
    cases n.chars with
    | nil => rfl
    | cons c cs => rw [holdsWord, holdsWord, hsign]
  rw [kept, eraseFrom_comdat_eq_self_iff n.plain, hstart]

/-- The line of a label that is spared is left as it is. -/
theorem normalOrEmpty_labelLine (h : spared n.chars = true) :
    normalOrEmpty (labelLine n) = labelLine n := by
  obtain ⟨cs, hne, hplain⟩ := n
  obtain ⟨c, cs, rfl⟩ := List.exists_cons_of_ne_nil hne
  simp only [spared, Bool.and_eq_true, Bool.not_eq_true'] at h
  obtain ⟨⟨⟨hcomdat, hidle⟩, hattribute⟩, -⟩ := h
  have hdropped : isDropped (c :: cs ++ [':']) = false := (isDropped_label hplain).trans hidle
  rw [normalOrEmpty, labelLine, hdropped, normalLine_label hplain hcomdat,
    erase_attributeWord_label hplain hattribute]
  rfl

/-- If what is read first from the line of a label is the label, the label is spared. Where the line
is dropped, it is what comes behind that is read. -/
theorem spared_of_labelLine (hcomdat : holdsWord "comdat".toList none n.chars = false)
    {p : Position} {rest : List Char}
    (hbehind : normalOrEmpty (labelLine n) = [] →
      Avoids [.labelDef] (lexFrom 0 (p.after '\n') rest).tokens)
    {t : Token} {ts : List Token}
    (h : (lexFrom 0 p (normalOrEmpty (labelLine n) ++ '\n' :: rest)).tokens = t :: ts)
    (ht : t.terminal = .labelDef) (hname : t.name = n.name) : spared n.chars = true := by
  obtain ⟨cs, hne, hplain⟩ := n
  obtain ⟨c, cs, rfl⟩ := List.exists_cons_of_ne_nil hne
  dsimp only [labelLine] at h hcomdat hbehind ⊢
  cases hidle : looksIdle (c :: cs) with
  | true =>
    have hdropped : isDropped (c :: cs ++ [':']) = true := (isDropped_label hplain).trans hidle
    have hempty : normalOrEmpty (c :: cs ++ [':']) = [] := by
      rw [normalOrEmpty, hdropped, if_pos rfl]
    rw [hempty, List.nil_append, lexFrom_space rfl] at h
    have hnext : next (t :: ts) = some .labelDef := congrArg some ht
    exact absurd (h ▸ hbehind hempty) (not_avoids_of_next hnext (List.mem_singleton_self _))
  | false =>
    have hdropped : isDropped (c :: cs ++ [':']) = false := (isDropped_label hplain).trans hidle
    rw [normalOrEmpty, hdropped, if_neg (by simp), normalLine_label hplain hcomdat] at h
    cases hattribute : looksAttribute (c :: cs) with
    | true =>
      obtain ⟨ds, hsuffix, hshort, herase⟩ := erase_attributeWord_shorter hplain hattribute
      rw [herase, List.append_assoc] at h
      have hds : ∀ d ∈ ds, isNameChar d = true := fun d hd => hplain d (hsuffix.subset hd)
      obtain ⟨-, htext⟩ := text_of_lexFrom_label hds h ht
      have hsame : ds = c :: cs :=
        String.ofList_injective ((name_labelDef ht htext hds).symm.trans hname)
      exact absurd (congrArg List.length hsame) (Nat.ne_of_lt hshort)
    | false =>
      rw [erase_attributeWord_label hplain hattribute, List.append_assoc] at h
      obtain ⟨hnumber, -⟩ := text_of_lexFrom_label hplain h ht
      rw [spared, hcomdat, hidle, hattribute, hnumber]
      rfl

namespace Jump

variable (x : Jump n)

/-- The place of the line of the label. -/
def place : Position :=
  ({} : Position).behind (normalLines (x.opening ++ branchLine x.indent n :: x.between))

theorem normalOrEmpty_branchLine :
    normalOrEmpty (branchLine x.indent n) = closeBlanks false x.indent ++ (branchTo ++ kept n) := by
  rw [normalOrEmpty, branchLine, isDropped_branch x.indented n.plain,
    normalLine_branch x.indented n.plain]
  rfl

theorem isSpace_indent : ∀ c ∈ closeBlanks false x.indent, isSpace c = true := by
  intro c hc
  obtain rfl | hc := List.mem_cons.1 (closeBlanks_subset false x.indent hc)
  · rfl
  · obtain rfl | rfl := x.indented c hc <;> rfl

/-- The normal form of the definition, line by line. -/
theorem normalText_eq : normalText x.text =
    normalLines x.opening ++ (closeBlanks false x.indent ++ (branchTo ++ (kept n ++ '\n' ::
      (normalLines x.between ++
        (normalOrEmpty (labelLine n) ++ '\n' :: normalLines x.closing))))) := by
  rw [normalText_of_lines (by simp [x.lines]), x.lines]
  simp only [normalLines_append, normalLines_cons, x.normalOrEmpty_branchLine, List.append_assoc,
    List.cons_append]

theorem lex_normalText : lex (normalText x.text) =
    (lexFrom 0 (({} : Position).behind (normalLines x.opening))
      (closeBlanks false x.indent ++ (branchTo ++ (kept n ++ '\n' :: (normalLines x.between ++
        (normalOrEmpty (labelLine n) ++ '\n' :: normalLines x.closing)))))).after
      x.front.tokens := by
  have hopens : lexFrom 0 {} (normalLines x.opening) = ⟨x.front.tokens, none⟩ := x.opens
  have hlines := lexFrom_lines {} (congrArg Lexed.stop hopens)
  rw [hopens] at hlines
  rw [lex, x.normalText_eq, hlines]

/-- Nothing is read if normal form leaves nothing of the label in the branch. -/
theorem kept_ne_nil (h : (lex (normalText x.text)).stop = none) : kept n ≠ [] := by
  intro hkept
  rw [x.lex_normalText, hkept, List.nil_append] at h
  exact stop_lexFrom_branch x.isSpace_indent _ _ h

/-- The definition is read up to the line of the label. -/
theorem exists_branch (hkept : kept n ≠ []) : ∃ b l t : Token, b.terminal = .word .br ∧
    l.terminal = .word .label ∧ t.terminal = .localName ∧ t.name = String.ofList (kept n) ∧
    lex (normalText x.text) =
      (lexFrom 0 x.place (normalOrEmpty (labelLine n) ++ '\n' :: normalLines x.closing)).after
        (x.front.tokens ++ [b, l, t]) := by
  obtain ⟨c, cs, hcs⟩ := List.exists_cons_of_ne_nil hkept
  have hplain := plain_kept (n := n)
  rw [hcs] at hplain
  obtain ⟨b, l, t, hb, hl, ht, htext, hread⟩ := lexFrom_branch x.isSpace_indent hplain
    (({} : Position).behind (normalLines x.opening)) (normalLines x.between ++
      (normalOrEmpty (labelLine n) ++ '\n' :: normalLines x.closing))
  refine ⟨b, l, t, hb, hl, ht, ?_, ?_⟩
  · rw [hcs]
    exact name_local ht htext hplain
  · have hidle := x.idle (({} : Position).behind (normalLines x.opening ++
      (closeBlanks false x.indent ++ (branchTo ++ (c :: cs ++ ['\n'])))))
    have hlines := lexFrom_lines _ (congrArg Lexed.stop hidle)
    rw [hidle] at hlines
    have hplace : x.place = (({} : Position).behind (normalLines x.opening ++
        (closeBlanks false x.indent ++ (branchTo ++ (c :: cs ++ ['\n']))))).behind
          (normalLines x.between) := by
      rw [place, ← Position.behind_append, normalLines_append, normalLines_cons,
        x.normalOrEmpty_branchLine, hcs]
      simp
    rw [x.lex_normalText, hcs, hread, ← Position.behind_append, hlines, ← hplace,
      Lexed.after_after, Lexed.after_after]
    simp

/-- If the branch and the block are read with one name, nothing is missing from it in the branch,
and what is read first behind the branch is a label with the name. -/
theorem exists_label {name : String} (h : GoesOnTo n.name (readModule name x.text)) :
    kept n = n.chars ∧ ∃ t ts, (lexFrom 0 x.place
      (normalOrEmpty (labelLine n) ++ '\n' :: normalLines x.closing)).tokens = t :: ts ∧
        t.terminal = .labelDef ∧ t.name = n.name := by
  obtain ⟨m, f, b, c, others, hread, hm, hf, hgoes, hc⟩ := h
  obtain ⟨trees, hparse, hbuild⟩ := readModule_eq_ok hread
  obtain ⟨hstop, hitems⟩ := parseText_eq_ok hparse
  obtain ⟨k, l, t, hk, hl, ht, hname, hlex⟩ := x.exists_branch (x.kept_ne_nil hstop)
  rw [hlex, Lexed.after, List.append_assoc] at hitems
  obtain ⟨bs, is, left, rfl, hblocks⟩ := parseItems_opening x.front hk hl ht hitems
  obtain ⟨head, start, f', s, hfunction, hfirst⟩ := Build.module_define hbuild
  obtain rfl : f = f' := by simpa [hm] using hfirst
  obtain ⟨b', cs, mid, hb, hcs, hf'⟩ := Build.function_eq_ok hfunction
  obtain ⟨rfl, rfl⟩ : b = b' ∧ c :: others = cs := by simpa [hf] using hf'
  obtain ⟨-, mid', e, he, hterminator⟩ := Build.block_eq_ok hb
  cases he
  have htarget : t.name = n.name := by simpa [hgoes] using hterminator.symm
  refine ⟨?_, ?_⟩
  · rw [hname, Label.name] at htarget
    exact String.ofList_injective htarget
  · have hnames := Build.blocks_names hcs
    cases bs with
    | nil => cases hnames
    | cons p bs =>
      obtain ⟨u, us, hus, hu, huname⟩ := blocks_head hblocks
      rw [List.map_cons, List.map_cons, List.cons.injEq] at hnames
      exact ⟨u, us, hus, hu, by rw [huname, ← hnames.1, hc]⟩

/-- What is read behind the line of the label. -/
theorem lexFrom_closing : lexFrom 0 (x.place.behind (normalOrEmpty (labelLine n) ++ ['\n']))
    (normalLines x.closing) = ⟨x.back.tokens, none⟩ := by
  have hcloses := x.closes
  rw [normalLines_append, normalLines_cons, Position.behind_append] at hcloses
  exact hcloses

theorem spared_of_goesOnTo {name : String} (h : GoesOnTo n.name (readModule name x.text)) :
    spared n.chars = true := by
  obtain ⟨hkept, t, ts, hread, ht, hname⟩ := x.exists_label h
  have hcomdat := kept_eq_iff.1 hkept
  refine spared_of_labelLine hcomdat (fun hempty => ?_) hread ht hname
  have hclosing := x.lexFrom_closing
  rw [hempty] at hclosing
  exact (congrArg Lexed.tokens hclosing).symm ▸ x.back.avoids_labelDef

/-- A definition whose label is spared is read to its end. -/
theorem parseText_of_spared (h : spared n.chars = true) : parseText (normalText x.text) =
    .ok [x.front.item n.name ((n.name, x.back.block) :: x.back.blockTrees)] := by
  have hline := normalOrEmpty_labelLine h
  simp only [spared, Bool.and_eq_true, Bool.not_eq_true'] at h
  obtain ⟨⟨⟨hcomdat, -⟩, -⟩, hnumber⟩ := h
  have hkept := kept_eq_iff.2 hcomdat
  obtain ⟨b, l, t, hb, hl, ht, htname, hlex⟩ := x.exists_branch (hkept ▸ n.ne_nil)
  have hlabel : normalOrEmpty (labelLine n) ++ '\n' :: normalLines x.closing =
      n.chars ++ ':' :: '\n' :: normalLines x.closing := by
    rw [hline, labelLine, List.append_assoc]
    rfl
  have hclosing : lexFrom 0 ((x.place.behind (n.chars ++ [':'])).after '\n')
      (normalLines x.closing) = ⟨x.back.tokens, none⟩ := by
    have hclosing := x.lexFrom_closing
    rw [hline, Position.behind_append] at hclosing
    exact hclosing
  rw [hlabel, lexFrom_label n hnumber, lexFrom_space rfl, hclosing] at hlex
  have huname : Token.name ⟨.labelDef, n.chars ++ [':'], x.place⟩ = n.name :=
    name_labelDef rfl rfl n.plain
  have hparse := parseItems_closing x.front x.back hb hl ht
    (u := ⟨.labelDef, n.chars ++ [':'], x.place⟩) rfl
  rw [huname, htname, hkept] at hparse
  exact parseText_of_lex (hlex.trans (by simp [Lexed.after])) hparse

theorem goesOnTo_of_spared (h : spared n.chars = true) (name : String) :
    GoesOnTo n.name (readModule name x.text) := by
  have hfirst : Build.block x.front.label.name
      { instrs := x.front.instrTrees, terminator := .br n.name } {} =
        .ok (⟨x.front.label.name, x.instrs, some (.br n.name)⟩, {}) := by
    rw [Build.block, Build.bind_ok x.instrs_built]
    rfl
  have hothers : Build.blocks ((n.name, x.back.block) :: x.back.blockTrees) {} =
      .ok (x.second :: x.others, {}) := by
    rw [Build.blocks, Build.bind_ok x.second_built, Build.bind_ok x.others_built]
    rfl
  have hfunction := Build.function_ok x.front.define.position.line x.head hfirst hothers
    x.labels_nodup
  have hmodule := Build.module_of_define name x.head_built hfunction
  have hread : readModule name x.text =
      Build.module name [x.front.item n.name ((n.name, x.back.block) :: x.back.blockTrees)] := by
    rw [readModule, x.parseText_of_spared h]
  exact ⟨_, _, _, _, _, hread.trans hmodule, rfl, rfl, rfl, (Build.block_eq_ok x.second_built).1⟩

/-! ### A definition for every label -/

/-- The lines in front of the branch. -/
def sampleOpening : List (List Char) := ["define void @f() \x7b".toList, "entry:".toList]

/-- The lines behind the label. -/
def sampleClosing : List (List Char) := ["  ret void".toList, "\x7d".toList]

/-- A function without instructions, the first block of which goes to the second one. -/
def sampleLines (n : Label) : List (List Char) :=
  sampleOpening ++ branchLine [' ', ' '] n :: [] ++ labelLine n :: sampleClosing

theorem noLineEnd_sampleLines (n : Label) :
    (sampleLines n).all (·.all (!isLineEnd ·)) = true := by
  have hplain : n.chars.all (!isLineEnd ·) = true :=
    List.all_eq_true.2 fun c hc =>
      forall_isNameChar (p := fun c => !isLineEnd c) (by decide) (n.plain c hc)
  have hopening : sampleOpening.all (·.all (!isLineEnd ·)) = true := by decide
  have hclosing : sampleClosing.all (·.all (!isLineEnd ·)) = true := by decide
  have hstart : ([' ', ' '] ++ branchTo).all (!isLineEnd ·) = true := by decide
  have hcolon : [':'].all (!isLineEnd ·) = true := by decide
  have hbranch : (branchLine [' ', ' '] n).all (!isLineEnd ·) = true := by
    rw [branchLine, ← List.append_assoc, List.all_append, hstart, hplain]
    rfl
  have hlabel : (labelLine n).all (!isLineEnd ·) = true := by
    rw [labelLine, List.all_append, hplain, hcolon]
    rfl
  simp only [sampleLines, List.all_append, List.all_cons, List.all_nil, hopening, hbranch, hlabel,
    hclosing, Bool.and_self]

/-- What is read in front of the branch. -/
def sampleFront : Opening where
  define := ⟨.word .define, "define".toList, {}⟩
  ret := .rule ⟨1, by decide⟩ (.token ⟨.word .void, "void".toList, ⟨7, 1, 8⟩⟩ rfl)
  name := ⟨.globalName, "@f".toList, ⟨12, 1, 13⟩⟩
  params := .seq (.token ⟨.word .openParen, "(".toList, ⟨14, 1, 15⟩⟩ rfl)
    (.seq .none (.token ⟨.word .closeParen, ")".toList, ⟨15, 1, 16⟩⟩ rfl))
  brace := ⟨.word .openBrace, "\x7b".toList, ⟨17, 1, 18⟩⟩
  label := ⟨.labelDef, "entry:".toList, ⟨19, 2, 1⟩⟩
  instrs := .nil
  define_terminal := rfl
  name_terminal := rfl
  brace_terminal := rfl
  label_terminal := rfl

/-- What is read behind the label. -/
def sampleBack (p : Position) : Closing where
  instrs := .nil
  terminator := .rule ⟨0, by decide⟩ (.seq
    (.token ⟨.word .ret, "ret".toList, p.behind " ".toList⟩ rfl)
    (.seq (.rule ⟨1, by decide⟩
      (.token ⟨.word .void, "void".toList, p.behind " ret ".toList⟩ rfl)) .none))
  blocks := .nil
  brace := ⟨.word .closeBrace, "\x7d".toList, p.behind " ret void\n".toList⟩
  brace_terminal := rfl

theorem lex_sampleOpening : lex (normalLines sampleOpening) = ⟨sampleFront.tokens, none⟩ := by
  have hnormal : normalLines sampleOpening = "define void @f() \x7b\nentry:\n".toList := by
    decide +kernel
  rw [hnormal]
  cbv

theorem lexFrom_sampleClosing (p : Position) :
    lexFrom 0 p (normalLines sampleClosing) = ⟨(sampleBack p).tokens, none⟩ := by
  have hnormal : normalLines sampleClosing = " ret void\n\x7d\n".toList := by
    decide +kernel
  rw [hnormal]
  cbv

/-- There is a definition for every label that is not that of its first block. -/
def sample (n : Label) (hn : n.name ≠ "entry") : Jump n where
  text := (sampleLines n).flatMap (· ++ ['\n'])
  opening := sampleOpening
  indent := [' ', ' ']
  between := []
  closing := sampleClosing
  lines := splitLines_lines (noLineEnd_sampleLines n)
  indented := by simp [IsIndent]
  idle _ := rfl
  front := sampleFront
  back := sampleBack _
  opens := lex_sampleOpening
  closes := lexFrom_sampleClosing _
  head := { name := "f", ret := .void, params := [], varArg := false }
  instrs := []
  second := { name := n.name, instrs := [], terminator := some (.ret none) }
  others := []
  head_built := rfl
  instrs_built := rfl
  second_built := rfl
  others_built := rfl
  labels_nodup := by
    have hentry : sampleFront.label.name = "entry" := by decide
    have hothers (p : Position) : (sampleBack p).blockTrees = [] := rfl
    simpa [hentry, hothers] using hn.symm

/-! ### The labels that are spared -/

/-- **A branch to the second block and its label are read alike exactly if the label is spared.** -/
theorem goesOnTo_iff (name : String) :
    GoesOnTo n.name (readModule name x.text) ↔ spared n.chars = true :=
  ⟨x.spared_of_goesOnTo, fun h => x.goesOnTo_of_spared h name⟩

/-- Attributes, comdats, lines that say nothing and numbers are not spared. -/
example : ["nsw", "fast-x", "a-comdat", "$x", "0x1F", "-1.5"].all (!spared ·.toList) = true := by
  decide

/-- A label that is spared. -/
def next : Label := ⟨"next".toList, by decide, List.all_eq_true.1 (by decide)⟩

/-- A label that is an attribute to normal form. -/
def nsw : Label := ⟨"nsw".toList, by decide, List.all_eq_true.1 (by decide)⟩

/-- The one is read alike in both places, the other is not. -/
theorem goesOnTo_next_not_nsw :
    GoesOnTo "next" (readModule "m"
      "define void @f() \x7b\nentry:\n  br label %next\nnext:\n  ret void\n\x7d\n".toList) ∧
    ¬ GoesOnTo "nsw" (readModule "m"
      "define void @f() \x7b\nentry:\n  br label %nsw\nnsw:\n  ret void\n\x7d\n".toList) := by
  have hnext := goesOnTo_iff (sample next (by decide)) "m"
  have hnsw := goesOnTo_iff (sample nsw (by decide)) "m"
  have htext (n : Label) (hn : n.name ≠ "entry") (text : List Char)
      (h : (sampleLines n).flatMap (· ++ ['\n']) = text) : (sample n hn).text = text := h
  rw [htext _ _ _ (by decide : _ =
    "define void @f() \x7b\nentry:\n  br label %next\nnext:\n  ret void\n\x7d\n".toList)] at hnext
  rw [htext _ _ _ (by decide : _ =
    "define void @f() \x7b\nentry:\n  br label %nsw\nnsw:\n  ret void\n\x7d\n".toList)] at hnsw
  exact ⟨hnext.2 (by decide), fun h => absurd (hnsw.1 h) (by decide)⟩

end Jump

end GoLift.Source
