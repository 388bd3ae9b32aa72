import GoLift.Proofs.Source.Lines
import GoLift.Proofs.Source.Passes

/-!
# Labels through normal form and the lexer

A block is named in two ways: `n:` on a line of its own opens it, and `br label %n` goes to it. The
passes of normal form know of neither. Behind `%` no attribute stands alone, but in front of the
colon one may, and a label may begin like a line that is dropped or like a number. `spared` tells
the labels to which nothing of this happens.

A branch is read with what normal form leaves of its label (`normalLine_branch`, `lexFrom_branch`).
The line of a label is read as all of the label, or as something else (`normalLine_label`,
`lexFrom_label`).
-/

set_option autoImplicit false

namespace GoLift.Source

open Text

variable {cs ds rest : List Char} {ps : List Piece} {c : Char} {before : Option Char}

/-! ### Labels -/

/-- A label that is written without quotes. -/
structure Label where
  chars : List Char
  ne_nil : chars ≠ []
  plain : ∀ c ∈ chars, isNameChar c = true

/-- The name of the block. -/
def Label.name (n : Label) : String := String.ofList n.chars

/-- Does a word begin somewhere in a text, with no word character in front of it? -/
def holdsWord (word : List Char) (before : Option Char) : List Char → Bool
  | [] => false
  | c :: cs =>
    !heldBy isWord before && word.isPrefixOf (c :: cs) || holdsWord word (some c) cs

/-- Is the line of a label taken for one that says nothing about the program? -/
def looksIdle (cs : List Char) : Bool :=
  cs.head? == some '$' || "uselistorder".toList.isPrefixOf cs ||
    beginsWord isWord "source_filename".toList cs

/-- Is a label taken for a bit pattern? -/
def looksHex : List Char → Bool
  | '0' :: 'x' :: c :: _ => isHexDigit c
  | _ => false

/-- Is a label without its sign taken for a number with a point? -/
def looksPointed (cs : List Char) : Bool :=
  heldBy isDecimal cs.head? && (cs.dropWhile isDecimal).head? == some '.'

/-- A label without its sign. -/
def unsigned : List Char → List Char
  | '-' :: cs => cs
  | cs => cs

/-- Is the beginning of a label taken for a number? -/
def looksNumber (cs : List Char) : Bool := looksHex cs || looksPointed (unsigned cs)

/-- Is a label taken for nothing else? -/
def spared (cs : List Char) : Bool :=
  !holdsWord "comdat".toList none cs && !looksIdle cs && !looksAttribute cs && !looksNumber cs

/-! ### Characters of names -/

theorem toNat_lt_of_isNameChar (h : isNameChar c = true) : c.toNat < 128 := by
  change (decide (c.val ≥ 65 ∧ c.val ≤ 90) || (decide (c.val ≥ 97) && decide (c.val ≤ 122)) ||
    (decide (c.val ≥ 48) && decide (c.val ≤ 57)) || c == '-' || c == '$' || c == '.' ||
      c == '_') = true at h
  simp [UInt32.le_iff_toNat_le, Char.ext_iff, ← UInt32.toNat_inj] at h
  omega

/-- What holds of the ASCII characters of names holds of all. -/
theorem forall_isNameChar {p : Char → Bool}
    (h : ∀ k : Fin 128, isNameChar (Char.ofNat k) = true → p (Char.ofNat k) = true)
    (hc : isNameChar c = true) : p c = true := by
  have hk := h ⟨c.toNat, toNat_lt_of_isNameChar hc⟩
  simp only [Char.ofNat_toNat] at hk
  exact hk hc

theorem isNameLead_of_isNameChar (h : isNameChar c = true) : isNameLead c = true :=
  forall_isNameChar (by decide) h

theorem not_isBlank_of_isNameChar (h : isNameChar c = true) : isBlank c = false := by
  simpa using forall_isNameChar (p := fun c => !isBlank c) (by decide) h

/-- A name is simple. -/
theorem isSimple_of_plain (h : ∀ c ∈ cs, isNameChar c = true) : IsSimple cs := by
  intro c hc
  have hname := h c hc
  refine ⟨?_, ?_, ?_, ?_, ?_, ?_⟩ <;> rintro rfl <;> exact absurd hname (by decide)

/-- Comdats are found in a name where the word is held. -/
theorem noneBegins_comdat (hplain : ∀ c ∈ cs, isNameChar c = true) (tail : List Char)
    (htail : ∀ c ∈ tail.head?, c ∉ "comdat".toList) (before : Option Char) :
    noneBegins comdat before cs tail = !holdsWord "comdat".toList before cs := by
  induction cs generalizing before with
  | nil => rfl
  | cons c cs ih =>
    have hc := hplain c List.mem_cons_self
    have hcomma : c ≠ ',' := by
      rintro rfl
      exact absurd hc (by decide)
    have hrun := isSome_run_comdat (not_isBlank_of_isNameChar hc) hcomma before (cs ++ tail)
    rw [← List.cons_append, isPrefixOf_append htail] at hrun
    rw [noneBegins, ih (fun d hd => hplain d (List.mem_cons_of_mem c hd)), holdsWord, Bool.not_or,
      ← hrun, matchLength_getD (w := "comdat") (by simp [comdat]) (by decide)]
    rfl

/-- A name keeps its characters exactly if no comdat is found in it. -/
theorem eraseFrom_comdat_eq_self_iff (hplain : ∀ c ∈ cs, isNameChar c = true)
    (before : Option Char) :
    eraseFrom comdat 0 before cs = cs ↔ holdsWord "comdat".toList before cs = false := by
  have hnone := noneBegins_comdat hplain [] (by simp) before
  have hscan : eraseFrom comdat 0 before cs = (scan comdat 0 before cs []).1 := by
    have happend := eraseFrom_append comdat 0 before cs []
    rwa [List.append_nil, eraseFrom, List.append_nil] at happend
  rw [← Bool.not_eq_true', ← hnone, hscan]
  constructor
  · intro h
    cases cs with
    | nil => rfl
    | cons c cs => exact (spared_of_scan (List.cons_ne_nil c cs) (congrArg List.length h)).2
  · intro h
    rw [scan_of_spared h]

/-! ### The line of a branch -/

/-- What stands in front of the label in a branch. -/
def branchTo : List Char := "br label %".toList

/-- The characters of a line's indentation. -/
def IsIndent (cs : List Char) : Prop := ∀ c ∈ cs, c = ' ' ∨ c = '\t'

/-- The few passes find nothing in front of the label of a branch. -/
theorem noneBegins_branch (hps : ps = comdat ∨ ps = alignment ∨ ps = attributeWord)
    {indent : List Char} (hindent : IsIndent indent) (cs : List Char) :
    noneBegins ps none (indent ++ branchTo) cs = true := by
  have hblank (indent : List Char) (hindent : IsIndent indent) (before : Option Char) :
      noneBegins ps before indent (branchTo ++ cs) = true := by
    induction indent generalizing before with
    | nil => rfl
    | cons c indent ih =>
      refine noneBegins_cons ?_ (ih (fun d hd => hindent d (List.mem_cons_of_mem c hd)) _)
      have hblanks : ∀ d ∈ c :: indent, isBlank d = true := fun d hd => by
        obtain rfl | rfl := hindent d hd <;> decide
      obtain rfl | rfl | rfl := hps
      · exact run_comdat_eq_none (c :: indent) hblanks (by decide) _ _
      · obtain rfl | rfl := hindent c List.mem_cons_self <;> exact run_alignment_eq_none rfl _
      · obtain rfl | rfl := hindent c List.mem_cons_self <;>
          exact run_attributeWord_eq_none (.inr rfl)
  have hbranch (before : Option Char) : noneBegins ps before branchTo cs = true := by
    obtain rfl | rfl | rfl := hps
    · refine noneBegins_cons (run_comdat_eq_none [] (by simp) (by decide) _ _) ?_
      refine noneBegins_cons (run_comdat_eq_none [] (by simp) (by decide) _ _) ?_
      refine noneBegins_cons (run_comdat_eq_none [' '] (List.forall_mem_singleton.2 (by decide)) (by decide) _ _) ?_
      iterate 5 refine noneBegins_cons (run_comdat_eq_none [] (by simp) (by decide) _ _) ?_
      refine noneBegins_cons (run_comdat_eq_none [' '] (List.forall_mem_singleton.2 (by decide)) (by decide) _ _) ?_
      exact noneBegins_cons (run_comdat_eq_none [] (by simp) (by decide) _ _) rfl
    · iterate 10 refine noneBegins_cons (run_alignment_eq_none rfl _) ?_
      rfl
    · iterate 10 refine noneBegins_cons (run_attributeWord_eq_none (.inr rfl)) ?_
      rfl
  rw [noneBegins_append, hblank indent hindent, hbranch]
  rfl

/-- The line of a branch is not dropped. -/
theorem isDropped_branch {indent : List Char} (hindent : IsIndent indent)
    (hplain : ∀ c ∈ cs, isNameChar c = true) :
    isDropped (indent ++ (branchTo ++ cs)) = false := by
  have hblanks : ∀ c ∈ indent, isBlank c = true := fun c hc => by
    obtain rfl | rfl := hindent c hc <;> decide
  have hat : '@' ∉ indent ++ (branchTo ++ cs) := by
    intro hmem
    obtain hmem | hmem := List.mem_append.1 hmem
    · exact absurd (hblanks _ hmem) (by decide)
    obtain hmem | hmem := List.mem_append.1 hmem
    · exact absurd hmem (by decide)
    · exact absurd (hplain _ hmem) (by decide)
  have hhead : isBlank 'b' = false := by decide
  have hstart : Text.Place.afterClass isBlank none (indent ++ (branchTo ++ cs)) =
      ⟨lastOr none indent, branchTo ++ cs⟩ := afterClass_append hblanks hhead none _
  have hrun : Piece.run (blanks :: oneOf dropHeads) ⟨none, indent ++ (branchTo ++ cs)⟩ = none := by
    rw [blanks, run_many]
    change Piece.run (oneOf dropHeads) (Text.Place.afterClass isBlank none _) = none
    rw [hstart, run_oneOf]
    rfl
  rw [isDropped, hrun, occurs_of_lacking (s := "@llvm.dbg.") (by simp) (by decide) hat]
  rfl
/-- **A branch keeps its label in normal form, but for comdats in it.** -/
theorem normalLine_branch {indent : List Char} (hindent : IsIndent indent)
    (hplain : ∀ c ∈ cs, isNameChar c = true) :
    normalLine (indent ++ (branchTo ++ cs)) =
      closeBlanks false indent ++ (branchTo ++ eraseFrom comdat 0 (some '%') cs) := by
  have hsimple : IsSimple (indent ++ (branchTo ++ cs)) := by
    refine IsSimple.append (fun c hc => ?_) (IsSimple.append ?_ (isSimple_of_plain hplain))
    · obtain rfl | rfl := hindent c hc <;> decide
    · decide
  have hpass {ps : List Piece} (hps : ps = comdat ∨ ps = alignment ∨ ps = attributeWord)
      (cs : List Char) : erase ps (indent ++ (branchTo ++ cs)) =
        indent ++ (branchTo ++ eraseFrom ps 0 (some '%') cs) := by
    have hlast : lastOr none (indent ++ branchTo) = some '%' := lastOr_append none indent branchTo
    rw [← List.append_assoc, erase, eraseFrom_of_noneBegins (noneBegins_branch hps hindent cs),
      hlast, List.append_assoc]
  rw [normalLine_of_simple hsimple, hpass (.inl rfl), hpass (.inr (.inl rfl)),
    hpass (.inr (.inr rfl))]
  have hleft : ∀ c ∈ eraseFrom comdat 0 (some '%') cs, isNameChar c = true :=
    fun c hc => hplain c (eraseFrom_subset _ _ _ _ hc)
  generalize eraseFrom comdat 0 (some '%') cs = ds at hleft ⊢
  have hvisible : ∀ c ∈ ds, isBlank c = false := fun c hc => not_isBlank_of_isNameChar (hleft c hc)
  have hattribute : eraseFrom attributeWord 0 (some '%') ds = ds := by
    have hnone := noneBegins_attributeWord (c := '%') (by decide)
      (fun c hc => isNameLead_of_isNameChar (hleft c hc)) []
    simpa [eraseFrom] using eraseFrom_of_noneBegins hnone
  have hclosed (inRun : Bool) : closeBlanks inRun branchTo = branchTo := by
    cases inRun <;> decide
  rw [eraseFrom_alignment hvisible, hattribute, closeBlanks_append, closeBlanks_append, hclosed,
    closeBlanks_of_visible hvisible]
  refine trimEnd_of_getLast? fun c hc => ?_
  have hlast : lastOr none (closeBlanks false indent ++ (branchTo ++ ds)) =
      lastOr (some '%') ds := by
    rw [lastOr_append, lastOr_append]
    rfl
  rw [lastOr, Option.or_none] at hlast
  rw [hlast, lastOr, Option.mem_def, Option.or_eq_some_iff] at hc
  obtain hc | ⟨-, hc⟩ := hc
  · exact hvisible c (List.mem_of_getLast? hc)
  · cases hc
    decide

/-! ### The line of a label -/

/-- Where a name holds no comdat, only an attribute can be missing from the line of the label. -/
theorem normalLine_label (hplain : ∀ c ∈ cs, isNameChar c = true)
    (hcomdat : holdsWord "comdat".toList none cs = false) :
    normalLine (cs ++ [':']) = erase attributeWord (cs ++ [':']) := by
  have hsimple : IsSimple (cs ++ [':']) := by
    refine (isSimple_of_plain hplain).append ?_
    decide
  have hvisible : ∀ c ∈ cs ++ [':'], isBlank c = false := by
    intro c hc
    obtain hc | hc := List.mem_append.1 hc
    · exact not_isBlank_of_isNameChar (hplain c hc)
    · obtain rfl := List.mem_singleton.1 hc
      decide
  have hkept : erase comdat (cs ++ [':']) = cs ++ [':'] := by
    have hnone := noneBegins_comdat hplain [':'] (by simp) none
    rw [hcomdat] at hnone
    rw [erase, eraseFrom_of_noneBegins hnone]
    have hcolon : noneBegins comdat (lastOr none cs) [':'] [] = true :=
      noneBegins_cons (run_comdat_eq_none [] (by simp) (by decide) _ _) rfl
    exact congrArg (cs ++ ·) (eraseFrom_of_noneBegins hcolon)
  have haligned : erase alignment (cs ++ [':']) = cs ++ [':'] := eraseFrom_alignment hvisible none
  have hleft := erase_subset attributeWord (cs ++ [':'])
  rw [normalLine_of_simple hsimple, hkept, haligned,
    closeBlanks_of_visible fun c hc => hvisible c (hleft hc)]
  exact trimEnd_of_getLast? fun c hc => hvisible c (hleft (List.mem_of_getLast? hc))

theorem looksAttribute_append_colon (cs : List Char) :
    looksAttribute (cs ++ [':']) = looksAttribute cs := by
  have hwords : ∀ w ∈ attributeWords, ':' ∉ w.toList := by decide
  rw [Bool.eq_iff_iff, looksAttribute, looksAttribute, List.any_eq_true, List.any_eq_true]
  refine exists_congr fun w => and_congr_right fun hw => ?_
  rw [beginsWord_append_colon (by decide) (hwords w hw)]

/-- No attribute begins behind a name. -/
theorem eraseFrom_attributeWord_colon (before : Option Char) :
    eraseFrom attributeWord 0 before [':'] = [':'] := by
  have hnone : noneBegins attributeWord before [':'] [] = true :=
    noneBegins_cons (run_attributeWord_eq_none (.inr rfl)) rfl
  exact eraseFrom_of_noneBegins hnone

/-- No attribute is found in the rest of a name. -/
theorem eraseFrom_attributeWord_rest (hc : isNameLead c = true)
    (h : ∀ d ∈ cs, isNameLead d = true) :
    eraseFrom attributeWord 0 (some c) (cs ++ [':']) = cs ++ [':'] := by
  rw [eraseFrom_of_noneBegins (noneBegins_attributeWord hc h _), eraseFrom_attributeWord_colon]

/-- The line of a label that begins with no attribute is left as it is. -/
theorem erase_attributeWord_label (hplain : ∀ d ∈ c :: cs, isNameChar d = true)
    (h : looksAttribute (c :: cs) = false) :
    erase attributeWord (c :: cs ++ [':']) = c :: cs ++ [':'] := by
  have hlead : ∀ d ∈ c :: cs, isNameLead d = true :=
    fun d hd => isNameLead_of_isNameChar (hplain d hd)
  have hrun : Piece.run attributeWord ⟨none, c :: (cs ++ [':'])⟩ = none :=
    run_attributeWord_eq_none (.inr ((looksAttribute_append_colon (c :: cs)).trans h))
  have hnone := noneBegins_cons hrun (noneBegins_attributeWord (hlead c List.mem_cons_self)
    (fun d hd => hlead d (List.mem_cons_of_mem c hd)) _)
  rw [erase, eraseFrom_of_noneBegins hnone, eraseFrom_attributeWord_colon]

/-- An attribute that is found in the line of a label is the beginning of the label. -/
theorem exists_attribute {there : Text.Place}
    (h : Piece.run attributeWord ⟨none, cs ++ [':']⟩ = some there) :
    ∃ w ∈ attributeWords, ∃ ds, cs = w.toList ++ ds ∧ there.rest = ds ++ [':'] := by
  have hone : Piece.run (oneOf (attributeWords.map fun w => [.text w, .notBefore isDottedWord]))
      ⟨none, cs ++ [':']⟩ = some there := h
  rw [run_oneOf, List.findSome?_map] at hone
  obtain ⟨w, hw, hrun⟩ := List.exists_of_findSome?_eq_some hone
  have hcolon : ∀ c ∈ [':'].head?, c ∉ w.toList := by
    have hwords : ∀ w ∈ attributeWords, ':' ∉ w.toList := by decide
    simpa using hwords w hw
  dsimp only [Function.comp_apply] at hrun
  cases hprefix : w.toList.isPrefixOf (cs ++ [':']) with
  | false =>
    rw [run_text_eq_none hprefix] at hrun
    cases hrun
  | true =>
    rw [isPrefixOf_append hcolon] at hprefix
    obtain ⟨ds, rfl⟩ := List.isPrefixOf_iff_prefix.1 hprefix
    rw [List.append_assoc, run_text, run_notBefore] at hrun
    split at hrun <;> cases hrun
    exact ⟨w, hw, ds, rfl, rfl⟩

/-- The line of a label that begins with an attribute loses it. -/
theorem erase_attributeWord_shorter (hplain : ∀ d ∈ cs, isNameChar d = true)
    (h : looksAttribute cs = true) : ∃ ds : List Char, ds <:+ cs ∧ ds.length < cs.length ∧
      erase attributeWord (cs ++ [':']) = ds ++ [':'] := by
  obtain ⟨there, hrun⟩ : ∃ there, Piece.run attributeWord ⟨none, cs ++ [':']⟩ = some there := by
    rw [← Option.isSome_iff_exists, isSome_run_attributeWord, looksAttribute_append_colon, h]
    rfl
  obtain ⟨w, hw, ds, rfl, hthere⟩ := exists_attribute hrun
  have hwords : ∀ w ∈ attributeWords, w.toList ≠ [] := by decide
  obtain ⟨c, word, hword⟩ := List.exists_cons_of_ne_nil (hwords w hw)
  rw [hword] at hplain hrun ⊢
  have hlead : ∀ d ∈ c :: word ++ ds, isNameLead d = true :=
    fun d hd => isNameLead_of_isNameChar (hplain d hd)
  have htaken : matchLength attributeWord none (c :: (word ++ (ds ++ [':']))) =
      some (word.length + 1) := by
    rw [List.append_assoc, List.cons_append] at hrun
    rw [matchLength, hrun, Option.map_some, hthere]
    simp
    omega
  obtain ⟨d, hd, hlast⟩ := exists_lastOr_eq c word
  refine ⟨ds, List.suffix_append (c :: word) ds, ?_, ?_⟩
  · rw [List.length_append, List.length_cons]
    omega
  rw [erase, List.append_assoc, List.cons_append, eraseFrom, htaken]
  dsimp only
  rw [eraseFrom_skip, hlast]
  exact eraseFrom_attributeWord_rest (hlead d (List.mem_append_left _ hd))
    fun e he => hlead e (List.mem_append_right _ he)

/-- The line of a label is dropped if it looks as if it said nothing. -/
theorem isDropped_label (hplain : ∀ d ∈ c :: cs, isNameChar d = true) :
    isDropped (c :: cs ++ [':']) = looksIdle (c :: cs) := by
  have hlacks {d : Char} (hd : isNameChar d = false) (hcolon : d ≠ ':') :
      d ∉ c :: cs ++ [':'] := by
    intro hmem
    obtain hmem | hmem := List.mem_append.1 hmem
    · rw [hplain d hmem] at hd
      cases hd
    · exact hcolon (List.mem_singleton.1 hmem)
  have hblank : ∀ d ∈ c :: cs ++ [':'], isBlank d = false := fun d hd =>
    Bool.eq_false_iff.2 fun hblank => by
      obtain hd | hd := List.mem_append.1 hd
      · rw [not_isBlank_of_isNameChar (hplain d hd)] at hblank
        cases hblank
      · obtain rfl := List.mem_singleton.1 hd
        exact absurd hblank (by decide)
  have hnone (words : List Piece) (h : .many1 isBlank ∈ words) :
      Piece.run words ⟨none, c :: cs ++ [':']⟩ = none :=
    run_of_lacking_class h hblank
  have hstart : Text.Place.afterClass isBlank none (c :: cs ++ [':']) = ⟨none, c :: cs ++ [':']⟩ :=
    afterClass_append (by simp : ∀ d ∈ ([] : List Char), isBlank d = true) (hblank c (by simp)) none
      (cs ++ [':'])
  rw [isDropped, occurs_of_lacking (s := "@llvm.dbg.") (by simp) (by decide)
    (hlacks (by decide) (by decide) : '@' ∉ _), Bool.or_false, blanks, run_many]
  change (Piece.run (oneOf dropHeads)
    (Text.Place.afterClass isBlank none (c :: cs ++ [':']))).isSome = _
  rw [hstart, run_oneOf, List.isSome_findSome?]
  have hbang : Piece.run [.text "!"] ⟨none, c :: cs ++ [':']⟩ = none :=
    run_of_lacking (s := "!") (by simp) (by decide) (hlacks (by decide) (by decide) : '!' ∉ _)
  have hdollar : "$".toList.isPrefixOf (c :: cs ++ [':']) = (some c == some '$') := by
    simp [List.isPrefixOf, eq_comm]
  have hsource := isSome_run_bounded (w := "source_filename") (by decide) (c :: cs ++ [':'])
  rw [beginsWord_append_colon (by decide) (by decide)] at hsource
  have horder := isSome_run_text "uselistorder" none (c :: cs ++ [':'])
  rw [isPrefixOf_append (by simp)] at horder
  simp only [dropHeads, List.any_cons, List.any_nil]
  rw [hsource, hnone _ (by simp [blanks1]),
    hnone _ (by simp [blanks1]), hbang, isSome_run_text, hdollar, horder, looksIdle]
  simp only [Option.isSome_none, Bool.false_or, Bool.or_false, List.head?_cons]
  exact Bool.or_comm _ _

/-! ### Reading a label -/

/-- A bit pattern is read where a label looks like one. -/
theorem isSome_run_hexFloat (cs rest : List Char) :
    (Piece.run [.text "0x", .many1 isHexDigit] ⟨none, cs ++ ':' :: rest⟩).isSome =
      looksHex cs := by
  have hcolon : ∀ c ∈ (':' :: rest).head?, c ∉ "0x".toList := by simp
  cases hprefix : "0x".toList.isPrefixOf (cs ++ ':' :: rest) with
  | false =>
    rw [run_text_eq_none hprefix]
    unfold looksHex
    split
    · cases hprefix
    · rfl
  | true =>
    rw [isPrefixOf_append hcolon] at hprefix
    obtain ⟨ds, rfl⟩ := List.isPrefixOf_iff_prefix.1 hprefix
    rw [List.append_assoc, run_text, run_many1]
    cases ds with
    | nil => rfl
    | cons d ds =>
      change _ = isHexDigit d
      cases hd : isHexDigit d <;> simp [heldBy, hd, Piece.run]

/-- What is looked at behind the sign of a number. -/
def pointed : List Piece :=
  [.many1 isDecimal, .text ".", .many isDecimal,
    .optional [.one (fun c => c == 'e' || c == 'E'), .optional [.one isSign], .many1 isDecimal]]

/-- A number is read where a label without its sign looks like one. -/
theorem isSome_run_pointed (before : Option Char) (cs rest : List Char) :
    (Piece.run pointed ⟨before, cs ++ ':' :: rest⟩).isSome = looksPointed cs := by
  have hcolon : isDecimal ':' = false := by decide
  have hhead : heldBy isDecimal (cs ++ ':' :: rest).head? = heldBy isDecimal cs.head? := by
    cases cs with
    | nil => exact hcolon
    | cons c cs => rfl
  have hdigits : (cs ++ ':' :: rest).dropWhile isDecimal =
      cs.dropWhile isDecimal ++ ':' :: rest := by
    simp [List.dropWhile_append, hcolon]
  rw [pointed, run_many1, hhead, looksPointed]
  cases heldBy isDecimal cs.head? with
  | false => rfl
  | true =>
    rw [if_pos rfl]
    generalize hplace : Text.Place.afterClass isDecimal before (cs ++ ':' :: rest) = place
    obtain ⟨last, left⟩ := place
    have hleft : left = cs.dropWhile isDecimal ++ ':' :: rest := by
      rw [← hdigits, ← afterClass_rest isDecimal before, hplace]
    have hpoint : ".".toList.isPrefixOf left = ((cs.dropWhile isDecimal).head? == some '.') := by
      rw [hleft]
      cases cs.dropWhile isDecimal <;> simp [List.isPrefixOf, eq_comm]
    rw [Bool.true_and, ← hpoint]
    cases hprefix : ".".toList.isPrefixOf left with
    | false => rw [run_text_eq_none hprefix, Option.isSome_none]
    | true =>
      obtain ⟨ds, hds⟩ := List.isPrefixOf_iff_prefix.1 hprefix
      rw [← hds, run_text]
      rfl

/-- A number is read where a label looks like one, with its sign or without. -/
theorem isSome_run_decimal (hplain : ∀ d ∈ cs, isNameChar d = true) (rest : List Char) :
    (Piece.run (.optional [.one isSign] :: pointed) ⟨none, cs ++ ':' :: rest⟩).isSome =
      looksPointed (unsigned cs) := by
  rw [run_optional]
  cases cs with
  | nil => exact isSome_run_pointed none [] rest
  | cons c cs =>
    by_cases hc : c = '-'
    · subst hc
      exact isSome_run_pointed (some '-') cs rest
    · have hsign : isSign c = false := by
        have hplus : c ≠ '+' := by
          rintro rfl
          exact absurd (hplain _ List.mem_cons_self) (by decide)
        simp [isSign, hc, hplus]
      have hunsigned : unsigned (c :: cs) = c :: cs := by
        unfold unsigned
        split
        · next h => exact absurd (List.cons.inj h).1 hc
        · rfl
      have hnone : Piece.run [.one isSign] ⟨none, c :: cs ++ ':' :: rest⟩ = none := by
        simp [Piece.run, Piece.step, heldBy, hsign]
      rw [hnone, Option.getD_none, isSome_run_pointed, hunsigned]

/-- A name with a colon is read as a label. -/
theorem run_labelDef (hplain : ∀ d ∈ c :: cs, isNameChar d = true) (rest : List Char) :
    matchLength (namePieces ++ [.text ":"]) none (c :: cs ++ ':' :: rest) =
      some (cs.length + 2) := by
  have hquote : c ≠ '"' := by
    rintro rfl
    exact absurd (hplain _ List.mem_cons_self) (by decide)
  have hheld : heldBy isNameChar (c :: cs ++ ':' :: rest).head? = true :=
    hplain c List.mem_cons_self
  rw [matchLength, run_name _ (by simpa using hquote), run_many1, if_pos hheld,
    afterClass_append hplain (by decide)]
  change Option.map _ (Piece.run [.text ":"] ⟨_, ":".toList ++ rest⟩) = _
  rw [run_text, Piece.run, Option.map_some]
  simp
  omega

/-- A name with a colon is read as a label or, if it looks like one, as a number. -/
theorem firstRule?_label (hplain : ∀ d ∈ c :: cs, isNameChar d = true) (rest : List Char) :
    (looksNumber (c :: cs) = false ∧
      firstRule? (c :: cs ++ ':' :: rest) = some (some .labelDef, cs.length + 2)) ∨
    (looksNumber (c :: cs) = true ∧ ∃ k length, k ≠ .labelDef ∧
      firstRule? (c :: cs ++ ':' :: rest) = some (some k, length)) := by
  have hrules : rules = (some .hexFloat, [.text "0x", .many1 isHexDigit]) ::
      (some .decimal, .optional [.one isSign] :: pointed) ::
      (some .globalName, .text "@" :: namePieces) ::
      (some .labelDef, namePieces ++ [.text ":"]) :: rules.drop 4 := rfl
  have hhex := isSome_run_hexFloat (c :: cs) rest
  have hdecimal := isSome_run_decimal hplain rest
  have hglobal : Piece.run (.text "@" :: namePieces) ⟨none, c :: cs ++ ':' :: rest⟩ = none := by
    refine run_text_eq_none ?_ _ _
    have hat : '@' ≠ c := by
      rintro rfl
      exact absurd (hplain _ List.mem_cons_self) (by decide)
    simp [List.isPrefixOf, hat]
  rw [firstRule?_eq, hrules, List.findSome?_cons, List.findSome?_cons, List.findSome?_cons,
    List.findSome?_cons, run_labelDef hplain rest, looksNumber, ← hhex, ← hdecimal]
  simp only [matchLength, hglobal]
  cases Piece.run [.text "0x", .many1 isHexDigit] ⟨none, c :: cs ++ ':' :: rest⟩ with
  | some there => exact .inr ⟨rfl, .hexFloat, _, by decide, rfl⟩
  | none =>
    cases Piece.run (.optional [.one isSign] :: pointed) ⟨none, c :: cs ++ ':' :: rest⟩ with
    | some there => exact .inr ⟨rfl, .decimal, _, by decide, rfl⟩
    | none => exact .inl ⟨rfl, rfl⟩

/-- **A label that does not look like a number is read on its line.** -/
theorem lexFrom_label (n : Label) (hnumber : looksNumber n.chars = false) (p : Position)
    (rest : List Char) : lexFrom 0 p (n.chars ++ ':' :: rest) =
      (lexFrom 0 (p.behind (n.chars ++ [':'])) rest).after [⟨.labelDef, n.chars ++ [':'], p⟩] := by
  obtain ⟨cs, hne, hplain⟩ := n
  obtain ⟨c, cs, rfl⟩ := List.exists_cons_of_ne_nil hne
  obtain ⟨-, hrule⟩ | ⟨hlooks, -⟩ := firstRule?_label hplain rest
  · have htaken : c :: cs ++ ':' :: rest = (c :: cs ++ [':']) ++ rest := by simp
    rw [htaken] at hrule ⊢
    exact lexFrom_token p (by simp) (by simpa using hrule)
  · rw [hlooks] at hnumber
    cases hnumber

/-- If the first thing that is read of a name with a colon is a label, it is all of the name. -/
theorem text_of_lexFrom_label (hplain : ∀ d ∈ cs, isNameChar d = true) {p : Position} {t : Token}
    {ts : List Token} (h : (lexFrom 0 p (cs ++ ':' :: rest)).tokens = t :: ts)
    (ht : t.terminal = .labelDef) : looksNumber cs = false ∧ t.text = cs ++ [':'] := by
  cases cs with
  | nil =>
    have hnone : firstRule? (':' :: rest) = none := findSome?_eq_none rules rfl
    simp [lexFrom, hnone] at h
  | cons c cs =>
    obtain ⟨hnumber, hrule⟩ | ⟨-, k, length, hk, hrule⟩ := firstRule?_label hplain rest
    · rw [lexFrom_label ⟨c :: cs, List.cons_ne_nil c cs, hplain⟩ hnumber] at h
      obtain ⟨rfl, -⟩ := List.cons.inj h
      exact ⟨hnumber, rfl⟩
    · rw [List.cons_append] at h hrule
      simp only [lexFrom, hrule, List.cons.injEq] at h
      rw [← h.1] at ht
      exact absurd ht hk

/-! ### Reading a branch -/

theorem lexFrom_blanks {blank : List Char} (h : ∀ c ∈ blank, isSpace c = true) (p : Position)
    (cs : List Char) : lexFrom 0 p (blank ++ cs) = lexFrom 0 (p.behind blank) cs := by
  induction blank generalizing p with
  | nil => rfl
  | cons c blank ih =>
    rw [List.cons_append, lexFrom_space (h c List.mem_cons_self),
      ih fun d hd => h d (List.mem_cons_of_mem c hd)]
    rfl

/-- A rule is used if none before it matches. -/
theorem firstRule?_of_before {i : Nat} {rule : Option Terminal × List Piece} {length : Nat}
    (hi : rules[i]? = some rule)
    (h : (rules.take i).all (fun rule => (Piece.run rule.2 ⟨none, cs⟩).isNone) = true)
    (hrule : matchLength rule.2 none cs = some length) :
    firstRule? cs = some (rule.1, length) := by
  obtain ⟨hlt, hget⟩ := List.getElem?_eq_some_iff.1 hi
  have hrules : rules = rules.take i ++ rule :: rules.drop (i + 1) := by simp [← hget]
  rw [firstRule?_eq, hrules, List.findSome?_append, findSome?_eq_none _ h, List.findSome?_cons,
    hrule]
  rfl

theorem matchLength_word (w : Word) (cs : List Char) :
    matchLength [.text w.text] none (w.text.toList ++ cs) = some w.text.toList.length := by
  rw [matchLength, run_text, Piece.run, Option.map_some]
  simp

theorem firstRule?_br (cs : List Char) :
    firstRule? (Word.br.text.toList ++ ' ' :: cs) = some (some (.word .br), 2) :=
  firstRule?_of_before (i := 43) rfl rfl (matchLength_word .br (' ' :: cs))

theorem firstRule?_labelWord (cs : List Char) :
    firstRule? (Word.label.text.toList ++ ' ' :: cs) = some (some (.word .label), 5) :=
  firstRule?_of_before (i := 25) rfl rfl (matchLength_word .label (' ' :: cs))

theorem firstRule?_localName (hplain : ∀ d ∈ c :: cs, isNameChar d = true) (rest : List Char) :
    firstRule? ('%' :: (c :: cs) ++ '\n' :: rest) = some (some .localName, cs.length + 2) := by
  have hquote : c ≠ '"' := by
    rintro rfl
    exact absurd (hplain _ List.mem_cons_self) (by decide)
  have hheld : heldBy isNameChar (c :: cs ++ '\n' :: rest).head? = true :=
    hplain c List.mem_cons_self
  have hname := run_name ⟨some '%', c :: cs ++ '\n' :: rest⟩ (by simpa using hquote) []
  rw [run_many1, if_pos hheld, afterClass_append hplain (by decide)] at hname
  refine firstRule?_of_before (i := 4) rfl rfl ?_
  change matchLength (.text "%" :: namePieces) none ("%".toList ++ (c :: cs ++ '\n' :: rest)) = _
  rw [matchLength, run_text]
  change Option.map _ (Piece.run (namePieces ++ []) ⟨some '%', c :: cs ++ '\n' :: rest⟩) = _
  rw [hname, Piece.run, Option.map_some]
  simp
  omega

/-- What comes after some tokens and others. -/
theorem Lexed.after_after (lexed : Lexed) (ts us : List Token) :
    (lexed.after us).after ts = lexed.after (ts ++ us) := by
  simp [Lexed.after]

/-- A branch is read up to its label. -/
theorem lexFrom_branchTo {blank : List Char} (hblank : ∀ c ∈ blank, isSpace c = true) (p : Position)
    (cs : List Char) : ∃ b l : Token, b.terminal = .word .br ∧ l.terminal = .word .label ∧
      lexFrom 0 p (blank ++ (branchTo ++ cs)) =
        (lexFrom 0 (p.behind (blank ++ "br label ".toList)) ('%' :: cs)).after [b, l] := by
  refine ⟨⟨.word .br, Word.br.text.toList, p.behind blank⟩,
    ⟨.word .label, Word.label.text.toList, p.behind (blank ++ "br ".toList)⟩, rfl, rfl, ?_⟩
  have htext : branchTo ++ cs =
      Word.br.text.toList ++ ' ' :: (Word.label.text.toList ++ ' ' :: '%' :: cs) := rfl
  rw [lexFrom_blanks hblank, htext, lexFrom_token _ (by decide) (firstRule?_br _),
    lexFrom_space rfl, lexFrom_token _ (by decide) (firstRule?_labelWord _), lexFrom_space rfl,
    Lexed.after_after, Position.behind_append, Position.behind_append]
  rfl

/-- **A branch is read with its label**, of which something has to be left. -/
theorem lexFrom_branch {blank : List Char} (hblank : ∀ c ∈ blank, isSpace c = true)
    (hplain : ∀ d ∈ c :: cs, isNameChar d = true) (p : Position) (rest : List Char) :
    ∃ b l t : Token, b.terminal = .word .br ∧ l.terminal = .word .label ∧
      t.terminal = .localName ∧ t.text = '%' :: c :: cs ∧
      lexFrom 0 p (blank ++ (branchTo ++ (c :: cs ++ '\n' :: rest))) =
        (lexFrom 0 (p.behind (blank ++ (branchTo ++ (c :: cs ++ ['\n'])))) rest).after
          [b, l, t] := by
  obtain ⟨b, l, hb, hl, hread⟩ := lexFrom_branchTo hblank p (c :: cs ++ '\n' :: rest)
  have hrule : firstRule? ('%' :: c :: cs ++ '\n' :: rest) =
      some (some .localName, ('%' :: c :: cs).length) := firstRule?_localName hplain rest
  have hname := lexFrom_token (p.behind (blank ++ "br label ".toList)) (List.cons_ne_nil _ _) hrule
  refine ⟨b, l, ⟨.localName, '%' :: c :: cs, p.behind (blank ++ "br label ".toList)⟩, hb, hl, rfl,
    rfl, hread.trans ?_⟩
  have htext : blank ++ (branchTo ++ (c :: cs ++ ['\n'])) =
      (blank ++ "br label ".toList) ++ ('%' :: c :: cs ++ ['\n']) := by
    rw [List.append_assoc blank]
    rfl
  rw [← List.cons_append, hname, lexFrom_space (c := '\n') rfl, Lexed.after_after, htext,
    Position.behind_append p (blank ++ "br label ".toList),
    Position.behind_append _ ('%' :: c :: cs)]
  rfl

/-- Nothing can be read where no label is left. -/
theorem stop_lexFrom_branch {blank : List Char} (hblank : ∀ c ∈ blank, isSpace c = true)
    (p : Position) (rest : List Char) :
    (lexFrom 0 p (blank ++ (branchTo ++ '\n' :: rest))).stop ≠ none := by
  obtain ⟨b, l, -, -, hread⟩ := lexFrom_branchTo hblank p ('\n' :: rest)
  have hnone : firstRule? ('%' :: '\n' :: rest) = none := findSome?_eq_none rules rfl
  simp [hread, Lexed.after, lexFrom, hnone]

end GoLift.Source
