import GoLift.Proofs.Source.Places
import GoLift.Proofs.Source.Quoted
import GoLift.Proofs.Text.Pattern

/-!
# What the passes of normal form find

Most passes need a sign that is in few lines. In a line without these signs (`IsSimple`) there are
three things left to be found: comdats, alignments and single attributes (`normalLine_of_simple`).
Where these begin is told by the words themselves (`isSome_run_comdat`,
`isSome_run_attributeWord`).
-/

set_option autoImplicit false

namespace GoLift.Source

open Text

variable {cs ds rest : List Char} {ps : List Piece} {c : Char} {before : Option Char}

/-! ### Parts of a text -/

theorem lastOr_append (before : Option Char) (cs ds : List Char) :
    lastOr before (cs ++ ds) = lastOr (lastOr before cs) ds := by
  rw [lastOr, lastOr, lastOr, List.getLast?_append, Option.or_assoc]

theorem exists_lastOr_eq (c : Char) (cs : List Char) :
    ∃ d ∈ c :: cs, lastOr (some c) cs = some d := by
  induction cs generalizing c with
  | nil => exact ⟨c, by simp, rfl⟩
  | cons d cs ih =>
    obtain ⟨e, he, hlast⟩ := ih d
    exact ⟨e, List.mem_cons_of_mem c he, (lastOr_cons _ d cs).trans hlast⟩

theorem noneBegins_append (ps : List Piece) (before : Option Char) (cs ds rest : List Char) :
    noneBegins ps before (cs ++ ds) rest =
      (noneBegins ps before cs (ds ++ rest) && noneBegins ps (lastOr before cs) ds rest) := by
  induction cs generalizing before with
  | nil => rfl
  | cons c cs ih =>
    rw [List.cons_append, noneBegins, noneBegins, ih, lastOr_cons, List.append_assoc,
      Bool.and_assoc]

theorem noneBegins_cons (h : Piece.run ps ⟨before, c :: (cs ++ rest)⟩ = none)
    (hcs : noneBegins ps (some c) cs rest = true) : noneBegins ps before (c :: cs) rest = true := by
  rw [noneBegins, matchLength, h, hcs]
  rfl

/-- A pass that finds nothing in a part goes on behind it. -/
theorem eraseFrom_of_noneBegins (h : noneBegins ps before cs rest = true) :
    eraseFrom ps 0 before (cs ++ rest) = cs ++ eraseFrom ps 0 (lastOr before cs) rest := by
  rw [eraseFrom_append, scan_of_spared h]

theorem eraseFrom_skip (ps : List Piece) (before : Option Char) (taken cs : List Char) :
    eraseFrom ps taken.length before (taken ++ cs) = eraseFrom ps 0 (lastOr before taken) cs := by
  induction taken generalizing before with
  | nil => rfl
  | cons c taken ih =>
    rw [lastOr_cons, ← ih (some c), List.length_cons, List.cons_append, eraseFrom]

theorem eraseFrom_of_run (h : ∀ before ds, ds <:+ cs → Piece.run ps ⟨before, ds⟩ = none) :
    eraseFrom ps 0 before cs = cs := by
  induction cs generalizing before with
  | nil => rfl
  | cons c cs ih =>
    have hnone : matchLength ps before (c :: cs) = none := by
      rw [matchLength, h before _ (List.suffix_refl _), Option.map_none]
    rw [eraseFrom, hnone, ih fun b ds hds => h b ds (hds.trans (List.suffix_cons c cs))]

/-- A pass finds nothing where a character of its pattern is missing. -/
theorem erase_of_lacking {s : String} (hs : .text s ∈ ps) (hc : c ∈ s.toList) (h : c ∉ cs) :
    erase ps cs = cs :=
  eraseFrom_of_run fun _ _ hds => run_of_lacking hs hc fun hmem => h (hds.subset hmem)

theorem occurs_of_lacking {s : String} (hs : .text s ∈ ps) (hc : c ∈ s.toList) (h : c ∉ cs)
    (before : Option Char) : occurs ps before cs = false := by
  induction cs generalizing before with
  | nil => rw [occurs, run_of_lacking hs hc h, Option.isSome_none]
  | cons d cs ih =>
    rw [occurs, run_of_lacking hs hc h, ih fun hmem => h (List.mem_cons_of_mem d hmem)]
    rfl

/-- A pattern with a text in it takes nothing only if it does not match. -/
theorem matchLength_getD {w : String} (hw : .text w ∈ ps) (hne : w.toList ≠ [])
    (before : Option Char) (cs : List Char) :
    ((matchLength ps before cs).getD 0 == 0) = !(Piece.run ps ⟨before, cs⟩).isSome := by
  have hpos := matchLength_ne_zero hw hne before cs
  rw [matchLength] at hpos ⊢
  cases hrun : Piece.run ps ⟨before, cs⟩ with
  | none => rfl
  | some there => simpa [hrun] using hpos

/-! ### Words -/

/-- Does a text begin with a word that no character of a class goes on with? -/
def beginsWord (goesOn : Char → Bool) (word cs : List Char) : Bool :=
  word.isPrefixOf cs && !heldBy goesOn (cs.drop word.length).head?

theorem beginsWord_append_colon {p : Char → Bool} {word : List Char} (hp : p ':' = false)
    (hword : ':' ∉ word) (cs : List Char) :
    beginsWord p word (cs ++ [':']) = beginsWord p word cs := by
  rw [beginsWord, beginsWord, isPrefixOf_append (by simpa using hword)]
  cases h : word.isPrefixOf cs with
  | false => rfl
  | true =>
    obtain ⟨ds, rfl⟩ := List.isPrefixOf_iff_prefix.1 h
    rw [List.append_assoc, List.drop_left, List.drop_left]
    cases ds with
    | nil => simp [heldBy, hp]
    | cons d ds => rfl

/-- A word that may not go on is matched where it begins the text. -/
theorem isSome_run_word (p : Char → Bool) (w : String) (before : Option Char) (cs : List Char) :
    (Piece.run [.text w, .notBefore p] ⟨before, cs⟩).isSome = beginsWord p w.toList cs := by
  cases h : w.toList.isPrefixOf cs with
  | false => rw [run_text_eq_none h, beginsWord, h, Bool.false_and, Option.isSome_none]
  | true =>
    obtain ⟨ds, rfl⟩ := List.isPrefixOf_iff_prefix.1 h
    rw [run_text, run_notBefore, beginsWord, h, List.drop_left]
    cases heldBy p ds.head? <;> rfl

/-- A word that ends at a boundary is matched where it begins the text. -/
theorem isSome_run_bounded {w : String} (hw : heldBy isWord w.toList.getLast? = true)
    (cs : List Char) : (Piece.run [.text w, .boundary] ⟨none, cs⟩).isSome =
      beginsWord isWord w.toList cs := by
  cases h : w.toList.isPrefixOf cs with
  | false => rw [run_text_eq_none h, beginsWord, h, Bool.false_and, Option.isSome_none]
  | true =>
    obtain ⟨ds, rfl⟩ := List.isPrefixOf_iff_prefix.1 h
    rw [run_text, Option.or_none, run_boundary, hw, beginsWord, h, List.drop_left]
    cases heldBy isWord ds.head? <;> rfl

/-- One of several words is matched by the first that fits. -/
theorem run_oneOf (words : List (List Piece)) (here : Text.Place) :
    Piece.run (oneOf words) here = words.findSome? fun word => Piece.run word here := by
  induction words with
  | nil =>
    obtain ⟨before, cs⟩ := here
    cases cs <;> rfl
  | cons word words ih =>
    have hstep : Piece.run (oneOf (word :: words)) here =
        (Piece.run word here).or (Piece.run (oneOf words) here) := by
      simp only [oneOf, List.foldr_cons, Piece.run, Piece.step]
      cases Option.or _ _ <;> rfl
    rw [hstep, ih, List.findSome?_cons]
    cases Piece.run word here <;> rfl

/-! ### The passes that matter -/

/-- The pattern of comdats. -/
def comdat : List Piece :=
  [.optional [.text ","], blanks, .boundary, .text "comdat",
    .optional [.text "($", .many (isNot ')'), .text ")"]]

/-- A comdat is looked for behind blanks. -/
theorem run_comdat (blank : List Char) (hblank : ∀ c ∈ blank, isBlank c = true)
    (hc : isBlank c = false) (hcomma : c ≠ ',') (before : Option Char) (cs : List Char) :
    Piece.run comdat ⟨before, blank ++ c :: cs⟩ = Piece.run [.boundary, .text "comdat",
      .optional [.text "($", .many (isNot ')'), .text ")"]] ⟨lastOr before blank, c :: cs⟩ := by
  have hstart : ",".toList.isPrefixOf (blank ++ c :: cs) = false := by
    cases blank with
    | nil => simpa [List.isPrefixOf] using Ne.symm hcomma
    | cons d blank =>
      have hd : ',' ≠ d := by
        rintro rfl
        exact absurd (hblank _ List.mem_cons_self) (by decide)
      simpa [List.isPrefixOf] using hd
  rw [comdat, run_optional, run_text_eq_none hstart, Option.getD_none, blanks, run_many,
    afterClass_append hblank hc]
  rfl

/-- A comdat is matched where the word begins. -/
theorem isSome_run_comdat (hblank : isBlank c = false) (hcomma : c ≠ ',') (before : Option Char)
    (cs : List Char) : (Piece.run comdat ⟨before, c :: cs⟩).isSome =
      (!heldBy isWord before && "comdat".toList.isPrefixOf (c :: cs)) := by
  have hstart := run_comdat [] (by simp) hblank hcomma before cs
  rw [List.nil_append, lastOr_nil, run_boundary] at hstart
  rw [hstart]
  cases hprefix : "comdat".toList.isPrefixOf (c :: cs) with
  | false => rw [run_text_eq_none hprefix, ite_self, Bool.and_false, Option.isSome_none]
  | true =>
    obtain ⟨ds, hds⟩ := List.isPrefixOf_iff_prefix.1 hprefix
    have hword : heldBy isWord (c :: cs).head? = true := by
      rw [← hds]
      exact (by decide : isWord 'c' = true)
    rw [hword, ← hds, run_text]
    cases heldBy isWord before <;> rfl

/-- No comdat is found where something else is next after blanks. -/
theorem run_comdat_eq_none (blank : List Char) (hblank : ∀ c ∈ blank, isBlank c = true)
    (hc : isBlank c = false ∧ c ≠ 'c' ∧ c ≠ ',') (before : Option Char) (cs : List Char) :
    Piece.run comdat ⟨before, blank ++ c :: cs⟩ = none := by
  have hword : "comdat".toList.isPrefixOf (c :: cs) = false := by
    simp [List.isPrefixOf, Ne.symm hc.2.1]
  rw [run_comdat blank hblank hc.1 hc.2.2, run_boundary, run_text_eq_none hword, ite_self]

/-- The pattern of alignments. -/
def alignment : List Piece := [.notAfter isNameLead, .text "align", blanks1, digits1]

theorem run_alignment_eq_none (h : "align".toList.isPrefixOf cs = false) (before : Option Char) :
    Piece.run alignment ⟨before, cs⟩ = none := by
  rw [alignment, run_notAfter, run_text_eq_none h, ite_self]

/-- No alignment is found in a text without blanks. -/
theorem eraseFrom_alignment (h : ∀ c ∈ cs, isBlank c = false) (before : Option Char) :
    eraseFrom alignment 0 before cs = cs :=
  eraseFrom_of_run fun _ _ hds => run_of_lacking_class (p := isBlank)
    (by simp [alignment, blanks1]) fun c hc => h c (hds.subset hc)

/-- Is the beginning of a label taken for an attribute? -/
def looksAttribute (cs : List Char) : Bool :=
  attributeWords.any fun w => beginsWord isDottedWord w.toList cs

/-- An attribute is matched where one begins, unless a name is in front of it. -/
theorem isSome_run_attributeWord (before : Option Char) (cs : List Char) :
    (Piece.run attributeWord ⟨before, cs⟩).isSome =
      (!heldBy isNameLead before && looksAttribute cs) := by
  rw [attributeWord, run_notAfter]
  cases heldBy isNameLead before with
  | true => rfl
  | false =>
    simp only [Bool.false_eq_true, if_false, run_oneOf, List.findSome?_map, List.isSome_findSome?,
      looksAttribute, Bool.not_false, Bool.true_and]
    exact congrArg _ (funext fun w => isSome_run_word isDottedWord w before cs)

theorem run_attributeWord_eq_none
    (h : heldBy isNameLead before = true ∨ looksAttribute cs = false) :
    Piece.run attributeWord ⟨before, cs⟩ = none := by
  rw [← Option.isNone_iff_eq_none, ← Option.not_isSome, isSome_run_attributeWord]
  obtain h | h := h <;> simp [h]

/-- No attribute is matched behind a character of a name. -/
theorem noneBegins_attributeWord (hc : isNameLead c = true) (h : ∀ d ∈ cs, isNameLead d = true)
    (rest : List Char) : noneBegins attributeWord (some c) cs rest = true := by
  induction cs generalizing c with
  | nil => rfl
  | cons d cs ih =>
    have hnone : matchLength attributeWord (some c) (d :: (cs ++ rest)) = none := by
      simp [matchLength, attributeWord, Piece.run, Piece.step, heldBy, hc]
    rw [noneBegins, hnone, ih (h d List.mem_cons_self) fun e he => h e (List.mem_cons_of_mem d he)]
    rfl

/-! ### Simple lines -/

/-- A line that most patterns find nothing in. -/
def IsSimple (cs : List Char) : Prop :=
  ∀ c ∈ cs, c ≠ ',' ∧ c ≠ '!' ∧ c ≠ '#' ∧ c ≠ '"' ∧ c ≠ '@' ∧ c ≠ ')'

instance (cs : List Char) : Decidable (IsSimple cs) := List.decidableBAll _ _

theorem IsSimple.append (hcs : IsSimple cs) (hds : IsSimple ds) : IsSimple (cs ++ ds) :=
  fun c hc => (List.mem_append.1 hc).elim (hcs c) (hds c)

/-- Only a few passes can find something in a simple line. -/
theorem normalLine_of_simple (h : IsSimple cs) : normalLine cs =
    trimEnd (closeBlanks false
      (erase attributeWord (erase alignment (erase comdat cs)))) := by
  have hlacks {c : Char} (hc : c = ',' ∨ c = '!' ∨ c = '#' ∨ c = '"' ∨ c = '@' ∨ c = ')')
      {ds : List Char} (hds : ds ⊆ cs) : c ∉ ds := fun hmem => by
    have := h c (hds hmem)
    simp_all
  have hnone (i : Nat) (t : String) (c : Char) (ht : .text t ∈ strips.getD i [])
      (hc : c ∈ t.toList) (hspecial : c = ',' ∨ c = '!' ∨ c = '#' ∨ c = '"' ∨ c = '@' ∨ c = ')')
      {ds : List Char} (hds : ds ⊆ cs) : erase (strips.getD i []) ds = ds :=
    erase_of_lacking ht hc (hlacks hspecial hds)
  have hsame := List.Subset.refl cs
  have hcomdat := erase_subset comdat cs
  have hfold : strips.foldl (fun cs p => erase p cs) cs =
      erase alignment (erase (strips.getD 7 []) (erase (strips.getD 6 []) (erase comdat
        (erase (strips.getD 4 []) (erase (strips.getD 3 []) (erase (strips.getD 2 [])
          (erase (strips.getD 1 []) (erase (strips.getD 0 []) cs)))))))) := rfl
  rw [normalLine, hfold, hnone 0 "," ',' (.head _) (by decide) (by simp) hsame,
    hnone 1 "!" '!' (.head _) (by decide) (by simp) hsame,
    hnone 2 "#" '#' (.head _) (by decide) (by simp) hsame,
    hnone 3 "," ',' (.head _) (by decide) (by simp) hsame,
    hnone 4 "\"" '"' (by simp [strips]) (by decide) (by simp) hsame,
    hnone 6 "@" '@' (by simp [strips]) (by decide) (by simp) hcomdat,
    hnone 7 ")" ')' (by simp [strips]) (by decide) (by simp) hcomdat]

/-- Closing up blanks makes no difference to a text without blanks. -/
theorem closeBlanks_of_visible (h : ∀ c ∈ cs, isBlank c = false) (inRun : Bool) :
    closeBlanks inRun cs = cs := by
  induction cs generalizing inRun with
  | nil => rfl
  | cons c cs ih =>
    have hc : (c == ' ' || c == '\t') = false := by
      refine Bool.eq_false_iff.2 fun hc => ?_
      obtain rfl | rfl : c = ' ' ∨ c = '\t' := by simpa using hc
      all_goals exact absurd (h _ List.mem_cons_self) (by decide)
    rw [closeBlanks, if_neg (by simp [hc]), ih fun d hd => h d (List.mem_cons_of_mem c hd)]

/-- A text that does not end in a blank has none to cut off. -/
theorem trimEnd_of_getLast? (h : ∀ c ∈ cs.getLast?, isBlank c = false) : trimEnd cs = cs := by
  cases hlast : cs.getLast? with
  | none =>
    obtain rfl := List.getLast?_eq_none_iff.1 hlast
    rfl
  | some c =>
    obtain ⟨ds, rfl⟩ := List.getLast?_eq_some_iff.1 hlast
    exact Parts.trimEnd_of_last (h c hlast)

end GoLift.Source
