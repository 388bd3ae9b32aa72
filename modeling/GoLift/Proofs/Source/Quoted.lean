import GoLift.Source.Normal
import Mathlib.Data.List.Infix

/-!
# What normal form does to quoted text

The bytes of a string constant and quoted names are part of the program, so normal form
should leave them alone. Its passes know nothing of quotes: each one erases the matches of a
pattern from the line as the passes before have left it.

A line is looked at here in three parts (`Parts`), of which the middle one is a quoted text,
and every pass is taken apart into what it does to each (`Parts.text_erase`). **What comes out
of the middle is the quoted text exactly if no pass has a match that begins in it or reaches
into it, and it has no blanks to close up** (`Quotation.kept_iff`).
-/

set_option autoImplicit false

namespace GoLift.Source

open Text

/-! ### One pass over a part of a text -/

/-- What precedes the text after `cs`. -/
def lastOr (before : Option Char) (cs : List Char) : Option Char :=
  cs.getLast?.or before

@[simp] theorem lastOr_nil (before : Option Char) : lastOr before [] = before := rfl

@[simp] theorem lastOr_cons (before : Option Char) (c : Char) (cs : List Char) :
    lastOr before (c :: cs) = lastOr (some c) cs := by
  cases cs <;> simp [lastOr, List.getLast?_cons]

/-- What a pass leaves of `cs`, which `rest` follows, and how many characters its last match
takes of `rest`. -/
def scan (ps : List Piece) : Nat → Option Char → List Char → List Char → List Char × Nat
  | skip, _, [], _ => ([], skip)
  | skip + 1, _, c :: cs, rest => scan ps skip (some c) cs rest
  | 0, before, c :: cs, rest =>
    match matchLength ps before (c :: (cs ++ rest)) with
    | some (n + 1) => scan ps n (some c) cs rest
    | _ => (c :: (scan ps 0 (some c) cs rest).1, (scan ps 0 (some c) cs rest).2)

/-- No match of the pattern begins in `cs`, which `rest` follows. -/
def noneBegins (ps : List Piece) (before : Option Char) : List Char → List Char → Bool
  | [], _ => true
  | c :: cs, rest =>
    (matchLength ps before (c :: (cs ++ rest))).getD 0 == 0 && noneBegins ps (some c) cs rest

section

variable {ps : List Piece} {skip : Nat} {before : Option Char} {cs rest : List Char}

/-- **A pass goes over a part, and then over the rest.** -/
theorem eraseFrom_append (ps : List Piece) (skip : Nat) (before : Option Char)
    (cs rest : List Char) : eraseFrom ps skip before (cs ++ rest) =
      (scan ps skip before cs rest).1 ++
        eraseFrom ps (scan ps skip before cs rest).2 (lastOr before cs) rest := by
  induction cs generalizing skip before with
  | nil => simp [scan]
  | cons c cs ih =>
    rw [List.cons_append, lastOr_cons]
    cases skip with
    | succ skip => rw [eraseFrom, scan, ih]
    | zero =>
      rw [eraseFrom, scan]
      rcases matchLength ps before (c :: (cs ++ rest)) with _ | _ | n
      · rw [ih, List.cons_append]
      · rw [ih, List.cons_append]
      · exact ih n (some c)

theorem scan_length (ps : List Piece) (skip : Nat) (before : Option Char) (cs rest : List Char) :
    (scan ps skip before cs rest).1.length ≤ cs.length := by
  induction cs generalizing skip before with
  | nil => simp [scan]
  | cons c cs ih =>
    cases skip with
    | succ skip =>
      rw [scan, List.length_cons]
      exact Nat.le_succ_of_le (ih _ _)
    | zero =>
      rw [scan]
      split
      · exact Nat.le_succ_of_le (ih _ _)
      · exact Nat.succ_le_succ (ih _ _)

/-- **A pass leaves a part as it is if no match reaches into it and none begins in it.** -/
theorem scan_of_spared (h : noneBegins ps before cs rest = true) :
    scan ps 0 before cs rest = (cs, 0) := by
  induction cs generalizing before with
  | nil => rfl
  | cons c cs ih =>
    rw [noneBegins, Bool.and_eq_true, beq_iff_eq] at h
    rw [scan]
    split
    · next n hn =>
      rw [hn] at h
      cases h.1
    · rw [ih h.2]

/-- A pass that leaves all of a part has no match in it. -/
theorem spared_of_scan (hne : cs ≠ [])
    (h : (scan ps skip before cs rest).1.length = cs.length) :
    skip = 0 ∧ noneBegins ps before cs rest = true := by
  induction cs generalizing skip before with
  | nil => exact absurd rfl hne
  | cons c cs ih =>
    cases skip with
    | succ skip =>
      have hle := scan_length ps skip (some c) cs rest
      rw [scan, List.length_cons] at h
      omega
    | zero =>
      refine ⟨rfl, ?_⟩
      rw [scan] at h
      rw [noneBegins, Bool.and_eq_true, beq_iff_eq]
      rcases hn : matchLength ps before (c :: (cs ++ rest)) with _ | _ | n
      all_goals rw [hn] at h
      case some.succ =>
        have hle := scan_length ps n (some c) cs rest
        rw [List.length_cons] at h
        dsimp only at h
        omega
      all_goals
        refine ⟨rfl, ?_⟩
        cases cs with
        | nil => rfl
        | cons d ds => exact (ih (List.cons_ne_nil d ds) (Nat.succ.inj h)).2

end

/-! ### Blanks over a part of a text -/

/-- Does a text after a run of blanks, or not, end in one? -/
def endsInRun (inRun : Bool) (cs : List Char) : Bool :=
  (cs.getLast?.map fun c => c == ' ' || c == '\t').getD inRun

@[simp] theorem endsInRun_cons (inRun : Bool) (c : Char) (cs : List Char) :
    endsInRun inRun (c :: cs) = endsInRun (c == ' ' || c == '\t') cs := by
  cases cs <;> simp [endsInRun, List.getLast?_cons]

theorem closeBlanks_append (inRun : Bool) (cs ds : List Char) :
    closeBlanks inRun (cs ++ ds) = closeBlanks inRun cs ++ closeBlanks (endsInRun inRun cs) ds := by
  induction cs generalizing inRun with
  | nil => rfl
  | cons c cs ih =>
    rw [List.cons_append, endsInRun_cons, closeBlanks, closeBlanks]
    split
    · next hc =>
      rw [hc]
      split
      · exact ih true
      · rw [ih true, List.cons_append]
    · next hc =>
      rw [Bool.eq_false_iff.2 hc, ih false, List.cons_append]

theorem closeBlanks_length (inRun : Bool) (cs : List Char) :
    (closeBlanks inRun cs).length ≤ cs.length := by
  induction cs generalizing inRun with
  | nil => exact Nat.le_refl 0
  | cons c cs ih =>
    rw [closeBlanks]
    split
    · split
      · exact Nat.le_succ_of_le (ih true)
      · exact Nat.succ_le_succ (ih true)
    · exact Nat.succ_le_succ (ih false)

/-- Blanks are single spaces. -/
def tight (inRun : Bool) : List Char → Bool
  | [] => true
  | c :: cs => c != '\t' && !(inRun && c == ' ') && tight (c == ' ') cs

/-- **Closing up blanks leaves a text as it is if they are single spaces**, and only then. -/
theorem closeBlanks_eq_self_iff {inRun : Bool} {cs : List Char} :
    closeBlanks inRun cs = cs ↔ tight inRun cs = true := by
  induction cs generalizing inRun with
  | nil => simp [closeBlanks, tight]
  | cons c cs ih =>
    have hlonger : closeBlanks true cs ≠ c :: cs := by
      intro h
      have hle := closeBlanks_length true cs
      rw [h, List.length_cons] at hle
      omega
    rw [closeBlanks, tight]
    by_cases htab : c = '\t'
    · subst htab
      cases inRun with
      | true => simpa using hlonger
      | false => simp
    · by_cases hspace : c = ' '
      · subst hspace
        cases inRun with
        | true => simpa using hlonger
        | false => simpa using ih
      · have hother : (c == ' ') = false := beq_false_of_ne hspace
        simpa [htab, hother] using ih

/-! ### Lines in three parts -/

/-- A line with a part of it that is looked at. -/
structure Parts where
  before : List Char
  inside : List Char
  after : List Char

namespace Parts

/-- The whole line. -/
def text (x : Parts) : List Char := x.before ++ (x.inside ++ x.after)

/-- How many characters of what follows a match takes that begins before the part. -/
def reach (ps : List Piece) (x : Parts) : Nat :=
  (scan ps 0 none x.before (x.inside ++ x.after)).2

/-- What a pass leaves of each part. -/
def erase (ps : List Piece) (x : Parts) : Parts :=
  let last := lastOr none x.before
  let inner := scan ps (x.reach ps) last x.inside x.after
  { before := (scan ps 0 none x.before (x.inside ++ x.after)).1
    inside := inner.1
    after := eraseFrom ps inner.2 (lastOr last x.inside) x.after }

/-- What closing up blanks leaves of each part. -/
def closeBlanks (x : Parts) : Parts :=
  let inRun := endsInRun false x.before
  { before := Source.closeBlanks false x.before
    inside := Source.closeBlanks inRun x.inside
    after := Source.closeBlanks (endsInRun inRun x.inside) x.after }

/-- What is left of each part without the blanks at the end of the line. -/
def trimEnd (x : Parts) : Parts :=
  if Text.trimEnd x.after = [] then
    if Text.trimEnd x.inside = [] then ⟨Text.trimEnd x.before, [], []⟩
    else ⟨x.before, Text.trimEnd x.inside, []⟩
  else ⟨x.before, x.inside, Text.trimEnd x.after⟩

/-- The passes over a line, in their order. -/
def passes : List (List Piece) := strips ++ [attributeWord]

/-- What a list of passes leaves of each part. -/
def eraseAll (pss : List (List Piece)) (x : Parts) : Parts :=
  pss.foldl (fun x ps => x.erase ps) x

/-- What normal form leaves of each part. -/
def normal (x : Parts) : Parts :=
  (x.eraseAll passes).closeBlanks.trimEnd

theorem text_erase (ps : List Piece) (x : Parts) : (x.erase ps).text = Text.erase ps x.text := by
  rw [Text.erase, text, text, eraseFrom_append, eraseFrom_append]
  rfl

theorem text_closeBlanks (x : Parts) : x.closeBlanks.text = Source.closeBlanks false x.text := by
  rw [text, text, closeBlanks_append, closeBlanks_append]
  rfl

theorem trimEnd_append (cs ds : List Char) : Text.trimEnd (cs ++ ds) =
    if Text.trimEnd ds = [] then Text.trimEnd cs else cs ++ Text.trimEnd ds := by
  simp only [Text.trimEnd, List.reverse_append, List.dropWhile_append, List.reverse_eq_nil_iff,
    List.isEmpty_iff]
  split
  · rfl
  · simp

theorem text_trimEnd (x : Parts) : x.trimEnd.text = Text.trimEnd x.text := by
  rw [text, text, trimEnd_append, trimEnd_append, trimEnd]
  split
  · split <;> simp
  · next h => simp [h]

theorem text_eraseAll (pss : List (List Piece)) (x : Parts) :
    (x.eraseAll pss).text = pss.foldl (fun cs ps => Text.erase ps cs) x.text := by
  induction pss generalizing x with
  | nil => rfl
  | cons ps pss ih =>
    rw [List.foldl_cons, ← text_erase]
    exact ih (x.erase ps)

/-- **The parts of the normal form make up the normal form.** -/
theorem text_normal (x : Parts) : x.normal.text = normalLine x.text := by
  rw [normal, text_trimEnd, text_closeBlanks, text_eraseAll, passes, List.foldl_append]
  rfl

/-! ### Parts that are spared -/

/-- Does no match of a pass take anything of the part, neither one that begins before it nor
one that begins in it? -/
def spared (ps : List Piece) (x : Parts) : Bool :=
  x.reach ps == 0 && noneBegins ps (lastOr none x.before) x.inside x.after

/-- Does no match of any pass take anything of the part, each in the line as the passes before
have left it? -/
def sparedByAll : List (List Piece) → Parts → Bool
  | [], _ => true
  | ps :: pss, x => x.spared ps && sparedByAll pss (x.erase ps)

theorem inside_erase_length (ps : List Piece) (x : Parts) :
    (x.erase ps).inside.length ≤ x.inside.length :=
  scan_length _ _ _ _ _

theorem inside_eraseAll_length (pss : List (List Piece)) (x : Parts) :
    (x.eraseAll pss).inside.length ≤ x.inside.length := by
  induction pss generalizing x with
  | nil => exact Nat.le_refl _
  | cons ps pss ih => exact (ih (x.erase ps)).trans (inside_erase_length ps x)

theorem inside_erase_of_spared {ps : List Piece} {x : Parts} (h : x.spared ps = true) :
    (x.erase ps).inside = x.inside := by
  rw [spared, Bool.and_eq_true, beq_iff_eq] at h
  rw [erase, h.1]
  exact congrArg Prod.fst (scan_of_spared h.2)

theorem inside_eraseAll_of_spared {pss : List (List Piece)} {x : Parts}
    (h : x.sparedByAll pss = true) : (x.eraseAll pss).inside = x.inside := by
  induction pss generalizing x with
  | nil => rfl
  | cons ps pss ih =>
    rw [sparedByAll, Bool.and_eq_true] at h
    exact (ih h.2).trans (inside_erase_of_spared h.1)

/-- What loses nothing is spared by every pass. -/
theorem sparedByAll_of_length {pss : List (List Piece)} {x : Parts} (hne : x.inside ≠ [])
    (h : (x.eraseAll pss).inside.length = x.inside.length) : x.sparedByAll pss = true := by
  induction pss generalizing x with
  | nil => rfl
  | cons ps pss ih =>
    have hfirst := inside_erase_length ps x
    have hrest := inside_eraseAll_length pss (x.erase ps)
    have hsum : ((x.erase ps).eraseAll pss).inside.length = x.inside.length := h
    have hkept : (x.erase ps).inside.length = x.inside.length := by omega
    obtain ⟨hreach, hnone⟩ := spared_of_scan hne hkept
    have hspared : x.spared ps = true := by
      rw [spared, hreach, hnone]
      rfl
    have hsame := inside_erase_of_spared hspared
    rw [sparedByAll, hspared, Bool.true_and]
    exact ih (hsame ▸ hne) (hsum.trans (congrArg List.length hsame).symm)

theorem trimEnd_isPrefix (cs : List Char) : Text.trimEnd cs <+: cs := by
  rw [Text.trimEnd, ← List.reverse_suffix, List.reverse_reverse]
  exact List.dropWhile_suffix _

theorem trimEnd_of_last {cs : List Char} {c : Char} (hc : isBlank c = false) :
    Text.trimEnd (cs ++ [c]) = cs ++ [c] := by
  simp [Text.trimEnd, hc]

/-- Blanks at the end of a line are either cut off from a part or not. -/
theorem inside_trimEnd (x : Parts) :
    x.trimEnd.inside = x.inside ∨ x.trimEnd.inside = Text.trimEnd x.inside := by
  rw [trimEnd]
  split
  · split
    · next h => exact .inr h.symm
    · exact .inr rfl
  · exact .inl rfl

/-- What closing up blanks and cutting off the last ones leaves no shorter, only has its blanks
closed up. -/
theorem inside_of_length_le {x : Parts}
    (h : x.inside.length ≤ x.closeBlanks.trimEnd.inside.length) :
    x.closeBlanks.trimEnd.inside = Source.closeBlanks (endsInRun false x.before) x.inside := by
  have hclosed : x.closeBlanks.inside.length ≤ x.inside.length := closeBlanks_length _ _
  rcases inside_trimEnd x.closeBlanks with htrim | htrim
  · exact htrim
  · have hprefix := trimEnd_isPrefix x.closeBlanks.inside
    rw [← htrim] at hprefix
    exact hprefix.eq_of_length_le (hclosed.trans h)

theorem inside_closeBlanks_length (x : Parts) :
    x.closeBlanks.trimEnd.inside.length ≤ x.inside.length := by
  have hclosed : x.closeBlanks.inside.length ≤ x.inside.length := closeBlanks_length _ _
  rcases inside_trimEnd x.closeBlanks with h | h
  · rw [h]
    exact hclosed
  · rw [h]
    exact (trimEnd_isPrefix _).length_le.trans hclosed

/-- Blanks before a part that begins with something visible do not matter. -/
theorem tight_of_first {c : Char} {cs : List Char} (hc : isBlank c = false) (inRun : Bool) :
    tight inRun (c :: cs) = tight false (c :: cs) := by
  have hspace : (c == ' ') = false := by
    refine beq_false_of_ne ?_
    rintro rfl
    exact absurd hc (by decide)
  simp only [tight, hspace, Bool.and_false]

/-- **A part that begins and ends with something visible is left as it is exactly if every pass
spares it and its blanks are single spaces.** -/
theorem inside_normal_iff {x : Parts} {c d : Char} {cs ds : List Char}
    (hfirst : x.inside = c :: cs) (hlast : x.inside = ds ++ [d]) (hc : isBlank c = false)
    (hd : isBlank d = false) :
    x.normal.inside = x.inside ↔ x.sparedByAll passes = true ∧ tight false x.inside = true := by
  have htight (inRun : Bool) : tight inRun x.inside = tight false x.inside := by
    rw [hfirst]
    exact tight_of_first hc inRun
  rw [normal]
  have herased := inside_eraseAll_length passes x
  have hspared : x.sparedByAll passes = true → (x.eraseAll passes).inside = x.inside :=
    inside_eraseAll_of_spared
  have hall : x.inside ≠ [] → (x.eraseAll passes).inside.length = x.inside.length →
      x.sparedByAll passes = true := sparedByAll_of_length
  generalize x.eraseAll passes = y at herased hspared hall
  constructor
  · intro h
    have hle := inside_closeBlanks_length y
    rw [h] at hle
    have hkept := hall (by simp [hfirst]) (Nat.le_antisymm herased hle)
    have hsame := hspared hkept
    rw [inside_of_length_le (by rw [h, hsame]), hsame] at h
    exact ⟨hkept, (htight _).symm.trans (closeBlanks_eq_self_iff.1 h)⟩
  · rintro ⟨hkept, htight'⟩
    have hclosed : y.closeBlanks.inside = x.inside := by
      rw [closeBlanks, hspared hkept]
      exact closeBlanks_eq_self_iff.2 ((htight _).trans htight')
    rcases inside_trimEnd y.closeBlanks with h | h
    · exact h.trans hclosed
    · rw [h, hclosed, hlast, trimEnd_of_last hd]

end Parts

/-! ### Quoted text -/

theorem tight_append_visible {c : Char} (hc : isBlank c = false) (inRun : Bool) (cs : List Char) :
    tight inRun (cs ++ [c]) = tight inRun cs := by
  have htab : c ≠ '\t' := by
    rintro rfl
    exact absurd hc (by decide)
  have hspace : c ≠ ' ' := by
    rintro rfl
    exact absurd hc (by decide)
  induction cs generalizing inRun with
  | nil => simp [tight, htab, hspace]
  | cons d cs ih => rw [List.cons_append, tight, tight, ih]

/-- What stands in front of quoted text and says what it is. -/
inductive Lead
  /-- The bytes of a string constant. -/
  | bytes
  | localName
  | globalName
  /-- A label has nothing in front and a colon behind. -/
  | label

/-- The character in front, if there is one. -/
def Lead.text : Lead → List Char
  | .bytes => ['c']
  | .localName => ['%']
  | .globalName => ['@']
  | .label => []

/-- A quoted text of a line. Quotes are paired from left to right, so an even number of
them is in front. -/
structure Quotation where
  before : List Char
  lead : Lead
  body : List Char
  after : List Char
  outside : before.count '"' % 2 = 0
  closed : '"' ∉ body
  colon : lead = .label → after.head? = some ':'

namespace Quotation

/-- The quoted text with its quotes and what is in front. -/
def text (x : Quotation) : List Char := x.lead.text ++ '"' :: (x.body ++ ['"'])

/-- The line with the quoted text looked at. -/
def parts (x : Quotation) : Parts := ⟨x.before, x.text, x.after⟩

/-- The line. -/
def line (x : Quotation) : List Char := x.before ++ (x.text ++ x.after)

/-- What is left of the quoted text in the normal form of the line. -/
def left (x : Quotation) : List Char := x.parts.normal.inside

theorem tight_text (x : Quotation) : tight false x.text = tight false x.body := by
  have hbody : tight false ('"' :: (x.body ++ ['"'])) = tight false x.body := by
    simp [tight, tight_append_visible (by decide : isBlank '"' = false)]
  rw [text]
  cases x.lead with
  | label => exact hbody
  | _ => simpa [Lead.text, tight] using hbody

/-- **Quoted text comes through normal form unchanged exactly if no match of any pass takes
anything of it and its blanks are single spaces.** What comes through stands in the normal
form where the quoted text stood. -/
theorem kept_iff (x : Quotation) :
    (∃ u v, normalLine x.line = u ++ x.left ++ v) ∧
      (x.left = x.text ↔
        x.parts.sparedByAll Parts.passes = true ∧ tight false x.body = true) := by
  constructor
  · refine ⟨x.parts.normal.before, x.parts.normal.after, ?_⟩
    rw [List.append_assoc]
    exact (Parts.text_normal x.parts).symm
  · obtain ⟨c, cs, hfirst, hc⟩ : ∃ c cs, x.text = c :: cs ∧ isBlank c = false := by
      rw [text]
      cases x.lead <;> exact ⟨_, _, rfl, by decide⟩
    have hlast : x.text = (x.lead.text ++ '"' :: x.body) ++ ['"'] := by simp [text]
    rw [← tight_text]
    exact Parts.inside_normal_iff hfirst hlast hc (by decide)

end Quotation

/-! ### A string that holds a flag -/

namespace Flagged

/-- A string constant of the given bytes. -/
def constant (body : String) (closed : '"' ∉ body.toList) : Quotation where
  before := "@s = constant [8 x i8] ".toList
  lead := .bytes
  body := body.toList
  after := []
  outside := by decide
  closed := closed
  colon h := by cases h

/-- `a now b` and its end. -/
def harmless : Quotation := constant "a now b\\00" (by decide)

/-- `a nsw b` and its end. -/
def flagged : Quotation := constant "a nsw b\\00" (by decide)

theorem normalLine_flagged :
    normalLine flagged.line = "@s = constant [8 x i8] c\"a b\\00\"".toList := by
  decide +kernel

/-- A word that is no flag stays in a string constant. A flag is removed from it like from
anywhere else, and then the constant has fewer bytes than its type says. -/
theorem constant_kept_unless_flagged :
    harmless.left = harmless.text ∧ ¬flagged.text <:+: normalLine flagged.line := by
  refine ⟨harmless.kept_iff.2.2 ⟨by decide +kernel, by decide +kernel⟩, ?_⟩
  rw [normalLine_flagged]
  decide +kernel

end Flagged

end GoLift.Source
