import GoLift.Proofs.Source.Reads
import GoLift.Source.Normal

/-!
# Places in a text

A place is counted from the characters before it (`Position.behind`). The lexer gives each token the
place of its first character and stops at the place of the first character that no rule takes, and
these places come in the order of the text (`lexFrom_sorted`).

Normal text has the lines of the source, so a place in it is on the line it came from
(`exists_onLine`).
-/

set_option autoImplicit false

namespace GoLift.Source

open Text

/-! ### Counting -/

namespace Position

/-- The place behind some characters. -/
def behind (p : Position) (cs : List Char) : Position := cs.foldl after p

@[simp]
theorem behind_nil (p : Position) : p.behind [] = p := rfl

@[simp]
theorem behind_cons (p : Position) (c : Char) (cs : List Char) :
    p.behind (c :: cs) = (p.after c).behind cs := rfl

theorem behind_append (p : Position) (cs ds : List Char) :
    p.behind (cs ++ ds) = (p.behind cs).behind ds := by simp [behind]

@[simp]
theorem offset_after (p : Position) (c : Char) : (p.after c).offset = p.offset + 1 := by
  unfold after
  split <;> rfl

theorem offset_behind (p : Position) (cs : List Char) :
    (p.behind cs).offset = p.offset + cs.length := by
  induction cs generalizing p with
  | nil => rfl
  | cons c cs ih =>
    rw [behind_cons, ih, offset_after, List.length_cons]
    omega

/-- Characters of one line count as columns. -/
theorem behind_of_not_mem (p : Position) {cs : List Char} (h : '\n' ∉ cs) :
    p.behind cs = ⟨p.offset + cs.length, p.line, p.column + cs.length⟩ := by
  induction cs generalizing p with
  | nil => rfl
  | cons c cs ih =>
    simp only [List.mem_cons, not_or] at h
    have hc : p.after c = ⟨p.offset + 1, p.line, p.column + 1⟩ := by
      simp [after, Ne.symm h.1]
    rw [behind_cons, hc, ih _ h.2]
    simp only [List.length_cons, mk.injEq, true_and]
    omega

/-- A whole line counts as a line. -/
theorem behind_line (p : Position) {line : List Char} (h : '\n' ∉ line) :
    p.behind (line ++ ['\n']) = ⟨p.offset + line.length + 1, p.line + 1, 1⟩ := by
  rw [behind_append, behind_of_not_mem p h]
  simp [after]

end Position

/-! ### Tokens -/

theorem firstRule?_eq_none {here : List Char} :
    firstRule? here = none ↔ ∀ rule ∈ rules, matchLength rule.2 none here = none := by
  simp [firstRule?]

/-- A token is what the lexer takes at the beginning of a text. -/
def Token.ReadFrom (t : Token) (here : List Char) : Prop :=
  ∃ n, firstRule? here = some (some t.terminal, n) ∧ t.text = here.take n

/-- `p` is the place of the text `here` at the end of a text. -/
structure Position.IsAt (p start : Position) (text here : List Char) : Prop where
  exists_before : ∃ before, text = before ++ here ∧ p = start.behind before
  ne_nil : here ≠ []

namespace Position.IsAt

variable {p start : Position} {text here : List Char} {c : Char}

theorem first (c : Char) (cs : List Char) : start.IsAt start (c :: cs) (c :: cs) :=
  ⟨⟨[], rfl, rfl⟩, by simp⟩

theorem cons (h : p.IsAt (start.after c) text here) : p.IsAt start (c :: text) here := by
  obtain ⟨⟨before, rfl, rfl⟩, hne⟩ := h
  exact ⟨⟨c :: before, rfl, rfl⟩, hne⟩

theorem le_offset (h : p.IsAt start text here) : start.offset ≤ p.offset := by
  obtain ⟨⟨before, rfl, rfl⟩, -⟩ := h
  rw [offset_behind]
  omega

end Position.IsAt

/-- The lexer takes no token here, but a blank. -/
def IsBlankAt (here : List Char) : Prop := ∃ n, firstRule? here = some (none, n)

theorem Token.ReadFrom.not_blank {t : Token} {here : List Char} (h : t.ReadFrom here) :
    ¬ IsBlankAt here := by
  rintro ⟨n, hblank⟩
  obtain ⟨m, hread, -⟩ := h
  cases hblank.symm.trans hread

/-- A line feed is a blank, whatever follows it. -/
theorem isBlankAt_newline (cs : List Char) : IsBlankAt ('\n' :: cs) :=
  ⟨_, rfl⟩

theorem Position.IsAt.exists_char {p start : Position} {text here : List Char}
    (h : p.IsAt start text here) (hblank : ¬ IsBlankAt here) :
    ∃ c rest, p.IsAt start text (c :: rest) ∧ c ≠ '\n' := by
  cases here with
  | nil => exact absurd rfl h.ne_nil
  | cons c rest =>
    refine ⟨c, rest, h, ?_⟩
    rintro rfl
    exact hblank (isBlankAt_newline rest)

/-- Every token is read where its place is. -/
theorem mem_lexFrom {skip : Nat} {start : Position} {cs : List Char} {t : Token}
    (h : t ∈ (lexFrom skip start cs).tokens) :
    ∃ here, t.position.IsAt start cs here ∧ t.ReadFrom here := by
  fun_induction lexFrom with
  | case1 => simp at h
  | case2 start c cs skip ih =>
    obtain ⟨here, hat, hread⟩ := ih h
    exact ⟨here, hat.cons, hread⟩
  | case3 => simp at h
  | case4 start c cs n rest hrule ih =>
    obtain ⟨here, hat, hread⟩ := ih h
    exact ⟨here, hat.cons, hread⟩
  | case5 start c cs n rest terminal hrule ih =>
    obtain rfl | h := List.mem_cons.1 h
    · exact ⟨c :: cs, .first c cs, n, hrule, rfl⟩
    · obtain ⟨here, hat, hread⟩ := ih h
      exact ⟨here, hat.cons, hread⟩

/-- Where the lexer stops, no rule takes anything. -/
theorem stop_lexFrom {skip : Nat} {start p : Position} {cs : List Char}
    (h : (lexFrom skip start cs).stop = some p) :
    ∃ here, p.IsAt start cs here ∧ firstRule? here = none := by
  fun_induction lexFrom with
  | case1 => simp at h
  | case2 start c cs skip ih =>
    obtain ⟨here, hat, hnone⟩ := ih h
    exact ⟨here, hat.cons, hnone⟩
  | case3 start c cs hrule =>
    cases h
    exact ⟨c :: cs, .first c cs, hrule⟩
  | case4 start c cs n rest hrule ih =>
    obtain ⟨here, hat, hnone⟩ := ih h
    exact ⟨here, hat.cons, hnone⟩
  | case5 start c cs n rest terminal hrule ih =>
    obtain ⟨here, hat, hnone⟩ := ih h
    exact ⟨here, hat.cons, hnone⟩

/-- The places of the tokens and of the stop. -/
def Lexed.places (lexed : Lexed) : List Position :=
  lexed.tokens.map Token.position ++ lexed.stop.toList

theorem mem_places_lexFrom {skip : Nat} {start p : Position} {cs : List Char}
    (h : p ∈ (lexFrom skip start cs).places) : start.offset ≤ p.offset := by
  obtain h | h := List.mem_append.1 h
  · obtain ⟨t, ht, rfl⟩ := List.mem_map.1 h
    obtain ⟨here, hat, -⟩ := mem_lexFrom ht
    exact hat.le_offset
  · obtain ⟨here, hat, -⟩ := stop_lexFrom (Option.mem_toList.1 h)
    exact hat.le_offset

/-- Tokens, and where the lexer stops, are in the order of the text. -/
theorem lexFrom_sorted (skip : Nat) (start : Position) (cs : List Char) :
    (lexFrom skip start cs).places.Pairwise (·.offset < ·.offset) := by
  fun_induction lexFrom with
  | case1 => simp [Lexed.places]
  | case2 start c cs skip ih => exact ih
  | case3 => simp [Lexed.places]
  | case4 start c cs n rest hrule ih => exact ih
  | case5 start c cs n rest terminal hrule ih =>
    refine List.pairwise_cons.2 ⟨fun p hp => ?_, ih⟩
    have hle : (start.after c).offset ≤ p.offset := mem_places_lexFrom hp
    rw [Position.offset_after] at hle
    exact hle

/-! ### Lines -/

theorem isLineEnd_of_mem_splitLines {text line : List Char} (hline : line ∈ splitLines text)
    {c : Char} (hc : c ∈ line) : isLineEnd c = false := by
  fun_induction splitLines generalizing line with
  | case1 => simp at hline
  | case2 cs ih | case3 d cs _ _ ih =>
    obtain rfl | hline := List.mem_cons.1 hline
    · simp at hc
    · exact ih hline hc
  | case4 d cs _ hd =>
    obtain rfl := List.mem_singleton.1 hline
    obtain rfl := List.mem_singleton.1 hc
    simpa using hd
  | case5 d cs _ hd first lines hcs ih =>
    rw [hcs] at ih
    obtain rfl | hline := List.mem_cons.1 hline
    · obtain rfl | hc := List.mem_cons.1 hc
      · simpa using hd
      · exact ih (by simp) hc
    · exact ih (List.mem_cons_of_mem _ hline) hc

theorem eraseFrom_subset (ps : List Piece) (skip : Nat) (before : Option Char) (cs : List Char) :
    eraseFrom ps skip before cs ⊆ cs := by
  fun_induction eraseFrom with
  | case1 => exact List.Subset.refl _
  | case2 _ _ c cs ih | case3 _ c cs _ _ ih => exact List.subset_cons_of_subset c ih
  | case4 _ c cs _ ih => exact List.cons_subset_cons c ih

theorem erase_subset (ps : List Piece) (cs : List Char) : erase ps cs ⊆ cs :=
  eraseFrom_subset ps 0 none cs

theorem eraseAll_subset (pss : List (List Piece)) (cs : List Char) :
    pss.foldl (fun cs ps => erase ps cs) cs ⊆ cs := by
  induction pss generalizing cs with
  | nil => exact List.Subset.refl _
  | cons ps pss ih => exact List.Subset.trans (ih (erase ps cs)) (erase_subset ps cs)

theorem closeBlanks_subset (inRun : Bool) (cs : List Char) : closeBlanks inRun cs ⊆ ' ' :: cs := by
  fun_induction closeBlanks with
  | case1 => exact List.nil_subset _
  | case2 _ _ ih => grind
  | case3 _ _ _ ih => grind
  | case4 _ _ _ _ ih => grind

theorem trimEnd_subset (cs : List Char) : trimEnd cs ⊆ cs := fun c hc => by
  simpa using (List.dropWhile_sublist _).subset (List.mem_reverse.1 hc)

/-- Normal form adds nothing to a line but blanks. -/
theorem normalOrEmpty_subset (line : List Char) : normalOrEmpty line ⊆ ' ' :: line := by
  unfold normalOrEmpty
  split
  · exact List.nil_subset _
  · have herase : erase attributeWord (strips.foldl (fun cs ps => erase ps cs) line) ⊆ line :=
      List.Subset.trans (erase_subset _ _) (eraseAll_subset strips line)
    exact List.Subset.trans (trimEnd_subset _)
      (List.Subset.trans (closeBlanks_subset _ _) (List.cons_subset_cons ' ' herase))

theorem newline_not_mem_normalOrEmpty {text line : List Char} (hline : line ∈ splitLines text) :
    '\n' ∉ normalOrEmpty line := by
  intro hmem
  obtain h | h := List.mem_cons.1 (normalOrEmpty_subset line hmem)
  · cases h
  · exact absurd (isLineEnd_of_mem_splitLines hline h) (by decide)

theorem exists_line {lines : List (List Char)} (hlines : ∀ line ∈ lines, '\n' ∉ line)
    (start : Position) {p : Position} {c : Char} {rest : List Char}
    (h : p.IsAt start (lines.flatMap (· ++ ['\n'])) (c :: rest)) (hc : c ≠ '\n')
    (hstart : start.column = 1) :
    ∃ i before after, lines[i]? = some (before ++ c :: after) ∧
      p.offset = start.offset + ((lines.take i).flatMap (· ++ ['\n'])).length + before.length ∧
      p.line = start.line + i ∧ p.column = before.length + 1 := by
  obtain ⟨⟨before, htext, rfl⟩, hne⟩ := h
  induction lines generalizing start before with
  | nil => simp at htext
  | cons line lines ih =>
    rw [List.flatMap_cons] at htext
    have hline := hlines line List.mem_cons_self
    obtain ⟨before, rfl, hbehind⟩ | ⟨after, hafter⟩ := append_cons_cases htext
    · have hrest : ∀ l ∈ lines, '\n' ∉ l := fun l hl => hlines l (List.mem_cons_of_mem _ hl)
      obtain ⟨i, part, after, hi, hoffset, hrow, hcolumn⟩ := ih hrest
        (start.behind (line ++ ['\n'])) (by rw [Position.behind_line _ hline]) before hbehind
      refine ⟨i + 1, part, after, hi, ?_, ?_, ?_⟩
      · rw [Position.behind_append, hoffset, Position.offset_behind]
        simp
        omega
      · rw [Position.behind_append, hrow, Position.behind_line _ hline]
        show start.line + 1 + i = start.line + (i + 1)
        omega
      · rw [Position.behind_append, hcolumn]
    · obtain ⟨ws, -, hnewline⟩ | ⟨after, rfl⟩ := append_cons_cases hafter
      · -- The only character behind the line ends it.
        cases ws with
        | nil => exact absurd (List.cons.inj hnewline).1 hc.symm
        | cons w ws => simp at hnewline
      · have hpart : '\n' ∉ before := fun h => hline (List.mem_append_left _ h)
        refine ⟨0, before, after, rfl, ?_⟩
        rw [Position.behind_of_not_mem _ hpart]
        simp [hstart, Nat.add_comm]

/-- A place in normal text is that of a character on a line of the source. -/
def Position.OnLine (p : Position) (text : List Char) (i : Nat) : Prop :=
  ∃ line before c after, (splitLines text)[i]? = some line ∧
    normalOrEmpty line = before ++ c :: after ∧
    p.offset = (((splitLines text).take i).flatMap (normalOrEmpty · ++ ['\n'])).length +
      before.length ∧
    p.column = before.length + 1

theorem exists_onLine {text : List Char} {p : Position} {c : Char} {rest : List Char}
    (h : p.IsAt {} (normalText text) (c :: rest)) (hc : c ≠ '\n') :
    ∃ i, p.OnLine text i ∧ p.line = i + 1 := by
  have hfree : ∀ line ∈ (splitLines text).map normalOrEmpty, '\n' ∉ line := by
    intro line hline
    obtain ⟨source, hsource, rfl⟩ := List.mem_map.1 hline
    exact newline_not_mem_normalOrEmpty hsource
  unfold normalText at h
  split at h
  · -- A text without lines has a line feed for its normal form.
    obtain ⟨⟨before, htext, -⟩, -⟩ := h
    cases before with
    | nil => exact absurd (List.cons.inj htext).1 hc.symm
    | cons b before => simp at htext
  · obtain ⟨i, before, after, hi, hoffset, hline, hcolumn⟩ := exists_line hfree {} h hc rfl
    rw [List.getElem?_map] at hi
    obtain ⟨line, hsource, hnormal⟩ := Option.map_eq_some_iff.1 hi
    refine ⟨i, ⟨line, before, c, after, hsource, hnormal, ?_, hcolumn⟩,
      hline.trans (Nat.add_comm 1 i)⟩
    rw [hoffset, ← List.map_take, List.flatMap_map]
    simp

end GoLift.Source
