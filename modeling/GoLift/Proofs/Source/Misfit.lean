import GoLift.Proofs.Source.Building
import GoLift.Proofs.Source.Places
import GoLift.Proofs.Source.Recognition
import GoLift.Source.Reader
import Mathlib

/-!
# Where a text stops being a module

A text that is not written like a module is reported at one place. It is that of the first token
that no module goes on with, or of the first character that starts no token, or, if the text is
only the beginning of a module, of its last token (`Misfit`). There is only one such place
(`Misfit.unique`).

That the parser leaves off there is known of each of its parts (`Reads.viable`, `Reads.stuck`). The
lexer tells where that is, and normal form keeps the line.
-/

set_option autoImplicit false

namespace GoLift.Source

variable {text : List Char} {before : List Token} {t u : Token} {p q : Position}

/-! ### Beginnings of modules -/

/-- Tokens that are derived from the rule of modules. -/
def IsModule (ts : List Token) : Prop :=
  ∃ d : Derivation (.rule .module), d.yield = ts

/-- Tokens that a module begins with. What it goes on with can be written. -/
def Begins (ts : List Token) : Prop :=
  ∃ more, IsModule (ts ++ more) ∧ ∀ t ∈ more, t.Spelled

/-- A module begins with tokens and goes on with another one. -/
def GoesOn (ts : List Token) (t : Token) : Prop :=
  ∃ more, IsModule (ts ++ t :: more)

theorem IsModule.begins (h : IsModule before) : Begins before :=
  ⟨[], by simpa using h, by simp⟩

theorem Begins.goesOn {after : List Token} (h : Begins (before ++ t :: after)) :
    GoesOn before t := by
  obtain ⟨more, hmodule, -⟩ := h
  exact ⟨after ++ more, by simpa using hmodule⟩

theorem isModule_nil : IsModule [] := ⟨.rule ⟨0, by decide⟩ .nil, rfl⟩

theorem isModule_of_parseItems {trees : List ItemTree} (h : parseItems before = .ok trees) :
    IsModule before := by
  unfold parseItems at h
  split at h
  · next found rest hrun =>
    obtain rfl := items_rest _ _ _ _ hrun
    obtain ⟨d, hd, -⟩ := (module_reads before).sound _ _ hrun
    exact ⟨d, by simpa using hd.symm⟩
  · cases h

/-- The tokens that the parser takes before it fails begin a module, which cannot go on with the
next one, and cannot end either if there is none. -/
theorem parseItems_error {tokens rest : List Token} (h : parseItems tokens = .error rest) :
    ∃ before, tokens = before ++ rest ∧ Begins before ∧
      (∀ t after, rest = t :: after → ¬ GoesOn before t) ∧ (rest = [] → ¬ IsModule tokens) := by
  have hreads := module_reads tokens
  have hrun : Parse.fueled Parse.items tokens = .error rest := by
    unfold parseItems at h
    split at h
    · cases h
    · next hrun =>
      cases h
      exact hrun
  obtain ⟨before, d, more, htokens, hd, hmore⟩ := hreads.viable rest hrun
  refine ⟨before, htokens, ⟨more, ⟨d, hd⟩, hmore⟩, ?_, ?_⟩
  · rintro t after rfl ⟨more, d, hd⟩
    exact hreads.stuck t after (.inl hrun) before htokens d more hd
  · rintro rfl ⟨d, rfl⟩
    have hok : Parse.fueled Parse.items d.yield = .ok ((d.tree : List ItemTree), []) :=
      hreads.complete d [] (by simp) rfl
    rw [hrun] at hok
    cases hok

/-! ### Tokens before a place -/

/-- The tokens of a text that start before a place. -/
def tokensBefore (text : List Char) (p : Position) : List Token :=
  (lex text).tokens.filter (·.position.offset < p.offset)

/-- What is listed before a token starts before it, and what is listed behind starts behind. -/
theorem tokens_sorted {after : List Token} (h : (lex text).tokens = before ++ t :: after) :
    (∀ u ∈ before, u.position.offset < t.position.offset) ∧
      ∀ u ∈ after, t.position.offset < u.position.offset := by
  have hsorted := (List.pairwise_append.1 (lexFrom_sorted 0 {} text)).1
  change ((lex text).tokens.map Token.position).Pairwise _ at hsorted
  rw [List.pairwise_map, h] at hsorted
  obtain ⟨-, hbehind, hbefore⟩ := List.pairwise_append.1 hsorted
  exact ⟨fun u hu => hbefore u hu t List.mem_cons_self, (List.pairwise_cons.1 hbehind).1⟩

/-- No two tokens start at one place. -/
theorem eq_of_offset_eq (ht : t ∈ (lex text).tokens) (hu : u ∈ (lex text).tokens)
    (h : t.position.offset = u.position.offset) : t = u := by
  obtain ⟨before, after, htokens⟩ := List.append_of_mem ht
  obtain ⟨hbefore, hafter⟩ := tokens_sorted htokens
  rw [htokens, List.mem_append, List.mem_cons] at hu
  obtain hu | rfl | hu := hu
  · have := hbefore u hu
    omega
  · rfl
  · have := hafter u hu
    omega

theorem tokensBefore_eq {after : List Token} (h : (lex text).tokens = before ++ t :: after) :
    tokensBefore text t.position = before := by
  obtain ⟨hbefore, hafter⟩ := tokens_sorted h
  rw [tokensBefore, h, List.filter_append, List.filter_cons_of_neg (by simp),
    List.filter_eq_self.2, List.filter_eq_nil_iff.2, List.append_nil]
  · intro u hu
    have := hafter u hu
    simp only [decide_eq_true_eq]
    omega
  · intro u hu
    simpa using hbefore u hu

/-- Of a module that begins with the tokens before a place, each of them goes on with the next. -/
theorem goesOn_of_lt (ht : t ∈ (lex text).tokens) (hlt : t.position.offset < p.offset)
    (h : Begins (tokensBefore text p)) : GoesOn (tokensBefore text t.position) t := by
  obtain ⟨before, after, htokens⟩ := List.append_of_mem ht
  have hbefore : before.filter (·.position.offset < p.offset) = before := by
    refine List.filter_eq_self.2 fun u hu => ?_
    have := (tokens_sorted htokens).1 u hu
    simp only [decide_eq_true_eq]
    omega
  rw [tokensBefore, htokens, List.filter_append, List.filter_cons_of_pos (by simpa using hlt),
    hbefore] at h
  rw [tokensBefore_eq htokens]
  exact h.goesOn

theorem goesOn_of_begins (ht : t ∈ (lex text).tokens) (h : Begins (lex text).tokens) :
    GoesOn (tokensBefore text t.position) t := by
  obtain ⟨before, after, htokens⟩ := List.append_of_mem ht
  rw [tokensBefore_eq htokens]
  exact (htokens ▸ h).goesOn

theorem tokensBefore_stop (h : (lex text).stop = some p) :
    tokensBefore text p = (lex text).tokens := by
  have hstop := (List.pairwise_append.1 (lexFrom_sorted 0 {} text)).2.2
  refine List.filter_eq_self.2 fun t ht => ?_
  simpa using hstop _ (List.mem_map_of_mem ht) p (Option.mem_toList.2 h)

/-! ### The place of a fault -/

/-- Why a text in normal form is no module, and where this shows. -/
inductive Misfit (text : List Char) : Position → Prop
  /-- A module begins with the tokens before this one, and none goes on with it. -/
  | token {t : Token} {here : List Char} (hmem : t ∈ (lex text).tokens)
      (hat : t.position.IsAt {} text here) (hread : t.ReadFrom here)
      (hbefore : Begins (tokensBefore text t.position))
      (hnext : ¬ GoesOn (tokensBefore text t.position) t) : Misfit text t.position
  /-- A module begins with the tokens before this place, and neither a token nor a blank starts
  here. -/
  | character {p : Position} {here : List Char} (hstop : (lex text).stop = some p)
      (hat : p.IsAt {} text here) (hnone : ∀ rule ∈ rules, Text.matchLength rule.2 none here = none)
      (hbefore : Begins (tokensBefore text p)) : Misfit text p
  /-- The text ends. A module begins with its tokens, and they are not the whole of it. -/
  | ending (hstop : (lex text).stop = none) (hbegins : Begins (lex text).tokens)
      (hmodule : ¬ IsModule (lex text).tokens) :
      Misfit text (((lex text).tokens.getLast?.map Token.position).getD {})

theorem Misfit.of_stop (h : (lex text).stop = some p) (hbegins : Begins (lex text).tokens) :
    Misfit text p := by
  obtain ⟨here, hat, hnone⟩ := stop_lexFrom h
  exact .character h hat (firstRule?_eq_none.1 hnone) (by rwa [tokensBefore_stop h])

/-- A text that parses is read to its end, and its tokens are a module. -/
theorem isModule_of_parseText {trees : List ItemTree} (h : parseText text = .ok trees) :
    IsModule (lex text).tokens ∧ (lex text).stop = none := by
  unfold parseText at h
  dsimp only at h
  split at h
  · next hparse hstop => exact ⟨isModule_of_parseItems hparse, hstop⟩
  · cases h
  · cases h

theorem misfit_of_parseText (h : parseText text = .error p) : Misfit text p := by
  unfold parseText at h
  dsimp only at h
  split at h
  · cases h
  · next trees q hparse hstop =>
    cases h
    exact .of_stop hstop (isModule_of_parseItems hparse).begins
  · next rest hparse =>
    cases h
    obtain ⟨before, htokens, hbegins, hnext, hend⟩ := parseItems_error hparse
    unfold faultPosition
    split
    · next t after =>
      obtain ⟨here, hat, hread⟩ := mem_lexFrom (t := t) (by
        show t ∈ (lex text).tokens
        simp [htokens])
      have hbefore := tokensBefore_eq htokens
      exact .token (by simp [htokens]) hat hread (hbefore ▸ hbegins)
        (hbefore ▸ hnext t after rfl)
    · next hstop => exact .of_stop hstop (by simpa [htokens] using hbegins)
    · next hstop => exact .ending hstop (by simpa [htokens] using hbegins) (hend rfl)

/-- The place of a fault is that of a character that does not end a line. -/
theorem Misfit.exists_char (h : Misfit text p) :
    ∃ c rest, p.IsAt {} text (c :: rest) ∧ c ≠ '\n' := by
  cases h with
  | token _ hat hread _ _ => exact hat.exists_char hread.not_blank
  | character _ hat hnone _ =>
    refine hat.exists_char ?_
    rintro ⟨n, hblank⟩
    cases hblank.symm.trans (firstRule?_eq_none.2 hnone)
  | ending hstop hbegins hmodule =>
    cases hlast : (lex text).tokens.getLast? with
    | none => exact absurd (List.getLast?_eq_none_iff.1 hlast ▸ isModule_nil) hmodule
    | some t =>
      obtain ⟨here, hat, hread⟩ := mem_lexFrom (List.mem_of_getLast? hlast)
      exact hat.exists_char hread.not_blank

/-- A text stops being a module at one place. -/
theorem Misfit.unique (hp : Misfit text p) (hq : Misfit text q) : p = q := by
  -- Among tokens that begin a module, there is none that cannot follow those before it, so the
  -- place of such a token comes before no other place.
  cases hp with
  | @token t _ ht _ _ hbefore hnext =>
    cases hq with
    | @token u _ hu _ _ hbefore' hnext' =>
      obtain hlt | heq | hgt := Nat.lt_trichotomy t.position.offset u.position.offset
      · exact absurd (goesOn_of_lt ht hlt hbefore') hnext
      · rw [eq_of_offset_eq ht hu heq]
      · exact absurd (goesOn_of_lt hu hgt hbefore) hnext'
    | character hstop _ _ hbefore' =>
      exact absurd (goesOn_of_begins ht (tokensBefore_stop hstop ▸ hbefore')) hnext
    | ending _ hbegins _ => exact absurd (goesOn_of_begins ht hbegins) hnext
  | character hstop _ _ hbefore =>
    cases hq with
    | @token u _ hu _ _ _ hnext =>
      exact absurd (goesOn_of_begins hu (tokensBefore_stop hstop ▸ hbefore)) hnext
    | character hstop' _ _ _ => exact Option.some.inj (hstop.symm.trans hstop')
    | ending hstop' _ _ => cases hstop.symm.trans hstop'
  | ending hstop hbegins _ =>
    cases hq with
    | @token u _ hu _ _ _ hnext => exact absurd (goesOn_of_begins hu hbegins) hnext
    | character hstop' _ _ _ => cases hstop.symm.trans hstop'
    | ending _ _ _ => rfl

/-- Parsing fails where the text stops being a module, and only there. -/
theorem parseText_eq_error_iff : parseText text = .error p ↔ Misfit text p := by
  refine ⟨misfit_of_parseText, fun hp => ?_⟩
  cases hparse : parseText text with
  | error q => rw [(misfit_of_parseText hparse).unique hp]
  | ok trees =>
    obtain ⟨hmodule, hstop⟩ := isModule_of_parseText hparse
    cases hp with
    | token ht _ _ _ hnext => exact absurd (goesOn_of_begins ht hmodule.begins) hnext
    | character hstop' _ _ _ => cases hstop.symm.trans hstop'
    | ending _ _ hnot => exact absurd hmodule hnot

/-- **Reading fails at the first impossible token.** The tokens before the reported place begin a
module, and nothing that stands there can follow them; if the text ends too early, all its tokens
begin a module without being one, and the place is that of the last of them. The reported line is
that of the source which the place lies on. -/
theorem readModule_misfit {name source shown : String} {text : List Char} {line column : Nat}
    {site : Site}
    (h : readModule name text = .error (.report (.unparsable source line column shown) site)) :
    ∃ p : Position, p.line = line ∧ p.column = column ∧ Misfit (normalText text) p ∧
      ∃ i, p.OnLine text i ∧ line = i + 1 := by
  unfold readModule at h
  dsimp only at h
  split at h
  · exact absurd (Build.module_accepts h) (by simp [Fault.isSyntax])
  · next p hparse =>
    cases h
    have hmisfit := misfit_of_parseText hparse
    obtain ⟨c, rest, hat, hc⟩ := hmisfit.exists_char
    obtain ⟨i, hline, hi⟩ := exists_onLine hat hc
    exact ⟨p, rfl, rfl, hmisfit, i, hline, hi⟩

/-- A word where a type should be, behind a line that says nothing about the program and an empty
line. The lines end in different ways. -/
def strayWord : List Char := "target triple = \"x\"\x0d\n\x0b%a = type ret\n".toList

theorem normalText_strayWord : normalText strayWord = "\n\n%a = type ret\n".toList := by
  decide +kernel

theorem parseText_strayWord :
    parseText "\n\n%a = type ret\n".toList = .error ⟨12, 3, 11⟩ := by cbv

theorem readModule_strayWord : readModule "m" strayWord =
    .error (.report (.unparsable "m" 3 11 "%a = type ret\n          ^") {}) := by
  have hcontext : context "\n\n%a = type ret\n".toList 12 = "%a = type ret\n          ^" := by
    decide +kernel
  simp only [readModule, normalText_strayWord, parseText_strayWord, hcontext, Cause.fault]

/-- The word is reported on the third line. -/
theorem strayWord_on_third_line :
    readModule "m" strayWord =
        .error (.report (.unparsable "m" 3 11 "%a = type ret\n          ^") {}) ∧
      ∃ p : Position, p.line = 3 ∧ p.column = 11 ∧ Misfit (normalText strayWord) p ∧
        ∃ i, p.OnLine strayWord i ∧ 3 = i + 1 :=
  ⟨readModule_strayWord, readModule_misfit readModule_strayWord⟩

end GoLift.Source
