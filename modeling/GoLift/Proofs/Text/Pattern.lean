import GoLift.Text.Pattern
import Mathlib.Data.List.Infix

/-!
# What a pattern takes of a text

A pattern is looked at one piece after the other (`run_text`, `run_many` and so on). It takes
characters from the beginning of a text and leaves the end of it (`run_suffix`), so it does not
match where a character it needs is missing (`run_of_lacking`). If it never takes a line feed, then
what it takes of a line does not depend on the lines that follow (`run_onLine`).
-/

set_option autoImplicit false

namespace GoLift.Text

variable {cs : List Char} {c : Char}

/-! ### The end of the text -/

theorem afterClass_rest (p : Char → Bool) (before : Option Char) (cs : List Char) :
    (Place.afterClass p before cs).rest = cs.dropWhile p := by
  induction cs generalizing before with
  | nil => rfl
  | cons c cs ih =>
    rw [Place.afterClass, List.dropWhile_cons]
    split
    · exact ih (some c)
    · rfl

theorem afterClass_suffix (p : Char → Bool) (before : Option Char) (cs : List Char) :
    (Place.afterClass p before cs).rest <:+ cs := by
  rw [afterClass_rest]
  exact List.dropWhile_suffix p

theorem afterText_rest {s : List Char} {here there : Place}
    (h : Place.afterText s here = some there) : here.rest = s ++ there.rest := by
  induction s generalizing here with
  | nil =>
    cases h
    rfl
  | cons c s ih =>
    obtain ⟨before, cs⟩ := here
    cases cs with
    | nil => cases h
    | cons d cs =>
      rw [Place.afterText] at h
      split at h
      · next hd =>
        rw [beq_iff_eq.1 hd, List.cons_append, ← ih h]
      · cases h

mutual

/-- A piece leaves the end of the text. -/
theorem step_suffix : ∀ (p : Piece) {here there : Place}, p.step here = some there →
    there.rest <:+ here.rest
  | .text s, here, there, h => ⟨s.toList, (afterText_rest h).symm⟩
  | .one p, ⟨before, []⟩, there, h => by simp [Piece.step, heldBy] at h
  | .one p, ⟨before, c :: cs⟩, there, h => by
    rw [Piece.step] at h
    split at h
    · cases h
      exact List.suffix_cons c cs
    · cases h
  | .many p, here, there, h => by
    cases h
    exact afterClass_suffix p _ _
  | .many1 p, here, there, h => by
    rw [Piece.step] at h
    split at h
    · cases h
      exact afterClass_suffix p _ _
    · cases h
  | .optional ps, here, there, h => by
    cases hrun : Piece.run ps here with
    | none =>
      simp only [Piece.step, hrun, Option.getD_none, Option.some.injEq] at h
      exact h ▸ List.suffix_refl _
    | some mid =>
      simp only [Piece.step, hrun, Option.getD_some, Option.some.injEq] at h
      exact h ▸ run_suffix ps hrun
  | .either ps qs, here, there, h => by
    rw [Piece.step, Option.or_eq_some_iff] at h
    obtain h | ⟨-, h⟩ := h
    · exact run_suffix ps h
    · exact run_suffix qs h
  | .boundary, here, there, h => by
    rw [Piece.step] at h
    split at h <;> cases h
    exact List.suffix_refl _
  | .notAfter p, here, there, h => by
    rw [Piece.step] at h
    split at h <;> cases h
    exact List.suffix_refl _
  | .notBefore p, here, there, h => by
    rw [Piece.step] at h
    split at h <;> cases h
    exact List.suffix_refl _

/-- A pattern leaves the end of the text. -/
theorem run_suffix : ∀ (ps : List Piece) {here there : Place}, Piece.run ps here = some there →
    there.rest <:+ here.rest
  | [], here, there, h => by
    cases h
    exact List.suffix_refl _
  | p :: ps, here, there, h => by
    rw [Piece.run] at h
    split at h
    · next mid hmid => exact (run_suffix ps h).trans (step_suffix p hmid)
    · cases h

end

/-- Every piece of a pattern that matches does so somewhere in the text. -/
theorem exists_step {ps : List Piece} {p : Piece} (hp : p ∈ ps) {here there : Place}
    (h : Piece.run ps here = some there) :
    ∃ mid after, p.step mid = some after ∧ mid.rest <:+ here.rest ∧ there.rest <:+ after.rest := by
  induction ps generalizing here with
  | nil => simp at hp
  | cons q ps ih =>
    rw [Piece.run] at h
    split at h
    · next mid hmid =>
      obtain rfl | hp := List.mem_cons.1 hp
      · exact ⟨here, mid, hmid, List.suffix_refl _, run_suffix ps h⟩
      · obtain ⟨mid', after, hstep, hsuffix, hafter⟩ := ih hp h
        exact ⟨mid', after, hstep, hsuffix.trans (step_suffix q hmid), hafter⟩
    · cases h

/-- A pattern does not match a text that lacks a character of it. -/
theorem run_of_lacking {ps : List Piece} {s : String} {c : Char} (hs : .text s ∈ ps)
    (hc : c ∈ s.toList) {here : Place} (h : c ∉ here.rest) : Piece.run ps here = none := by
  refine Option.eq_none_iff_forall_ne_some.2 fun there hrun => h ?_
  obtain ⟨mid, after, hstep, hsuffix, -⟩ := exists_step hs hrun
  exact hsuffix.subset (afterText_rest hstep ▸ List.mem_append_left _ hc)

/-- A pattern does not match a text without any of the characters it needs one of. -/
theorem run_of_lacking_class {ps : List Piece} {p : Char → Bool} (hp : .many1 p ∈ ps)
    {here : Place} (h : ∀ c ∈ here.rest, p c = false) : Piece.run ps here = none := by
  refine Option.eq_none_iff_forall_ne_some.2 fun there hrun => ?_
  obtain ⟨⟨before, cs⟩, after, hstep, hsuffix, -⟩ := exists_step hp hrun
  rw [Piece.step] at hstep
  cases cs with
  | nil => simp [heldBy] at hstep
  | cons c cs => simp [heldBy, h c (hsuffix.subset List.mem_cons_self)] at hstep

/-- A pattern with a text in it never takes nothing. -/
theorem matchLength_ne_zero {ps : List Piece} {s : String} (hs : .text s ∈ ps)
    (hne : s.toList ≠ []) (before : Option Char) (cs : List Char) :
    matchLength ps before cs ≠ some 0 := by
  intro h
  obtain ⟨there, hrun, hlength⟩ := Option.map_eq_some_iff.1 h
  obtain ⟨mid, after, hstep, hmid, hafter⟩ := exists_step hs hrun
  have htext := congrArg List.length (afterText_rest hstep)
  rw [List.length_append] at htext
  have hpos := List.length_pos_iff.2 hne
  have hmid := hmid.length_le
  have hafter := hafter.length_le
  dsimp only at hmid
  omega

/-! ### One piece after the other -/

theorem afterText_eq (word : List Char) (before : Option Char) (cs : List Char) :
    Place.afterText word ⟨before, word ++ cs⟩ = some ⟨word.getLast?.or before, cs⟩ := by
  induction word generalizing before with
  | nil => rfl
  | cons c word ih => simp [Place.afterText, ih, List.getLast?_cons]

theorem afterText_eq_none {word cs : List Char} (h : word.isPrefixOf cs = false)
    (before : Option Char) : Place.afterText word ⟨before, cs⟩ = none := by
  refine Option.eq_none_iff_forall_ne_some.2 fun there hthere => ?_
  have hprefix : word <+: cs := ⟨there.rest, (afterText_rest hthere).symm⟩
  rw [List.isPrefixOf_iff_prefix.2 hprefix] at h
  cases h

theorem afterClass_append {p : Char → Bool} (hcs : ∀ c ∈ cs, p c = true) (hc : p c = false)
    (before : Option Char) (rest : List Char) :
    Place.afterClass p before (cs ++ c :: rest) = ⟨cs.getLast?.or before, c :: rest⟩ := by
  induction cs generalizing before with
  | nil => simp [Place.afterClass, hc]
  | cons d cs ih =>
    have hd : p d = true := hcs d List.mem_cons_self
    simp [Place.afterClass, hd, ih fun e he => hcs e (List.mem_cons_of_mem d he),
      List.getLast?_cons]

theorem run_text (w : String) (ps : List Piece) (before : Option Char) (cs : List Char) :
    Piece.run (.text w :: ps) ⟨before, w.toList ++ cs⟩ =
      Piece.run ps ⟨w.toList.getLast?.or before, cs⟩ := by
  rw [Piece.run, Piece.step, afterText_eq]

theorem run_text_eq_none {w : String} (h : w.toList.isPrefixOf cs = false) (ps : List Piece)
    (before : Option Char) : Piece.run (.text w :: ps) ⟨before, cs⟩ = none := by
  rw [Piece.run, Piece.step, afterText_eq_none h]

theorem run_many (p : Char → Bool) (ps : List Piece) (here : Place) :
    Piece.run (.many p :: ps) here = Piece.run ps (Place.afterClass p here.before here.rest) := rfl

theorem run_many1 (p : Char → Bool) (ps : List Piece) (here : Place) :
    Piece.run (.many1 p :: ps) here = if heldBy p here.rest.head? then
      Piece.run ps (Place.afterClass p here.before here.rest) else none := by
  rw [Piece.run, Piece.step]
  cases heldBy p here.rest.head? <;> rfl

theorem run_optional (qs ps : List Piece) (here : Place) :
    Piece.run (.optional qs :: ps) here = Piece.run ps ((Piece.run qs here).getD here) := rfl

theorem run_boundary (ps : List Piece) (here : Place) : Piece.run (.boundary :: ps) here =
    if heldBy isWord here.before != heldBy isWord here.rest.head? then Piece.run ps here
    else none := by
  rw [Piece.run, Piece.step]
  cases heldBy isWord here.before != heldBy isWord here.rest.head? <;> rfl

theorem run_notAfter (p : Char → Bool) (ps : List Piece) (here : Place) :
    Piece.run (.notAfter p :: ps) here =
      if heldBy p here.before then none else Piece.run ps here := by
  rw [Piece.run, Piece.step]
  cases heldBy p here.before <;> rfl

theorem run_notBefore (p : Char → Bool) (ps : List Piece) (here : Place) :
    Piece.run (.notBefore p :: ps) here =
      if heldBy p here.rest.head? then none else Piece.run ps here := by
  rw [Piece.run, Piece.step]
  cases heldBy p here.rest.head? <;> rfl

/-- A text is matched where it is the beginning. -/
theorem isSome_run_text (w : String) (before : Option Char) (cs : List Char) :
    (Piece.run [.text w] ⟨before, cs⟩).isSome = w.toList.isPrefixOf cs := by
  cases h : w.toList.isPrefixOf cs with
  | false => rw [run_text_eq_none h, Option.isSome_none]
  | true =>
    obtain ⟨ds, rfl⟩ := List.isPrefixOf_iff_prefix.1 h
    rw [run_text]
    rfl

/-- What ends a text is no part of a word without such a character. -/
theorem isPrefixOf_append {word tail : List Char} (h : ∀ c ∈ tail.head?, c ∉ word)
    (cs : List Char) : word.isPrefixOf (cs ++ tail) = word.isPrefixOf cs := by
  induction word generalizing cs with
  | nil => simp
  | cons w word ih =>
    cases cs with
    | nil =>
      cases tail with
      | nil => rfl
      | cons c tail =>
        have hc : w ≠ c := by
          rintro rfl
          exact h w rfl List.mem_cons_self
        simp [List.isPrefixOf, hc]
    | cons c cs =>
      rw [List.cons_append, List.isPrefixOf, List.isPrefixOf,
        ih fun c hc hmem => h c hc (List.mem_cons_of_mem w hmem)]

/-! ### Lines -/

/-- The same place with a line feed and more text behind it. -/
def Place.onLine (here : Place) (rest : List Char) : Place :=
  ⟨here.before, here.rest ++ '\n' :: rest⟩

mutual

/-- Does a piece never take a line feed? -/
def Piece.inLine : Piece → Bool
  | .text s => !s.toList.contains '\n'
  | .one p | .many p | .many1 p => !p '\n'
  | .optional ps => Piece.allInLine ps
  | .either ps qs => Piece.allInLine ps && Piece.allInLine qs
  | .boundary | .notAfter _ | .notBefore _ => true

/-- Does no piece of a pattern take a line feed? -/
def Piece.allInLine : List Piece → Bool
  | [] => true
  | p :: ps => p.inLine && Piece.allInLine ps

end

theorem afterText_onLine {s : List Char} (hs : '\n' ∉ s) (here : Place) :
    ∃ there : Option Place, ∀ rest,
      Place.afterText s (here.onLine rest) = there.map (Place.onLine · rest) := by
  induction s generalizing here with
  | nil => exact ⟨some here, fun _ => rfl⟩
  | cons c s ih =>
    obtain ⟨hc, hs⟩ : '\n' ≠ c ∧ '\n' ∉ s := by simpa using hs
    obtain ⟨before, cs⟩ := here
    cases cs with
    | nil =>
      refine ⟨none, fun rest => ?_⟩
      simp [Place.onLine, Place.afterText, Ne.symm hc]
    | cons d cs =>
      by_cases h : c = d
      · obtain ⟨there, hthere⟩ := ih hs ⟨some d, cs⟩
        refine ⟨there, fun rest => ?_⟩
        simpa [Place.onLine, Place.afterText, h] using hthere rest
      · refine ⟨none, fun rest => ?_⟩
        simp [Place.onLine, Place.afterText, h]

theorem afterClass_onLine {p : Char → Bool} (hp : p '\n' = false) (before : Option Char)
    (cs : List Char) : ∃ there : Place, ∀ rest,
      Place.afterClass p before (cs ++ '\n' :: rest) = there.onLine rest := by
  induction cs generalizing before with
  | nil => exact ⟨⟨before, []⟩, fun rest => by simp [Place.onLine, Place.afterClass, hp]⟩
  | cons c cs ih =>
    by_cases hc : p c = true
    · obtain ⟨there, hthere⟩ := ih (some c)
      exact ⟨there, fun rest => by simpa [Place.afterClass, hc] using hthere rest⟩
    · exact ⟨⟨before, c :: cs⟩, fun rest => by simp [Place.onLine, Place.afterClass, hc]⟩

/-- The character that is next on a line. -/
theorem head?_onLine (here : Place) (rest : List Char) :
    (here.onLine rest).rest.head? = (here.onLine []).rest.head? := by
  obtain ⟨before, cs⟩ := here
  cases cs <;> rfl

mutual

/-- What a piece takes of a line does not depend on what follows. -/
theorem step_onLine : ∀ (p : Piece), p.inLine = true → ∀ here : Place,
    ∃ there : Option Place, ∀ rest, p.step (here.onLine rest) = there.map (Place.onLine · rest)
  | .text s, h, here => by
    simp only [Piece.step]
    exact afterText_onLine (by simpa [Piece.inLine] using h) here
  | .one p, h, ⟨before, []⟩ =>
    ⟨none, fun rest => by
      simp only [Piece.inLine, Bool.not_eq_true'] at h
      simp [Piece.step, Place.onLine, heldBy, h]⟩
  | .one p, _, ⟨before, c :: cs⟩ =>
    ⟨if p c then some ⟨some c, cs⟩ else none, fun rest => by
      by_cases hc : p c = true <;> simp [Piece.step, Place.onLine, heldBy, Place.next, hc]⟩
  | .many p, h, here => by
    obtain ⟨there, hthere⟩ :=
      afterClass_onLine (by simpa [Piece.inLine] using h) here.before here.rest
    exact ⟨some there, fun rest => congrArg some (hthere rest)⟩
  | .many1 p, h, here => by
    obtain ⟨there, hthere⟩ :=
      afterClass_onLine (by simpa [Piece.inLine] using h) here.before here.rest
    refine ⟨if heldBy p (here.onLine []).rest.head? then some there else none, fun rest => ?_⟩
    simp only [Piece.step, head?_onLine here rest]
    split
    · exact congrArg some (hthere rest)
    · rfl
  | .optional ps, h, here => by
    obtain ⟨there, hthere⟩ := run_onLine ps (by simpa [Piece.inLine] using h) here
    refine ⟨some (there.getD here), fun rest => ?_⟩
    simp only [Piece.step, hthere rest]
    cases there <;> rfl
  | .either ps qs, h, here => by
    obtain ⟨hps, hqs⟩ : Piece.allInLine ps = true ∧ Piece.allInLine qs = true := by
      simpa [Piece.inLine] using h
    obtain ⟨first, hfirst⟩ := run_onLine ps hps here
    obtain ⟨second, hsecond⟩ := run_onLine qs hqs here
    refine ⟨first.or second, fun rest => ?_⟩
    simp only [Piece.step, hfirst rest, hsecond rest]
    cases first <;> rfl
  | .boundary, _, here => by
    refine ⟨if heldBy isWord here.before != heldBy isWord (here.onLine []).rest.head? then some here
      else none, fun rest => ?_⟩
    simp only [Piece.step, head?_onLine here rest]
    split <;> simp_all [Place.onLine]
  | .notAfter p, _, here => by
    refine ⟨if heldBy p here.before then none else some here, fun rest => ?_⟩
    simp only [Piece.step]
    split <;> simp_all [Place.onLine]
  | .notBefore p, _, here => by
    refine ⟨if heldBy p (here.onLine []).rest.head? then none else some here, fun rest => ?_⟩
    simp only [Piece.step, head?_onLine here rest]
    split <;> simp_all

/-- **What a pattern takes of a line does not depend on what follows.** -/
theorem run_onLine : ∀ (ps : List Piece), Piece.allInLine ps = true → ∀ here : Place,
    ∃ there : Option Place, ∀ rest,
      Piece.run ps (here.onLine rest) = there.map (Place.onLine · rest)
  | [], _, here => ⟨some here, fun _ => rfl⟩
  | p :: ps, h, here => by
    obtain ⟨hp, hps⟩ : p.inLine = true ∧ Piece.allInLine ps = true := by
      simpa [Piece.allInLine] using h
    obtain ⟨there, hthere⟩ := step_onLine p hp here
    cases there with
    | none => exact ⟨none, fun rest => by simp [Piece.run, hthere rest]⟩
    | some there =>
      obtain ⟨last, hlast⟩ := run_onLine ps hps there
      exact ⟨last, fun rest => by simp [Piece.run, hthere rest, hlast rest]⟩

end

end GoLift.Text
