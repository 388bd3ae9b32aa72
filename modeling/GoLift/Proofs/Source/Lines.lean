import GoLift.Proofs.Source.Places
import GoLift.Proofs.Text.Pattern

/-!
# Lexing line by line

A text is made of lines, each with a line feed, and a line feed only ever belongs to blanks or to a
quoted text. So lines that are read to their end when they stand alone have the same tokens whatever
follows them (`lexFrom_append`). Text in quotes makes no exception: a quote that is still open where
the lines end would stop the lexer.
-/

set_option autoImplicit false

namespace GoLift.Source

open Text

/-! ### Rules on a line -/

variable {cs ds rest : List Char} {ps : List Piece}

/-- Whatever follows a line, a pattern takes the same of it, and not all of it and what follows. -/
def SameOnLine (ps : List Piece) (cs : List Char) : Prop :=
  ∃ taken : Option Nat, (∀ n ∈ taken, n ≤ cs.length) ∧
    ∀ rest, matchLength ps none (cs ++ '\n' :: rest) = taken

theorem sameOnLine_of_run (there : Option Text.Place)
    (h : ∀ rest, Piece.run ps ⟨none, cs ++ '\n' :: rest⟩ = there.map (·.onLine rest)) :
    SameOnLine ps cs := by
  refine ⟨there.map fun p => cs.length - p.rest.length, fun n hn => ?_, fun rest => ?_⟩
  · obtain ⟨p, -, rfl⟩ := Option.map_eq_some_iff.1 hn
    exact Nat.sub_le _ _
  · rw [matchLength, h, Option.map_map]
    refine congrArg (there.map ·) (funext fun p => ?_)
    simp only [Function.comp_apply, Text.Place.onLine, List.length_append, List.length_cons]
    omega

theorem sameOnLine (h : Piece.allInLine ps = true) (cs : List Char) : SameOnLine ps cs := by
  obtain ⟨there, hthere⟩ := run_onLine ps h ⟨none, cs⟩
  exact sameOnLine_of_run there hthere

theorem sameOnLine_none (h : ∀ rest, Piece.run ps ⟨none, cs ++ '\n' :: rest⟩ = none) :
    SameOnLine ps cs :=
  sameOnLine_of_run none h

/-! ### Names and quotes -/

/-- A text that does not begin with a quote begins with no quoted text. -/
theorem run_quoted_eq_none {here : Text.Place} (h : here.rest.head? ≠ some '"') (ps : List Piece) :
    Piece.run (quotedPieces ++ ps) here = none := by
  obtain ⟨before, cs⟩ := here
  cases cs with
  | nil => rfl
  | cons c cs =>
    have hc : ('"' == c) = false := beq_false_of_ne fun hc => h (congrArg some hc.symm)
    simp [quotedPieces, Piece.run, Piece.step, Text.Place.afterText, hc]

/-- A name that does not begin with a quote is not quoted. -/
theorem run_name (here : Text.Place) (h : here.rest.head? ≠ some '"') (ps : List Piece) :
    Piece.run (namePieces ++ ps) here = Piece.run (.many1 isNameChar :: ps) here := by
  have hquoted := run_quoted_eq_none h []
  rw [List.append_nil] at hquoted
  simp only [namePieces, List.cons_append, List.nil_append, Piece.run, Piece.step, hquoted,
    Option.none_or]
  cases heldBy isNameChar here.rest.head? <;> rfl

/-- A quoted text ends on a line, or it is not one if nothing follows. -/
theorem run_quoted_onLine (before : Option Char) (cs : List Char) :
    (∃ there : Text.Place, ∀ rest, Piece.run quotedPieces ⟨before, '"' :: (cs ++ '\n' :: rest)⟩ =
      some (there.onLine rest)) ∨
    Piece.run quotedPieces ⟨before, '"' :: (cs ++ ['\n'])⟩ = none := by
  have hclass (before : Option Char) (body : List Char) (hbody : '"' ∉ body) (rest : List Char) :
      ∃ last, Text.Place.afterClass (· != '"') before (body ++ rest) =
        Text.Place.afterClass (· != '"') last rest := by
    induction body generalizing before with
    | nil => exact ⟨before, rfl⟩
    | cons c body ih =>
      obtain ⟨hc, hbody⟩ : '"' ≠ c ∧ '"' ∉ body := by simpa using hbody
      obtain ⟨last, hlast⟩ := ih (some c) hbody
      exact ⟨last, by simpa [Text.Place.afterClass, Ne.symm hc] using hlast⟩
  by_cases hquote : '"' ∈ cs
  · obtain ⟨body, after, rfl, hbody⟩ := List.eq_append_cons_of_mem hquote
    refine .inl ⟨⟨some '"', after⟩, fun rest => ?_⟩
    obtain ⟨last, hlast⟩ := hclass (some '"') body hbody ('"' :: (after ++ '\n' :: rest))
    simp [quotedPieces, Piece.run, Piece.step, Text.Place.afterText, hlast, Text.Place.afterClass,
      Text.Place.onLine]
  · obtain ⟨last, hlast⟩ := hclass (some '"') cs hquote ['\n']
    exact .inr (by simp [quotedPieces, Piece.run, Piece.step, Text.Place.afterText, hlast,
      Text.Place.afterClass])

/-- What begins with a quoted text is read on a line, or it is not read if nothing follows. -/
theorem sameOnLine_of_quoted {before : Option Char} {tail : List Piece}
    (htail : Piece.allInLine tail = true)
    (h : ∀ rest, Piece.run ps ⟨none, ds ++ '\n' :: rest⟩ =
      (Piece.run quotedPieces ⟨before, '"' :: (cs ++ '\n' :: rest)⟩).bind (Piece.run tail)) :
    SameOnLine ps ds ∨ matchLength ps none (ds ++ ['\n']) = none := by
  obtain ⟨there, hthere⟩ | hnone := run_quoted_onLine before cs
  · obtain ⟨last, hlast⟩ := run_onLine tail htail there
    exact .inl (sameOnLine_of_run last fun rest => by rw [h, hthere, Option.bind_some, hlast])
  · exact .inr (by rw [matchLength, h, hnone]; rfl)

/-- The text behind a character of a line does not begin with a quote. -/
theorem head?_ne_quote (h : cs.head? ≠ some '"') (rest : List Char) :
    (cs ++ '\n' :: rest).head? ≠ some '"' := by
  cases cs with
  | nil => simp
  | cons c cs => simpa using h

/-- After a sign of one character, the rest of a pattern counts. -/
theorem sameOnLine_sign {sign : String} {s : Char} (hsign : sign.toList = [s]) (hs : s ≠ '\n')
    (h : ∀ ds, cs = s :: ds → ∃ there : Option Text.Place, ∀ rest,
      Piece.run ps ⟨some s, ds ++ '\n' :: rest⟩ = there.map (·.onLine rest)) :
    SameOnLine (.text sign :: ps) cs := by
  cases cs with
  | nil =>
    refine sameOnLine_none fun rest => ?_
    simp [Piece.run, Piece.step, hsign, Text.Place.afterText, hs]
  | cons c cs =>
    by_cases hc : s = c
    · subst hc
      obtain ⟨there, hthere⟩ := h cs rfl
      refine sameOnLine_of_run there fun rest => Eq.trans ?_ (hthere rest)
      simp [Piece.run, Piece.step, hsign, Text.Place.afterText]
    · refine sameOnLine_none fun rest => ?_
      simp [Piece.run, Piece.step, hsign, Text.Place.afterText, hc]

/-- Does a text begin with something in quotes? -/
def beginsQuoted : List Char → Bool
  | '"' :: _ | '@' :: '"' :: _ | '%' :: '"' :: _ | 'c' :: '"' :: _ => true
  | _ => false

theorem head?_of_not_quoted {s : Char} (hs : s = '@' ∨ s = '%' ∨ s = 'c')
    (h : beginsQuoted (s :: cs) = false) : cs.head? ≠ some '"' := by
  cases cs with
  | nil => simp
  | cons c cs =>
    rintro ⟨⟩
    obtain rfl | rfl | rfl := hs <;> cases h

/-- A character that makes no token. -/
def isSpace (c : Char) : Bool :=
  c == ' ' || c == '\t' || c == '\x0c' || c == '\r' || c == '\n'

/-- The rules that may take a line feed are those of names, blanks and strings. -/
theorem rules_inLine : ∀ i : Fin rules.length,
    i.val ∈ [2, 3, 4, 6, 7] ∨ Piece.allInLine (rules.get i).2 = true := by
  decide

/-- Where nothing in quotes begins, every rule takes the same of a line whatever follows it. -/
theorem sameOnLine_of_not_quoted {c : Char} (hc : isSpace c = false)
    (hquote : beginsQuoted (c :: cs) = false) (i : Fin rules.length) :
    SameOnLine (rules.get i).2 (c :: cs) := by
  have hname (s : Char) (hs : s = '@' ∨ s = '%' ∨ s = 'c') (ds : List Char)
      (hds : c :: cs = s :: ds) : ∃ there : Option Text.Place, ∀ rest,
        Piece.run namePieces ⟨some s, ds ++ '\n' :: rest⟩ = there.map (·.onLine rest) := by
    obtain ⟨there, hthere⟩ := run_onLine [.many1 isNameChar] (by decide) ⟨some s, ds⟩
    have hhead := head?_of_not_quoted hs (hds ▸ hquote)
    exact ⟨there, fun rest => (run_name _ (head?_ne_quote hhead rest) []).trans (hthere rest)⟩
  obtain hi | hi := rules_inLine i
  · obtain ⟨i, hlt⟩ := i
    simp only [List.mem_cons, List.not_mem_nil, or_false] at hi
    obtain rfl | rfl | rfl | rfl | rfl := hi
    · exact sameOnLine_sign (s := '@') rfl (by decide) (hname '@' (by simp))
    · obtain ⟨there, hthere⟩ :=
        run_onLine [.many1 isNameChar, .text ":"] (by decide) ⟨none, c :: cs⟩
      refine sameOnLine_of_run there fun rest => (run_name _ ?_ [.text ":"]).trans (hthere rest)
      rintro ⟨⟩
      cases hquote
    · exact sameOnLine_sign (s := '%') rfl (by decide) (hname '%' (by simp))
    · refine sameOnLine_none fun rest => ?_
      change Piece.run [.many1 isSpace] _ = none
      simp [Piece.run, Piece.step, heldBy, hc]
    · refine sameOnLine_sign (s := 'c') rfl (by decide) fun ds hds => ⟨none, fun rest => ?_⟩
      have hhead := head?_of_not_quoted (by simp) (hds ▸ hquote)
      exact run_quoted_eq_none (head?_ne_quote hhead rest) []
  · exact sameOnLine hi _

/-- A rule matches by its pattern. -/
theorem firstRule?_eq (cs : List Char) :
    firstRule? cs = rules.findSome? fun rule => (matchLength rule.2 none cs).map (rule.1, ·) := rfl

/-- What no rule of a list takes. -/
theorem findSome?_eq_none (rs : List (Option Terminal × List Piece))
    (h : rs.all (fun rule => (Piece.run rule.2 ⟨none, cs⟩).isNone) = true) :
    rs.findSome? (fun rule => (matchLength rule.2 none cs).map (rule.1, ·)) = none := by
  refine List.findSome?_eq_none_iff.2 fun rule hrule => ?_
  have hnone : Piece.run rule.2 ⟨none, cs⟩ = none := by
    simpa using List.all_eq_true.1 h rule hrule
  simp [matchLength, hnone]

/-- If every rule of a list takes the same of a line whatever follows, so does the first one that
takes anything. -/
theorem findSome?_onLine {rs : List (Option Terminal × List Piece)}
    (h : ∀ rule ∈ rs, SameOnLine rule.2 cs) :
    ∃ found : Option (Option Terminal × Nat), (∀ f ∈ found, f.2 ≤ cs.length) ∧ ∀ rest,
      rs.findSome? (fun rule => (matchLength rule.2 none (cs ++ '\n' :: rest)).map (rule.1, ·)) =
        found := by
  induction rs with
  | nil => exact ⟨none, by simp, fun _ => rfl⟩
  | cons rule rs ih =>
    obtain ⟨taken, htaken, hsame⟩ := h rule List.mem_cons_self
    obtain ⟨found, hfound, hlater⟩ := ih fun r hr => h r (List.mem_cons_of_mem rule hr)
    cases taken with
    | none => exact ⟨found, hfound, fun rest => by simp [hsame rest, hlater rest]⟩
    | some n =>
      refine ⟨some (rule.1, n), ?_, fun rest => by simp [hsame rest]⟩
      rintro _ ⟨⟩
      exact htaken n rfl

/-- If no other rule matches, it is up to this one. -/
theorem firstRule?_of_others {i : Nat} {rule : Option Terminal × List Piece}
    (hi : rules[i]? = some rule)
    (h : (rules.eraseIdx i).all (fun rule => (Piece.run rule.2 ⟨none, cs⟩).isNone) = true) :
    firstRule? cs = (matchLength rule.2 none cs).map (rule.1, ·) := by
  obtain ⟨hlt, hrule⟩ := List.getElem?_eq_some_iff.1 hi
  have hrules : rules = rules.take i ++ rule :: rules.drop (i + 1) := by simp [← hrule]
  rw [List.eraseIdx_eq_take_drop_succ, List.all_append, Bool.and_eq_true] at h
  rw [firstRule?_eq, hrules, List.findSome?_append, findSome?_eq_none _ h.1, List.findSome?_cons,
    findSome?_eq_none _ h.2, Option.none_or]
  cases matchLength rule.2 none cs <;> rfl

/-- If the only rule for a line takes the same of it whatever follows, so does the lexer. -/
theorem firstRule?_of_one {i : Nat} {rule : Option Terminal × List Piece}
    {found : Option Terminal × Nat} (hi : rules[i]? = some rule)
    (hothers : ∀ rest, (rules.eraseIdx i).all
      (fun rule => (Piece.run rule.2 ⟨none, cs ++ '\n' :: rest⟩).isNone) = true)
    (hrule : SameOnLine rule.2 cs ∨ matchLength rule.2 none (cs ++ ['\n']) = none)
    (h : firstRule? (cs ++ ['\n']) = some found) :
    found.2 ≤ cs.length ∧ ∀ rest, firstRule? (cs ++ '\n' :: rest) = some found := by
  have hall (rest : List Char) := firstRule?_of_others hi (hothers rest)
  rw [hall] at h
  obtain ⟨n, hn, rfl⟩ := Option.map_eq_some_iff.1 h
  obtain ⟨taken, htaken, hsame⟩ | hnone := hrule
  · obtain rfl : taken = some n := (hsame []).symm.trans hn
    exact ⟨htaken n rfl, fun rest => (hall rest).trans (congrArg _ (hsame rest))⟩
  · cases hnone.symm.trans hn

/-- A name that begins with a quote is quoted. -/
theorem run_quotedName (before : Option Char) (cs : List Char) (tail : List Piece) :
    Piece.run (namePieces ++ tail) ⟨before, '"' :: cs⟩ =
      (Piece.run quotedPieces ⟨before, '"' :: cs⟩).bind (Piece.run tail) := by
  have hname : isNameChar '"' = false := by decide
  cases hquoted : Piece.run quotedPieces ⟨before, '"' :: cs⟩ <;>
    simp [namePieces, Piece.run, Piece.step, heldBy, hname, hquoted]

theorem exists_quoted (h : beginsQuoted cs = true) : ∃ ds,
    cs = '"' :: ds ∨ cs = '@' :: '"' :: ds ∨ cs = '%' :: '"' :: ds ∨ cs = 'c' :: '"' :: ds := by
  unfold beginsQuoted at h
  split at h
  · exact ⟨_, .inl rfl⟩
  · exact ⟨_, .inr (.inl rfl)⟩
  · exact ⟨_, .inr (.inr (.inl rfl))⟩
  · exact ⟨_, .inr (.inr (.inr rfl))⟩
  · cases h

/-- Whatever follows a line, the lexer takes the same of it. A text in quotes has to end there. -/
theorem firstRule?_onLine {c : Char} (hc : isSpace c = false) {found : Option Terminal × Nat}
    (h : firstRule? (c :: cs ++ ['\n']) = some found) :
    found.2 ≤ (c :: cs).length ∧ ∀ rest, firstRule? (c :: cs ++ '\n' :: rest) = some found := by
  cases hquote : beginsQuoted (c :: cs) with
  | false =>
    have hrules : ∀ rule ∈ rules, SameOnLine rule.2 (c :: cs) := fun rule hrule =>
      have ⟨i, hi⟩ := List.mem_iff_get.1 hrule
      hi ▸ sameOnLine_of_not_quoted hc hquote i
    obtain ⟨taken, htaken, hsame⟩ := findSome?_onLine hrules
    obtain rfl : taken = some found := (hsame []).symm.trans h
    exact ⟨htaken found rfl, hsame⟩
  | true =>
    obtain ⟨ds, hds | hds | hds | hds⟩ := exists_quoted hquote
    all_goals rw [hds] at h ⊢
    · exact firstRule?_of_one (i := 3) rfl (fun _ => rfl)
        (sameOnLine_of_quoted rfl fun rest => run_quotedName none _ [.text ":"]) h
    · exact firstRule?_of_one (i := 2) rfl (fun _ => rfl)
        (sameOnLine_of_quoted rfl fun rest => run_quotedName (some '@') _ []) h
    · exact firstRule?_of_one (i := 4) rfl (fun _ => rfl)
        (sameOnLine_of_quoted rfl fun rest => run_quotedName (some '%') _ []) h
    · have hstring (rest : List Char) :
          Piece.run (.text "c" :: quotedPieces) ⟨none, 'c' :: '"' :: ds ++ '\n' :: rest⟩ =
            (Piece.run quotedPieces ⟨some 'c', '"' :: (ds ++ '\n' :: rest)⟩).bind (Piece.run []) :=
        (Option.bind_fun_some _).symm
      exact firstRule?_of_one (i := 7) rfl (fun _ => rfl) (sameOnLine_of_quoted rfl hstring) h

/-! ### Lexing -/

/-- What comes after some tokens. -/
def Lexed.after (tokens : List Token) (lexed : Lexed) : Lexed :=
  { lexed with tokens := tokens ++ lexed.tokens }

/-- The first rule for a blank makes no token. -/
theorem firstRule?_space {c : Char} (hc : isSpace c = true) (cs : List Char) :
    firstRule? (c :: cs) = (matchLength [.many1 isSpace] none (c :: cs)).map (none, ·) := by
  simp only [isSpace, Bool.or_eq_true, beq_iff_eq, or_assoc] at hc
  obtain rfl | rfl | rfl | rfl | rfl := hc <;> rfl

theorem lexFrom_skip (p : Position) (taken cs : List Char) :
    lexFrom taken.length p (taken ++ cs) = lexFrom 0 (p.behind taken) cs := by
  induction taken generalizing p with
  | nil => rfl
  | cons c taken ih => exact ih (p.after c)

/-- Blanks are taken together. -/
theorem lexFrom_spaces {c : Char} (hc : isSpace c = true) (p : Position) (cs : List Char) :
    lexFrom 0 p (c :: cs) =
      lexFrom 0 ((p.after c).behind (cs.takeWhile isSpace)) (cs.dropWhile isSpace) := by
  have htaken : matchLength [.many1 isSpace] none (c :: cs) =
      some ((cs.takeWhile isSpace).length + 1) := by
    have hlength := congrArg List.length (List.takeWhile_append_dropWhile (p := isSpace) (l := cs))
    rw [List.length_append] at hlength
    simp only [matchLength, Piece.run, Piece.step, heldBy, List.head?_cons, Option.any_some, hc,
      if_true, Option.map_some, afterClass_rest, List.dropWhile_cons, List.length_cons,
      Option.some.injEq]
    omega
  simp only [lexFrom, firstRule?_space hc, htaken, Option.map_some, Nat.add_sub_cancel]
  have hskip := lexFrom_skip (p.after c) (cs.takeWhile isSpace) (cs.dropWhile isSpace)
  rwa [List.takeWhile_append_dropWhile] at hskip

/-- A blank makes no difference to the tokens. -/
theorem lexFrom_space {c : Char} (hc : isSpace c = true) (p : Position) (cs : List Char) :
    lexFrom 0 p (c :: cs) = lexFrom 0 (p.after c) cs := by
  rw [lexFrom_spaces hc]
  cases cs with
  | nil => rfl
  | cons d cs =>
    cases hd : isSpace d with
    | true => simp [lexFrom_spaces hd, hd]
    | false => simp [hd]

/-- A token is taken, and then the rest is looked at. -/
theorem lexFrom_token {k : Terminal} {taken cs : List Char} (p : Position) (hne : taken ≠ [])
    (h : firstRule? (taken ++ cs) = some (some k, taken.length)) :
    lexFrom 0 p (taken ++ cs) = (lexFrom 0 (p.behind taken) cs).after [⟨k, taken, p⟩] := by
  cases taken with
  | nil => exact absurd rfl hne
  | cons c taken =>
    rw [List.cons_append] at h ⊢
    simp only [lexFrom, h, List.length_cons, Nat.add_sub_cancel, Lexed.after, lexFrom_skip,
      Position.behind_cons]
    simp

/-- **A text that is read to its end when it stands alone has the same tokens before any other.**
It has to end in a line feed. -/
theorem lexFrom_append {skip : Nat} (p : Position) (hskip : skip ≤ cs.length)
    (h : (lexFrom skip p (cs ++ ['\n'])).stop = none) (rest : List Char) :
    lexFrom skip p (cs ++ '\n' :: rest) =
      (lexFrom 0 (p.behind (cs ++ ['\n'])) rest).after (lexFrom skip p (cs ++ ['\n'])).tokens := by
  induction cs generalizing skip p with
  | nil =>
    obtain rfl : skip = 0 := Nat.le_zero.1 hskip
    simp [lexFrom_space (c := '\n') rfl, lexFrom, Lexed.after]
  | cons c cs ih =>
    cases skip with
    | succ skip => exact ih (p.after c) (Nat.le_of_succ_le_succ hskip) h
    | zero =>
      cases hc : isSpace c with
      | true =>
        rw [List.cons_append, lexFrom_space hc] at h ⊢
        rw [List.cons_append, lexFrom_space hc]
        exact ih (p.after c) (Nat.zero_le _) h
      | false =>
        cases hfound : firstRule? (c :: cs ++ ['\n']) with
        | none =>
          rw [List.cons_append] at hfound h
          simp [lexFrom, hfound] at h
        | some found =>
          obtain ⟨terminal?, n⟩ := found
          obtain ⟨hle, hrest⟩ := firstRule?_onLine hc hfound
          have hskip : n - 1 ≤ cs.length := Nat.sub_le_of_le_add hle
          have hlong := hrest rest
          rw [List.cons_append] at hfound h hlong ⊢
          cases terminal? with
          | none =>
            simp only [lexFrom, hfound] at h
            simpa only [List.cons_append, lexFrom, hfound, hlong, Position.behind_cons] using
              ih (p.after c) hskip h
          | some terminal =>
            simp only [lexFrom, hfound] at h
            have htake (ds : List Char) : (c :: (cs ++ ds)).take n = (c :: cs).take n :=
              List.take_append_of_le_length hle
            simp only [List.cons_append, lexFrom, hfound, hlong, ih (p.after c) hskip h, htake,
              Position.behind_cons, Lexed.after]

end GoLift.Source
