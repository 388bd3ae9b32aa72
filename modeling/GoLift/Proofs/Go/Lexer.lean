import GoLift.Go.Name
import Mathlib.Data.List.Basic

/-!
# Reading the tokens of an expression

The tokens of emitted text, as the language reads them: **the next token is the longest one there
is**. Words and numbers go on as far as they can; symbols are tried in an order in which none
comes before a longer one that it begins (`goSymbols_order`), so a symbol is read where its text
stands and the character behind it is none of its `followers` (`Alphabet.front?_symbol`).

Which characters beyond ASCII are letters and digits is a parameter, the `Alphabet`.
-/

set_option autoImplicit false

namespace GoLift.Go

/-! ### Characters -/

/-- The letters and digits beyond ASCII. -/
structure Alphabet where
  letter : Char → Bool
  digit : Char → Bool

namespace Alphabet

variable (α : Alphabet)

/-- May a character begin a word? -/
def isLetter (c : Char) : Bool :=
  c.isAlpha || c == '_' || (decide (127 < c.toNat) && α.letter c)

/-- May a character stand in a word? -/
def isWordChar (c : Char) : Bool :=
  α.isLetter c || c.isDigit || (decide (127 < c.toNat) && α.digit c)

/-- Is a text an identifier? -/
def isIdent (name : String) : Bool :=
  match name.toList with
  | [] => false
  | c :: cs => α.isLetter c && cs.all α.isWordChar && !goKeywords.contains name

end Alphabet

/-- A blank between tokens. A line break is none, since it may end a statement. -/
def isBlank (c : Char) : Bool :=
  c == ' ' || c == '\t' || c == '\r'

/-! ### Numbers -/

/-- May a character stand in a number? -/
def isNumberChar (c : Char) : Bool :=
  c.isAlphanum || c == '_' || c == '.'

/-- Digits, each perhaps with an underscore before it. -/
def digitsOk (isDigit : Char → Bool) : List Char → Bool
  | [] => true
  | '_' :: c :: cs => isDigit c && digitsOk isDigit cs
  | c :: cs => isDigit c && digitsOk isDigit cs

/-- The digits of a base below ten. -/
def isDigitBelow (base : Nat) (c : Char) : Bool :=
  c.isDigit && decide (c.toNat < '0'.toNat + base)

/-- The digits of base sixteen. -/
def isHexDigit (c : Char) : Bool :=
  c.isDigit || "abcdefABCDEF".toList.contains c

/-- The digits of the base that a letter behind a zero stands for. -/
def prefixDigit? : Char → Option (Char → Bool)
  | 'b' | 'B' => some (isDigitBelow 2)
  | 'o' | 'O' => some (isDigitBelow 8)
  | 'x' | 'X' => some isHexDigit
  | _ => none

/-- Is a text an integer literal? A zero before other digits makes them octal. -/
def isIntLit : List Char → Bool
  | [] => false
  | ['0'] => true
  | '0' :: c :: cs =>
    match prefixDigit? c with
    | some isDigit => !cs.isEmpty && digitsOk isDigit cs
    | none => digitsOk (isDigitBelow 8) (c :: cs)
  | c :: cs => c.isDigit && digitsOk Char.isDigit cs

theorem digitsOk_all {isDigit : Char → Bool} (h : ∀ c, isDigit c = true → isNumberChar c = true)
    {cs : List Char} (hcs : digitsOk isDigit cs = true) : ∀ c ∈ cs, isNumberChar c = true := by
  fun_induction digitsOk isDigit cs with
  | case1 => exact nofun
  | case2 c cs ih =>
    obtain ⟨hc, hcs⟩ := Bool.and_eq_true_iff.1 hcs
    exact List.forall_mem_cons.2 ⟨by decide, List.forall_mem_cons.2 ⟨h c hc, ih hcs⟩⟩
  | case3 c cs _ ih =>
    obtain ⟨hc, hcs⟩ := Bool.and_eq_true_iff.1 hcs
    exact List.forall_mem_cons.2 ⟨h c hc, ih hcs⟩

theorem isNumberChar_of_isDigit {c : Char} (h : c.isDigit = true) : isNumberChar c = true := by
  simp [isNumberChar, Char.isAlphanum, h]

theorem isNumberChar_of_isDigitBelow {base : Nat} {c : Char} (h : isDigitBelow base c = true) :
    isNumberChar c = true :=
  isNumberChar_of_isDigit (Bool.and_eq_true_iff.1 h).1

theorem isNumberChar_of_isHexDigit {c : Char} (h : isHexDigit c = true) :
    isNumberChar c = true := by
  have hletters : "abcdefABCDEF".toList.all isNumberChar = true := by decide
  rcases Bool.or_eq_true_iff.1 h with h | h
  · exact isNumberChar_of_isDigit h
  · exact List.all_eq_true.1 hletters c (List.contains_iff_mem.1 h)

/-- The letter behind a zero and the digits that it asks for stand in numbers. -/
theorem isNumberChar_of_prefixDigit? {x : Char} {isDigit : Char → Bool}
    (h : prefixDigit? x = some isDigit) :
    isNumberChar x = true ∧ ∀ c, isDigit c = true → isNumberChar c = true := by
  unfold prefixDigit? at h
  split at h <;> cases h
  case h_1 | h_2 | h_3 | h_4 => exact ⟨by decide, fun c => isNumberChar_of_isDigitBelow⟩
  case h_5 | h_6 => exact ⟨by decide, fun c => isNumberChar_of_isHexDigit⟩

/-- An integer literal begins with a digit and goes on with characters of numbers. -/
theorem isIntLit_cons {cs : List Char} (h : isIntLit cs = true) :
    ∃ c cs', cs = c :: cs' ∧ c.isDigit = true ∧ ∀ x ∈ cs', isNumberChar x = true := by
  unfold isIntLit at h
  split at h
  · cases h
  · exact ⟨_, _, rfl, by decide, nofun⟩
  · next c cs =>
    refine ⟨_, _, rfl, by decide, ?_⟩
    split at h
    · next isDigit hprefix =>
      obtain ⟨hc, hdigit⟩ := isNumberChar_of_prefixDigit? hprefix
      exact List.forall_mem_cons.2 ⟨hc, digitsOk_all hdigit (Bool.and_eq_true_iff.1 h).2⟩
    · exact digitsOk_all (fun c => isNumberChar_of_isDigitBelow) h
  · next c cs _ _ =>
    obtain ⟨hc, hcs⟩ := Bool.and_eq_true_iff.1 h
    exact ⟨c, cs, rfl, hc, digitsOk_all (fun c => isNumberChar_of_isDigit) hcs⟩

theorem digitsOk_of_all {isDigit : Char → Bool} (hunderscore : isDigit '_' = false) {cs : List Char}
    (h : ∀ c ∈ cs, isDigit c = true) : digitsOk isDigit cs = true := by
  fun_induction digitsOk isDigit cs with
  | case1 => rfl
  | case2 c cs ih =>
    rw [h '_' List.mem_cons_self] at hunderscore
    cases hunderscore
  | case3 c cs _ ih =>
    obtain ⟨hc, hcs⟩ := List.forall_mem_cons.1 h
    rw [hc, ih hcs]
    rfl

/-- A positive number in decimal does not begin with a zero. -/
theorem toDigits_head {n : Nat} (hn : 0 < n) :
    ∃ c cs, Nat.toDigits 10 n = c :: cs ∧ c ≠ '0' := by
  induction n using Nat.strongRecOn with
  | ind n ih =>
    rcases Nat.lt_or_ge n 10 with hlt | hge
    · have hdigit : ∀ d < 10, 0 < d → d.digitChar ≠ '0' := by decide
      exact ⟨_, [], Nat.toDigits_of_lt_base hlt, hdigit n hlt hn⟩
    · obtain ⟨c, cs, hdigits, hc⟩ := ih (n / 10) (by omega) (by omega)
      refine ⟨c, cs ++ [(n % 10).digitChar], ?_, hc⟩
      rw [Nat.toDigits_of_base_le (by decide) hge, hdigits, List.cons_append]

/-- A number in decimal is a literal. -/
theorem isIntLit_toString (n : Nat) : isIntLit (toString n).toList = true := by
  rw [Nat.toString_eq_repr, Nat.repr_eq_ofList_toDigits, String.toList_ofList]
  rcases Nat.eq_zero_or_pos n with rfl | hn
  · rfl
  · have hdigits : ∀ c ∈ Nat.toDigits 10 n, c.isDigit = true :=
      fun c hc => Nat.isDigit_of_mem_toDigits (by decide) (by decide) hc
    obtain ⟨c, cs, hchars, hzero⟩ := toDigits_head hn
    rw [hchars] at hdigits ⊢
    obtain ⟨hc, hcs⟩ := List.forall_mem_cons.1 hdigits
    unfold isIntLit
    split
    · next heq => cases heq
    · rfl
    · next heq => exact absurd (List.cons.inj heq).1 hzero
    · next heq =>
      obtain ⟨rfl, rfl⟩ := List.cons.inj heq
      rw [hc, digitsOk_of_all rfl hcs]
      rfl

/-! ### Tokens -/

/-- A token. -/
inductive Token
  | ident (name : String)
  | keyword (word : String)
  | int (text : String)
  | symbol (text : String)
deriving DecidableEq, Repr

/-- The text of a token. -/
def Token.text : Token → String
  | ident text | keyword text | int text | symbol text => text

/-- A word as a token. -/
def Token.word (text : String) : Token :=
  if goKeywords.contains text then .keyword text else .ident text

/-- Operators and punctuation, and what begins a comment, longest first. -/
def goSymbols : List String :=
  ["<<=", ">>=", "&^=", "...",
    "<<", ">>", "&^", "&&", "||", "<-", "++", "--", "==", "!=", "<=", ">=", ":=",
    "+=", "-=", "*=", "/=", "%=", "&=", "|=", "^=", "//", "/*",
    "+", "-", "*", "/", "%", "&", "|", "^", "<", ">", "=", "!", "~",
    "(", ")", "[", "]", "\x7b", "\x7d", ",", ";", ".", ":"]

/-- The characters that make a longer symbol of a symbol. -/
def followers (s : String) : List Char :=
  goSymbols.filterMap fun t =>
    if s.toList.isPrefixOf t.toList then (t.toList.drop s.length).head? else none

/-- No symbol is tried before a longer one that it begins. -/
theorem goSymbols_order :
    goSymbols.Pairwise fun s t => s.toList.isPrefixOf t.toList = false := by
  decide

namespace Alphabet

variable (α : Alphabet)

/-- The token at the front of a text. Numbers other than integers are not read; a point before a
digit, which begins such a number, is read as a symbol that no expression has there. -/
def front? : List Char → Option Token
  | [] => none
  | c :: cs =>
    if α.isLetter c then some (.word (.ofList (c :: cs.takeWhile α.isWordChar)))
    else if c.isDigit then
      let run := c :: cs.takeWhile isNumberChar
      if isIntLit run then some (.int (String.ofList run)) else none
    else (goSymbols.find? fun s => s.toList.isPrefixOf (c :: cs)).map .symbol

/-- The tokens of a text, behind the given number of characters of the token before. -/
def tokensFrom : Nat → List Char → Option (List Token)
  | _, [] => some []
  | skip + 1, _ :: cs => tokensFrom skip cs
  | 0, c :: cs =>
    match α.front? (c :: cs) with
    | some t => (t :: ·) <$> tokensFrom (t.text.length - 1) cs
    | none => if isBlank c then tokensFrom 0 cs else none

/-- The tokens of a text. -/
def tokens (text : String) : Option (List Token) :=
  α.tokensFrom 0 text.toList

/-! ### Reading one token -/

variable {α} {rest : List Char}

/-- The text begins with no character of a kind. -/
def Stops (p : Char → Bool) (rest : List Char) : Prop :=
  ∀ c ∈ rest.head?, p c = false

theorem takeWhile_append_of_stops {p : Char → Bool} {cs : List Char} (h : ∀ c ∈ cs, p c = true)
    (hrest : Stops p rest) : (cs ++ rest).takeWhile p = cs := by
  rw [List.takeWhile_append_of_pos h]
  cases rest with
  | nil => simp
  | cons c rest => simp [hrest c rfl]

theorem dropWhile_append_of_stops {p : Char → Bool} {cs : List Char} (h : ∀ c ∈ cs, p c = true)
    (hrest : Stops p rest) : (cs ++ rest).dropWhile p = rest := by
  have hsplit := List.takeWhile_append_dropWhile (p := p) (l := cs ++ rest)
  rw [takeWhile_append_of_stops h hrest] at hsplit
  exact List.append_cancel_left hsplit

/-- An identifier is read up to where no character of a word follows. -/
theorem front?_ident {name : String} (h : α.isIdent name = true) (hrest : Stops α.isWordChar rest) :
    α.front? (name.toList ++ rest) = some (.ident name) := by
  unfold isIdent at h
  split at h
  · cases h
  · next c cs hname =>
    obtain ⟨⟨hletter, hcs⟩, hkeyword⟩ := by simpa only [Bool.and_eq_true] using h
    rw [hname, List.cons_append, front?, if_pos hletter,
      takeWhile_append_of_stops (List.all_eq_true.1 hcs) hrest, ← hname, String.ofList_toList,
      Token.word, if_neg (by simpa using hkeyword)]

theorem isIdent_cons {name : String} (h : α.isIdent name = true) :
    ∃ c cs, name.toList = c :: cs ∧ α.isLetter c = true := by
  unfold isIdent at h
  split at h
  · cases h
  · next c cs hname =>
    obtain ⟨⟨hletter, -⟩, -⟩ := by simpa only [Bool.and_eq_true] using h
    exact ⟨c, cs, hname, hletter⟩

theorem isLetter_or_isDigit_of_isIdentChar {c : Char} (h : isIdentChar c = true) :
    α.isLetter c = true ∨ c.isDigit = true := by
  unfold isIdentChar Char.isAlphanum at h
  unfold isLetter
  cases hdigit : c.isDigit <;> simp_all

theorem isWordChar_of_isIdentChar {c : Char} (h : isIdentChar c = true) :
    α.isWordChar c = true := by
  rcases isLetter_or_isDigit_of_isIdentChar (α := α) h with h | h <;> simp [isWordChar, h]

theorem isIdent_of_cons {name : String} {c : Char} {cs : List Char} (hname : name.toList = c :: cs)
    (hc : α.isLetter c = true) (hcs : ∀ d ∈ cs, α.isWordChar d = true)
    (hkeyword : goKeywords.contains name = false) : α.isIdent name = true := by
  unfold isIdent
  rw [hname]
  show (α.isLetter c && cs.all α.isWordChar && !goKeywords.contains name) = true
  rw [hc, List.all_eq_true.2 hcs, hkeyword]
  rfl

theorem isIdentChar_of_mem_identChars (raw : String) :
    ∀ c ∈ identChars raw, isIdentChar c = true := by
  intro c hc
  obtain ⟨d, -, rfl⟩ := List.mem_map.1 hc
  split
  · next hd => exact hd
  · rfl

/-- With an underscore before a leading digit, the characters of an identifier make a word. -/
theorem word_of_isIdentChar {c : Char} {cs : List Char}
    (h : ∀ d ∈ c :: cs, isIdentChar d = true) :
    ∃ d ds, (if c.isDigit then '_' :: c :: cs else c :: cs) = d :: ds ∧ α.isLetter d = true ∧
      ∀ x ∈ ds, α.isWordChar x = true := by
  have hword : ∀ d ∈ c :: cs, α.isWordChar d = true := fun d hd => isWordChar_of_isIdentChar (h d hd)
  split
  · exact ⟨'_', c :: cs, rfl, rfl, hword⟩
  · next hdigit =>
    have hc : isIdentChar c = true := h c List.mem_cons_self
    exact ⟨c, cs, rfl, (isLetter_or_isDigit_of_isIdentChar hc).resolve_right hdigit,
      (List.forall_mem_cons.1 hword).2⟩

/-- Every name is mapped to an identifier. -/
theorem isIdent_goName (raw : String) : α.isIdent (goName raw) = true := by
  have hkeywords : ∀ w ∈ goKeywords, goKeywords.contains (w ++ "_") = false := by
    decide
  unfold goName
  split
  · exact isIdent_of_cons (c := '_') rfl rfl nofun (by decide)
  · next c cs hraw =>
    obtain ⟨d, ds, hname, hd, hds⟩ :=
      word_of_isIdentChar (α := α) (hraw ▸ isIdentChar_of_mem_identChars raw)
    rw [hname]
    show α.isIdent (if goKeywords.contains (.ofList (d :: ds)) then .ofList (d :: ds) ++ "_"
      else .ofList (d :: ds)) = true
    split
    · next hkeyword =>
      have hmore : ∀ x ∈ ds ++ ['_'], α.isWordChar x = true :=
        List.forall_mem_append.2 ⟨hds, List.forall_mem_singleton.2 rfl⟩
      exact isIdent_of_cons (by simp) hd hmore (hkeywords _ (List.contains_iff_mem.1 hkeyword))
    · next hkeyword =>
      exact isIdent_of_cons String.toList_ofList hd hds (Bool.eq_false_iff.2 hkeyword)

/-- The letters of ASCII do not depend on the alphabet. -/
theorem isLetter_of_ascii {c : Char} (hascii : c.toNat ≤ 127) (halpha : c.isAlpha = false)
    (hunderscore : c ≠ '_') : α.isLetter c = false := by
  have hle : decide (127 < c.toNat) = false := decide_eq_false (by omega)
  simp [isLetter, halpha, hunderscore, hle]

/-- No letter is a digit. -/
theorem isLetter_of_isDigit {c : Char} (h : c.isDigit = true) : α.isLetter c = false := by
  obtain ⟨hlow, hhigh⟩ : 48 ≤ c.toNat ∧ c.toNat ≤ 57 := Char.isDigit_iff_toNat.1 h
  have hupper : c.isUpper = false := by
    refine decide_eq_false fun hc => ?_
    have hA : 65 ≤ c.toNat := UInt32.le_iff_toNat_le.1 hc.1
    omega
  have hlower : c.isLower = false := by
    refine Bool.and_eq_false_iff.2 (.inl (decide_eq_false fun hc => ?_))
    have ha : 97 ≤ c.toNat := UInt32.le_iff_toNat_le.1 hc
    omega
  have halpha : c.isAlpha = false := Bool.or_eq_false_iff.2 ⟨hupper, hlower⟩
  refine isLetter_of_ascii (by omega) halpha fun hc => ?_
  rw [hc] at hhigh
  exact absurd hhigh (by decide)

/-- An integer literal is read up to where no character of a number follows. -/
theorem front?_int {text : String} (h : isIntLit text.toList = true)
    (hrest : Stops isNumberChar rest) :
    α.front? (text.toList ++ rest) = some (.int text) := by
  obtain ⟨c, cs, htext, hc, hcs⟩ := isIntLit_cons h
  rw [htext, List.cons_append, front?, if_neg (by simp [isLetter_of_isDigit hc]),
    if_pos (by simp [hc]), takeWhile_append_of_stops hcs hrest]
  show (if isIntLit (c :: cs) = true then some (Token.int (String.ofList (c :: cs))) else none) = _
  rw [← htext, if_pos h, String.ofList_toList]

/-- A symbol is read if the character behind it does not go on with it. -/
theorem find?_symbol {s : String} (hs : s ∈ goSymbols)
    (hrest : ∀ c ∈ rest.head?, c ∉ followers s) :
    goSymbols.find? (fun t => t.toList.isPrefixOf (s.toList ++ rest)) = some s := by
  obtain ⟨longer, shorter, hsplit⟩ := List.append_of_mem hs
  have horder := goSymbols_order
  rw [hsplit, List.pairwise_append] at horder
  refine List.find?_eq_some_iff_append.2 ⟨by simp, longer, shorter, hsplit, fun t ht => ?_⟩
  by_contra hprefix
  have hprefix : t.toList <+: s.toList ++ rest := by simpa using hprefix
  rcases Nat.lt_or_ge s.toList.length t.toList.length with hlt | hle
  · -- It would be the symbol and one of the characters that go on with it.
    obtain ⟨more, hmore⟩ : s.toList <+: t.toList :=
      List.prefix_of_prefix_length_le (List.prefix_append _ _) hprefix (Nat.le_of_lt hlt)
    cases more with
    | nil => simp [← hmore] at hlt
    | cons c more =>
      obtain ⟨rest', hrest'⟩ := hprefix
      rw [← hmore, List.append_assoc, List.append_cancel_left_eq] at hrest'
      refine hrest c (by simp [← hrest']) (List.mem_filterMap.2 ⟨t, ?_, ?_⟩)
      · rw [hsplit]
        exact List.mem_append_left _ ht
      · simp [← hmore, ← String.length_toList]
  · -- It would be a beginning of the symbol, and come before it.
    have hbegins : t.toList <+: s.toList :=
      List.prefix_of_prefix_length_le hprefix (List.prefix_append _ _) hle
    have hnot := horder.2.2 t ht s List.mem_cons_self
    rw [List.isPrefixOf_iff_prefix.2 hbegins] at hnot
    cases hnot

/-- A character of ASCII that begins neither words nor numbers. -/
def isMark (c : Char) : Bool :=
  decide (c.toNat ≤ 127) && !c.isAlpha && c != '_' && !c.isDigit

theorem isLetter_of_isMark {c : Char} (h : isMark c = true) : α.isLetter c = false := by
  obtain ⟨⟨⟨hascii, halpha⟩, hunderscore⟩, -⟩ := by
    simpa only [isMark, Bool.and_eq_true] using h
  exact isLetter_of_ascii (of_decide_eq_true hascii) (by simpa using halpha)
    (by simpa using hunderscore)

theorem isDigit_of_isMark {c : Char} (h : isMark c = true) : c.isDigit = false := by
  simpa using (Bool.and_eq_true_iff.1 h).2

theorem goSymbols_head : ∀ s ∈ goSymbols, s.toList.head?.any isMark = true := by
  decide

theorem goSymbols_cons {s : String} (hs : s ∈ goSymbols) :
    ∃ c cs, s.toList = c :: cs ∧ isMark c = true := by
  have hhead := goSymbols_head s hs
  cases hchars : s.toList with
  | nil =>
    rw [hchars] at hhead
    cases hhead
  | cons c cs =>
    rw [hchars] at hhead
    exact ⟨c, cs, rfl, hhead⟩

/-- A symbol is read if the character behind it does not go on with it. -/
theorem front?_symbol {s : String} (hs : s ∈ goSymbols)
    (hrest : ∀ c ∈ rest.head?, c ∉ followers s) :
    α.front? (s.toList ++ rest) = some (.symbol s) := by
  have hfind := find?_symbol hs hrest
  obtain ⟨c, cs, hchars, hmark⟩ := goSymbols_cons hs
  rw [hchars, List.cons_append] at hfind
  rw [hchars, List.cons_append, front?, if_neg (by simp [isLetter_of_isMark hmark]),
    if_neg (by simp [isDigit_of_isMark hmark]), hfind]
  rfl

/-! ### Reading several tokens -/

/-- The characters that are left of a token are passed over. -/
theorem tokensFrom_append (cs : List Char) :
    α.tokensFrom cs.length (cs ++ rest) = α.tokensFrom 0 rest := by
  induction cs with
  | nil => rfl
  | cons c cs ih => exact ih

variable (α) in
/-- A text is read as some tokens, and then the rest is. -/
def Reads (text : String) (ts : List Token) (rest : List Char) : Prop :=
  α.tokensFrom 0 (text.toList ++ rest) = (ts ++ ·) <$> α.tokensFrom 0 rest

namespace Reads

theorem append {text text' : String} {ts ts' : List Token}
    (h : α.Reads text ts (text'.toList ++ rest)) (h' : α.Reads text' ts' rest) :
    α.Reads (text ++ text') (ts ++ ts') rest := by
  unfold Reads at *
  rw [String.toList_append, List.append_assoc, h, h']
  cases α.tokensFrom 0 rest <;> simp

/-- A token that stands at the front is read. -/
theorem token {t : Token} (hne : t.text.toList ≠ [])
    (h : α.front? (t.text.toList ++ rest) = some t) : α.Reads t.text [t] rest := by
  unfold Reads
  cases hchars : t.text.toList with
  | nil => exact absurd hchars hne
  | cons c cs =>
    have hlength : t.text.length - 1 = cs.length := by
      rw [← String.length_toList, hchars, List.length_cons, Nat.add_sub_cancel]
    rw [hchars, List.cons_append] at h
    rw [List.cons_append, tokensFrom, h]
    show (t :: ·) <$> α.tokensFrom (t.text.length - 1) (cs ++ rest) = _
    rw [hlength, tokensFrom_append]
    rfl

theorem ident {name : String} (h : α.isIdent name = true) (hrest : Stops α.isWordChar rest) :
    α.Reads name [.ident name] rest := by
  refine token (t := .ident name) (fun hname => ?_) (front?_ident h hrest)
  have hname : name.toList = [] := hname
  simp [isIdent, hname] at h

theorem int {text : String} (h : isIntLit text.toList = true) (hrest : Stops isNumberChar rest) :
    α.Reads text [.int text] rest := by
  refine token (t := .int text) (fun htext => ?_) (front?_int h hrest)
  have htext : text.toList = [] := htext
  rw [htext] at h
  cases h

theorem symbol {s : String} (hs : s ∈ goSymbols) (hrest : ∀ c ∈ rest.head?, c ∉ followers s) :
    α.Reads s [.symbol s] rest := by
  obtain ⟨c, cs, hchars, -⟩ := goSymbols_cons hs
  have hne : s.toList ≠ [] := by
    rw [hchars]
    exact List.cons_ne_nil c cs
  exact token (t := .symbol s) hne (front?_symbol hs hrest)

/-- Nothing goes on with a parenthesis or a comma. -/
theorem punctuation {s : String} (hs : s ∈ ["(", ")", ","]) : α.Reads s [.symbol s] rest := by
  have hnone : ∀ t ∈ ["(", ")", ","], t ∈ goSymbols ∧ followers t = [] := by
    decide
  obtain ⟨hsymbol, hfollowers⟩ := hnone s hs
  refine symbol hsymbol fun c _ => ?_
  rw [hfollowers]
  exact List.not_mem_nil

/-- A blank is passed over. -/
theorem blank : α.Reads " " [] rest := by
  have hfront : α.front? (' ' :: rest) = none := rfl
  show α.tokensFrom 0 (' ' :: rest) = _
  rw [tokensFrom, hfront]
  exact (id_map _).symm

/-- What is read before the end of a text are its tokens. -/
theorem tokens_eq {text : String} {ts : List Token} (h : α.Reads text ts []) :
    α.tokens text = some ts := by
  unfold Reads at h
  rw [List.append_nil] at h
  rw [tokens, h]
  show some (ts ++ []) = _
  rw [List.append_nil]

end Reads

end Alphabet

end GoLift.Go
