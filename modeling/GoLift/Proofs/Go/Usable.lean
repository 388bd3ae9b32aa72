import GoLift.Proofs.Go.Lexer
import GoLift.Proofs.Go.Names

/-!
# Identifiers that can be used

Of identifiers, the blank one `_` is special: it can be declared but not read, and no package is
called by it.

* **A name table gives the blank identifier to one binding**, the first that has nothing but an
  underscore left of its name (`NameTable.bind_blank_iff`), such as a name that is a punctuation
  mark. Whatever else it gives to bindings can be used.
* **A package is called by what is left of its module's name without underscores around it**, and
  `main` if nothing is (`packageName_eq`). What `goName` adds to make an identifier are underscores
  around a name. They are lost again, so a digit in front or a keyword stays
  (`packageName_isIdent_iff`).
-/

set_option autoImplicit false

namespace GoLift

open Go (Alphabet)
open Go.Alphabet

/-! ### Blank names -/

/-- Is nothing left of a name but one underscore? -/
def isBlankName (raw : String) : Bool :=
  match raw.toList with
  | [] => true
  | [c] => !c.isAlphanum
  | _ => false

theorem goName_ne_empty (raw : String) : goName raw ≠ "" := by
  intro h
  have hident := isIdent_goName (α := ⟨fun _ => false, fun _ => false⟩) raw
  rw [h] at hident
  cases hident

/-- What is mapped character by character is all there, perhaps between underscores. -/
theorem identChars_infix_goName (raw : String) : identChars raw <:+: (goName raw).toList := by
  unfold goName
  split
  · next hnil => exact hnil ▸ List.nil_infix
  · next c cs hcons =>
    rw [hcons]
    refine ⟨if c.isDigit then ['_'] else [],
      if goKeywords.contains (.ofList (if c.isDigit then '_' :: c :: cs else c :: cs)) then ['_']
      else [], ?_⟩
    dsimp only
    split <;> split <;> simp

theorem goName_eq_blank_iff {raw : String} : goName raw = "_" ↔ isBlankName raw = true := by
  have hinfix := identChars_infix_goName raw
  unfold isBlankName
  rcases hraw : raw.toList with _ | ⟨c, _ | ⟨c', cs⟩⟩
  · have hchars : identChars raw = [] := by rw [identChars, hraw, List.map_nil]
    simp [goName, hchars]
  · cases hc : c.isAlphanum with
    | true =>
      have hmem : c ∈ (goName raw).toList := by
        refine hinfix.subset ?_
        simp [identChars, isIdentChar, hraw, hc]
      suffices goName raw ≠ "_" by simpa [hc]
      intro h
      obtain rfl : c = '_' := by simpa [h] using hmem
      cases hc
    | false =>
      have hchars : identChars raw = ['_'] := by
        rw [identChars, hraw, List.map_cons, List.map_nil, isIdentChar, hc, Bool.false_or]
        split
        · next h => rw [eq_of_beq h]
        · rfl
      have hblank : goName raw = "_" := by
        unfold goName
        rw [hchars]
        decide
      simpa [hc]
  · suffices goName raw ≠ "_" by simpa
    intro h
    have hlength := hinfix.length_le
    rw [identChars, List.length_map, hraw, h] at hlength
    simp at hlength

namespace NameTable

variable {α : Alphabet}

/-! ### Identifiers of bindings -/

/-- No keyword has an underscore in it. -/
theorem not_keyword_of_underscore {x : String} (h : '_' ∈ x.toList) :
    goKeywords.contains x = false := by
  have hnone : ∀ w ∈ goKeywords, '_' ∉ w.toList := by decide
  rw [← Bool.not_eq_true]
  intro hmem
  exact hnone x (List.contains_iff_mem.1 hmem) h

/-- A variant of an identifier is one too. -/
theorem isIdent_variant {base : String} (h : α.isIdent base = true) (k : Nat) :
    α.isIdent (variant base k) = true := by
  cases k with
  | zero => exact h
  | succ k =>
    obtain ⟨c, cs, hbase, hc⟩ := isIdent_cons h
    have hcs : cs.all α.isWordChar = true := by
      simp only [isIdent, hbase, Bool.and_eq_true] at h
      exact h.1.2
    have hdigits : ∀ d ∈ (toString (k + 1)).toList, α.isWordChar d = true := by
      intro d hd
      simp [isWordChar, isDigit_of_mem_toString hd]
    have hlist : (variant base (k + 1)).toList =
        c :: (cs ++ '_' :: (toString (k + 1)).toList) := by
      simp [variant, hbase]
    refine isIdent_of_cons hlist hc ?_ (not_keyword_of_underscore (by simp [hlist]))
    refine List.forall_mem_append.2 ⟨List.all_eq_true.1 hcs, List.forall_mem_cons.2 ⟨rfl, hdigits⟩⟩

/-- Only the name itself, without a number, can be blank. -/
theorem variant_eq_blank {base : String} (hbase : base ≠ "") {k : Nat}
    (h : variant base k = "_") : base = "_" := by
  cases k with
  | zero => exact h
  | succ k =>
    have hlength := congrArg String.length h
    simp only [variant, String.length_append] at hlength
    have hone : "_".length = 1 := rfl
    exact absurd (String.length_eq_zero_iff.1 (by omega)) hbase

/-- No temporary is blank: it ends in a digit. -/
theorem temporary_ne_blank (hint : String) (k : Nat) : temporary hint k ≠ "_" := by
  intro h
  have hlist := congrArg String.toList h
  rw [temporary, String.toList_append] at hlist
  have hlast : (toString k).toList.getLast? = some '_' := by
    have hends := congrArg List.getLast? hlist
    rwa [List.getLast?_append_of_ne_nil _ (toString_nat_ne_nil k)] at hends
  have hdigit : '_'.isDigit = true := isDigit_of_mem_toString (List.mem_of_getLast? hlast)
  cases hdigit

/-! ### Histories -/

/-- What a name table is asked for. -/
inductive Call
  /-- The identifier of a binding. -/
  | bind (raw : String)
  /-- The same, but nobody looks at the answer. -/
  | reserve (raw : String)
  /-- A temporary. -/
  | fresh (hint : String)

/-- The binding that is asked for. -/
def Call.raw? : Call → Option String
  | .bind raw | .reserve raw => some raw
  | .fresh _ => none

/-- The table after a call. -/
def call (t : NameTable) : Call → NameTable
  | .bind raw | .reserve raw => (t.bind raw).2
  | .fresh hint => (t.fresh hint).2

/-- The table after some calls. -/
def calls (t : NameTable) (cs : List Call) : NameTable :=
  cs.foldl call t

/-- What a table knows of the bindings that were asked for, and who has the blank identifier. -/
structure Tracks (t : NameTable) (reserved asked : List String) : Prop where
  mem : ∀ {raw x : String}, t.local? raw = some x → raw ∈ asked
  isIdent : ∀ {raw x : String}, t.local? raw = some x → ∀ α : Alphabet, α.isIdent x = true
  blank : ∀ raw, t.local? raw = some "_" ↔ "_" ∉ reserved ∧ asked.find? isBlankName = some raw
  used : "_" ∈ t.used ↔ "_" ∈ reserved ∨ ∃ raw ∈ asked, isBlankName raw = true

variable {t : NameTable} {reserved asked : List String}

theorem tracks_reserving (reserved : List String) : (reserving reserved).Tracks reserved [] where
  mem h := by cases h
  isIdent h := by cases h
  blank raw := by simp [reserving, local?, Table.get?]
  used := by simp [reserving]

/-- A binding gets the blank identifier if it is free and nothing else is left of the name. -/
theorem pick_eq_blank_iff (raw : String) (hfree : "_" ∉ t.used) :
    t.pick raw = "_" ↔ isBlankName raw = true := by
  rw [← goName_eq_blank_iff]
  constructor
  · exact variant_eq_blank (goName_ne_empty raw)
  · intro h
    rw [pick_of_not_mem (h ▸ hfree), h]

/-- Nothing changes by asking for a binding again. -/
theorem Tracks.again (h : t.Tracks reserved asked) {raw : String} (hraw : raw ∈ asked) :
    t.Tracks reserved (asked ++ [raw]) where
  mem hx := List.mem_append_left _ (h.mem hx)
  isIdent := h.isIdent
  blank a := by
    rw [h.blank a, List.find?_append]
    cases hfind : asked.find? isBlankName with
    | some b => simp
    | none =>
      have hnot : isBlankName raw = false := by
        simpa using List.find?_eq_none.1 hfind raw hraw
      simp [hnot]
  used := by
    rw [h.used]
    simp only [List.mem_append, List.mem_singleton]
    refine or_congr_right ⟨fun ⟨a, ha, hblank⟩ => ⟨a, .inl ha, hblank⟩, ?_⟩
    rintro ⟨a, ha | rfl, hblank⟩
    · exact ⟨a, ha, hblank⟩
    · exact ⟨a, hraw, hblank⟩

/-- The bindings after a new one. -/
theorem local?_bind_of_none {raw : String} (hraw : t.local? raw = none) (a x : String) :
    (t.bind raw).2.local? a = some x ↔ t.local? a = some x ∨ a = raw ∧ x = t.pick raw := by
  refine ⟨local?_of_bind, ?_⟩
  rintro (hx | ⟨rfl, rfl⟩)
  · exact (t.le_bind raw).local? hx
  · rw [local?_bind, bind_of_none hraw]

/-- A binding that has an identifier after a new one was asked for. -/
theorem Tracks.of_bind (h : t.Tracks reserved asked) {raw a x : String}
    (hraw : t.local? raw = none) (hx : (t.bind raw).2.local? a = some x) :
    a ∈ asked ++ [raw] ∧ ∀ α : Alphabet, α.isIdent x = true := by
  obtain hx | ⟨rfl, rfl⟩ := (local?_bind_of_none hraw a x).1 hx
  · exact ⟨List.mem_append_left _ (h.mem hx), h.isIdent hx⟩
  · exact ⟨by simp, fun α => isIdent_variant (isIdent_goName a) _⟩

/-- Whoever asks for a binding first, when the blank identifier is in use, does not get it. -/
theorem Tracks.bind_of_used (h : t.Tracks reserved asked) {raw : String}
    (hraw : t.local? raw = none) (hblank : "_" ∈ t.used) :
    (t.bind raw).2.Tracks reserved (asked ++ [raw]) where
  mem hx := (h.of_bind hraw hx).1
  isIdent hx := (h.of_bind hraw hx).2
  blank a := by
    have hne : "_" ≠ t.pick raw := fun heq => t.pick_not_mem raw (heq ▸ hblank)
    rw [local?_bind_of_none hraw, h.blank a]
    simp only [hne, and_false, or_false]
    refine and_congr_right fun hreserved => ?_
    -- Some earlier name is blank, so the first blank name is not the new one.
    obtain ⟨b, hb, hname⟩ := (h.used.1 hblank).resolve_left hreserved
    obtain ⟨c, hc⟩ := Option.isSome_iff_exists.1 (List.find?_isSome.2 ⟨b, hb, hname⟩)
    rw [List.find?_append, hc, Option.some_or]
  used := by
    refine iff_of_true ((t.le_bind raw).used hblank) ?_
    exact (h.used.1 hblank).imp_right fun ⟨a, ha, hname⟩ => ⟨a, List.mem_append_left _ ha, hname⟩

/-- Whoever asks for a binding first, when the blank identifier is free, gets it for a blank name. -/
theorem Tracks.bind_of_free (h : t.Tracks reserved asked) {raw : String}
    (hraw : t.local? raw = none) (hblank : "_" ∉ t.used) :
    (t.bind raw).2.Tracks reserved (asked ++ [raw]) := by
  obtain ⟨hreserved, hnone⟩ := not_or.1 (h.used.not.1 hblank)
  have hpick := pick_eq_blank_iff raw hblank
  refine ⟨fun hx => (h.of_bind hraw hx).1, fun hx => (h.of_bind hraw hx).2, fun a => ?_, ?_⟩
  · have hfind : asked.find? isBlankName = none :=
      List.find?_eq_none.2 fun b hb hname => hnone ⟨b, hb, hname⟩
    rw [local?_bind_of_none hraw, h.blank a, List.find?_append, hfind, eq_comm (a := "_"), hpick]
    cases hname : isBlankName raw <;> simp [hname, hreserved, eq_comm]
  · have hused : (t.bind raw).2.used = t.pick raw :: t.used := by rw [bind_of_none hraw]
    rw [hused, List.mem_cons, or_iff_left hblank, eq_comm, hpick]
    simp only [List.mem_append, List.mem_singleton, hreserved, false_or]
    refine ⟨fun hname => ⟨raw, .inr rfl, hname⟩, ?_⟩
    rintro ⟨a, ha | rfl, hname⟩
    · exact absurd ⟨a, ha, hname⟩ hnone
    · exact hname

theorem Tracks.bind (h : t.Tracks reserved asked) (raw : String) :
    (t.bind raw).2.Tracks reserved (asked ++ [raw]) := by
  cases hraw : t.local? raw with
  | some name =>
    rw [bind_of_local? hraw]
    exact h.again (h.mem hraw)
  | none =>
    by_cases hblank : "_" ∈ t.used
    · exact h.bind_of_used hraw hblank
    · exact h.bind_of_free hraw hblank

theorem Tracks.fresh (h : t.Tracks reserved asked) (hint : String) :
    (t.fresh hint).2.Tracks reserved asked where
  mem := h.mem
  isIdent := h.isIdent
  blank := h.blank
  used := by
    have hne : "_" ≠ (t.fresh hint).1 := (temporary_ne_blank _ _).symm
    have hmem : "_" ∈ (t.fresh hint).2.used ↔ "_" = (t.fresh hint).1 ∨ "_" ∈ t.used :=
      List.mem_cons
    rw [hmem, h.used]
    simp [hne]

theorem Tracks.calls (h : t.Tracks reserved asked) (cs : List Call) :
    (t.calls cs).Tracks reserved (asked ++ cs.filterMap Call.raw?) := by
  induction cs generalizing t asked with
  | nil => exact (List.append_nil asked).symm ▸ h
  | cons c cs ih =>
    cases c with
    | bind raw | reserve raw =>
      show (NameTable.calls (t.bind raw).2 cs).Tracks reserved (asked ++ raw :: cs.filterMap Call.raw?)
      rw [List.append_cons]
      exact ih (h.bind raw)
    | fresh hint => exact ih (h.fresh hint)

/-- **A binding gets a usable identifier, unless it is the first one that has nothing but one
underscore left of its name.** Whatever identifiers are reserved and whatever is asked before, what
a binding gets is a letter or an underscore with letters, digits and underscores behind it, and no
keyword. It is the blank identifier exactly if that is not reserved and no earlier name is blank. -/
theorem bind_blank_iff (α : Alphabet) (reserved : List String) (cs : List Call) (raw : String) :
    α.isIdent (((reserving reserved).calls cs).bind raw).1 = true ∧
      ((((reserving reserved).calls cs).bind raw).1 = "_" ↔ "_" ∉ reserved ∧
        (cs.filterMap Call.raw? ++ [raw]).find? isBlankName = some raw) := by
  have h := ((tracks_reserving reserved).calls cs).bind raw
  have hlocal := local?_bind ((reserving reserved).calls cs) raw
  rw [List.nil_append] at h
  refine ⟨h.isIdent hlocal α, ?_⟩
  rw [← h.blank raw, hlocal, Option.some_inj]

/-- Of two bindings called by punctuation, the first one gets the blank identifier. -/
example : (bindAll {} [".", "-"]).1 = ["_", "__1"] := by decide +kernel

end NameTable

/-! ### Names of packages -/

/-- Characters without the underscores around them. -/
def trimUnderscores (cs : List Char) : List Char :=
  ((cs.dropWhile (· == '_')).reverse.dropWhile (· == '_')).reverse

theorem trimUnderscores_cons (cs : List Char) :
    trimUnderscores ('_' :: cs) = trimUnderscores cs := rfl

theorem trimUnderscores_append (cs : List Char) :
    trimUnderscores (cs ++ ['_']) = trimUnderscores cs := by
  unfold trimUnderscores
  rw [List.dropWhile_append]
  split
  · next h => rw [List.isEmpty_iff.1 h]; rfl
  · rw [List.reverse_append]
    rfl

theorem mem_of_mem_trimUnderscores {cs : List Char} {c : Char} (h : c ∈ trimUnderscores cs) :
    c ∈ cs := by
  have hsub := (List.dropWhile_sublist (· == '_')).subset (List.mem_reverse.1 h)
  exact (List.dropWhile_sublist (· == '_')).subset (List.mem_reverse.1 hsub)

/-- No underscore is left at the end. -/
theorem trimUnderscores_ne (cs : List Char) : trimUnderscores cs ≠ ['_'] := by
  intro h
  have hrest : (cs.dropWhile (· == '_')).reverse.dropWhile (· == '_') = ['_'] :=
    List.reverse_eq_iff.1 h
  have hhead := List.head?_dropWhile_not (· == '_') (cs.dropWhile (· == '_')).reverse
  rw [hrest] at hhead
  cases hhead

/-- A lower-case letter, a digit or an underscore is one of the characters that stay. -/
theorem isIdentChar_toLower {c : Char} (h : isIdentChar c = true) :
    isIdentChar c.toLower = true := by
  by_cases hc : c.val ≥ 'A'.val ∧ c.val ≤ 'Z'.val
  · have hall : ∀ n < 91, isIdentChar (.ofNat n) = true →
        isIdentChar (Char.ofNat n).toLower = true := by
      decide
    have hlower := hall c.toNat (Nat.lt_succ_of_le (UInt32.le_iff_toNat_le.1 hc.2))
    rw [Char.ofNat_toNat] at hlower
    exact hlower h
  · have hsame : c.toLower = c := dif_neg hc
    rwa [hsame]

/-- The characters between the last slash of a module's name and the first dot behind it. -/
def stemChars (moduleName : String) : List Char :=
  ((moduleName.toList.reverse.takeWhile (· != '/')).reverse).takeWhile (· != '.')

/-- What is left of the name of a module: its stem in lower case, with underscores for what stands
in no identifier, and without underscores around it. -/
def bareStem (moduleName : String) : String :=
  .ofList (trimUnderscores
    ((identChars (.ofList (stemChars moduleName))).map Char.toLower))

/-- What `goName` adds is taken away again. -/
theorem trimUnderscores_goName (raw : String) :
    trimUnderscores ((goName raw).toList.map Char.toLower) =
      trimUnderscores ((identChars raw).map Char.toLower) := by
  unfold goName
  split
  · next hnil => rw [hnil]; rfl
  · next c cs hcons =>
    rw [hcons]
    have hlower : Char.toLower '_' = '_' := rfl
    dsimp only
    split <;> split <;>
      simp only [String.toList_append, String.toList_ofList, List.map_append, List.map_cons,
        List.map_nil, String.reduceToList, hlower, trimUnderscores_append, trimUnderscores_cons]

/-- A package is called by what is left of the name of its module, if anything is. -/
theorem packageName_eq (moduleName : String) :
    packageName moduleName = if bareStem moduleName = "" then "main" else bareStem moduleName := by
  have hname : packageName moduleName =
      if (trimUnderscores ((goName (.ofList (stemChars moduleName))).toList.map
        Char.toLower)).isEmpty then "main"
      else .ofList (trimUnderscores ((goName (.ofList (stemChars moduleName))).toList.map
        Char.toLower)) := rfl
  rw [hname, trimUnderscores_goName, bareStem]
  simp

theorem isIdentChar_of_mem_bareStem {moduleName : String} {c : Char}
    (h : c ∈ (bareStem moduleName).toList) : isIdentChar c = true := by
  rw [bareStem, String.toList_ofList] at h
  obtain ⟨d, hd, rfl⟩ := List.mem_map.1 (mem_of_mem_trimUnderscores h)
  exact isIdentChar_toLower (isIdentChar_of_mem_identChars _ d hd)

/-- A word of ASCII is an identifier unless it begins with a digit or is a keyword. -/
theorem isIdent_iff_of_isIdentChar (α : Alphabet) {name : String} (hne : name ≠ "")
    (h : ∀ c ∈ name.toList, isIdentChar c = true) :
    α.isIdent name = true ↔
      (∀ c ∈ name.toList.head?, c.isDigit = false) ∧ goKeywords.contains name = false := by
  obtain ⟨c, cs, hname⟩ := List.exists_cons_of_ne_nil (mt String.toList_eq_nil_iff.1 hne)
  rw [hname] at h
  obtain ⟨hc, hcs⟩ := List.forall_mem_cons.1 h
  have hword : cs.all α.isWordChar = true :=
    List.all_eq_true.2 fun d hd => isWordChar_of_isIdentChar (hcs d hd)
  have hletter : α.isLetter c = true ↔ c.isDigit = false := by
    constructor
    · intro hl
      by_contra hd
      rw [isLetter_of_isDigit (by simpa using hd)] at hl
      cases hl
    · intro hd
      exact (isLetter_or_isDigit_of_isIdentChar hc).resolve_right (by simp [hd])
  simp [isIdent, hname, hword, hletter]

/-- **A package has an identifier for a name exactly if what is left of its module's name is one.**
Whatever the module is called, the name of its package is not empty and not blank, and is made of
letters, digits and underscores of ASCII. It is an identifier, and no keyword, unless the name of
the module without the underscores around it begins with a digit or is a keyword in lower case. -/
theorem packageName_isIdent_iff (α : Alphabet) (moduleName : String) :
    (packageName moduleName ≠ "" ∧ packageName moduleName ≠ "_" ∧
        ∀ c ∈ (packageName moduleName).toList, isIdentChar c = true) ∧
      (α.isIdent (packageName moduleName) = true ↔
        (∀ c ∈ (bareStem moduleName).toList.head?, c.isDigit = false) ∧
          goKeywords.contains (bareStem moduleName) = false) := by
  rw [packageName_eq]
  split
  · next hbare =>
    rw [hbare]
    have hmain : "main".toList.all isIdentChar = true := by
      decide
    exact ⟨⟨by decide, by decide, List.all_eq_true.1 hmain⟩, iff_of_true rfl ⟨nofun, by decide⟩⟩
  · next hbare =>
    have hchars : ∀ c ∈ (bareStem moduleName).toList, isIdentChar c = true :=
      fun c hc => isIdentChar_of_mem_bareStem hc
    refine ⟨⟨hbare, fun hblank => ?_, hchars⟩, isIdent_iff_of_isIdentChar α hbare hchars⟩
    have hlist := congrArg String.toList hblank
    rw [bareStem, String.toList_ofList] at hlist
    exact trimUnderscores_ne _ hlist

/-- A leading digit is not escaped any more behind the trimming. -/
example : packageName "bench/2mm.ll" = "2mm" := by decide +kernel

end GoLift
