import GoLift.Table

/-!
# Identifiers

Names of the source may hold dots, dashes, dollar signs and leading digits, or
be any quoted text; Go identifiers may not, and twenty-five words are taken.
`goName` maps each name to an identifier on its own, so two names can meet;
`NameTable` keeps the bindings of one function apart and hands out temporaries
that no binding uses.

**Both searches are for the first free member of an infinite family.** With `n`
names in use, one of the first `n + 1` members is free, which bounds the
search.
-/

set_option autoImplicit false

namespace GoLift

/-- The keywords of Go. -/
def goKeywords : List String :=
  ["break", "case", "chan", "const", "continue", "default", "defer", "else", "fallthrough",
    "for", "func", "go", "goto", "if", "import", "interface", "map", "package", "range",
    "return", "select", "struct", "switch", "type", "var"]

/-- Is `c` an ASCII letter or digit, or the underscore? -/
def isIdentChar (c : Char) : Bool :=
  c.isAlphanum || c == '_'

/-- The characters of an identifier, before digits and keywords are looked at. -/
def identChars (raw : String) : List Char :=
  raw.toList.map (fun c => if isIdentChar c then c else '_')

/-- The Go identifier of a name: any other character than an ASCII letter, digit
or underscore becomes an underscore, a leading digit gets an underscore before
it, and a keyword one after it. -/
def goName (raw : String) : String :=
  match identChars raw with
  | [] => "_"
  | c :: cs =>
    let name := String.ofList (if c.isDigit then '_' :: c :: cs else c :: cs)
    if goKeywords.contains name then name ++ "_" else name

/-- The package of a module: what stands in its name after the last slash and
before the first dot, as an identifier in lower case without underscores around
it. -/
def packageName (moduleName : String) : String :=
  let file := (moduleName.toList.reverse.takeWhile (· != '/')).reverse
  let stem := file.takeWhile (· != '.')
  let lower := (goName (String.ofList stem)).toList.map Char.toLower
  let bare := ((lower.dropWhile (· == '_')).reverse.dropWhile (· == '_')).reverse
  if bare.isEmpty then "main" else String.ofList bare

/-! ### Names in use -/

/-- The least `k` from `start` on, within `fuel` steps, whose candidate is not
in use. -/
def firstFree (used : List String) (candidate : Nat → String) (start : Nat) : Nat → Nat
  | 0 => start
  | fuel + 1 =>
    if used.contains (candidate start) then firstFree used candidate (start + 1) fuel
    else start

/-- A candidate before the one that is found is in use. -/
theorem mem_of_lt_firstFree {used : List String} {candidate : Nat → String} {fuel : Nat} :
    ∀ {start k : Nat}, start ≤ k → k < firstFree used candidate start fuel → candidate k ∈ used := by
  induction fuel with
  | zero => intro start k h₁ h₂; simp only [firstFree] at h₂; omega
  | succ fuel ih =>
    intro start k h₁ h₂
    rw [firstFree] at h₂
    split at h₂
    · next hs =>
      by_cases h : k = start
      · simpa [h] using hs
      · exact ih (by omega) h₂
    · omega

/-- The search stops at a candidate in use only when it has gone as far as it
may. -/
theorem firstFree_eq_of_mem {used : List String} {candidate : Nat → String} {fuel : Nat} :
    ∀ {start : Nat}, candidate (firstFree used candidate start fuel) ∈ used →
      firstFree used candidate start fuel = start + fuel := by
  induction fuel with
  | zero => intro start _; rfl
  | succ fuel ih =>
    intro start h
    rw [firstFree] at h ⊢
    split at h
    · next hs => rw [if_pos hs, ih h]; omega
    · next hs => exact absurd (by simpa using h) hs

/-- The identifiers of one function. -/
structure NameTable where
  /-- The identifier of each binding met so far. -/
  locals : Table String := {}
  /-- Every identifier that is taken. -/
  used : List String := []
  /-- The number of the next temporary. -/
  counter : Nat := 0

namespace NameTable

/-- A table in which some identifiers are taken from the start. -/
def reserving (names : List String) : NameTable := { used := names }

/-- The `k`-th identifier for a binding: the mapped name itself, then with a
number after it. -/
def variant (base : String) : Nat → String
  | 0 => base
  | k + 1 => base ++ "_" ++ toString (k + 1)

/-- The identifier of a binding, the same whenever it is asked for. -/
def local? (t : NameTable) (raw : String) : Option String :=
  t.locals.get? raw

/-- A free identifier for a binding that has none yet. -/
def pick (t : NameTable) (raw : String) : String :=
  variant (goName raw) (firstFree t.used (variant (goName raw)) 0 t.used.length)

/-- The identifier of a binding, and the table that remembers it. -/
def bind (t : NameTable) (raw : String) : String × NameTable :=
  match t.local? raw with
  | some name => (name, t)
  | none =>
    let name := t.pick raw
    (name, { t with locals := t.locals.put raw name, used := name :: t.used })

/-- The `k`-th temporary of a hint. -/
def temporary (hint : String) (k : Nat) : String :=
  hint ++ toString k

/-- A temporary that nothing uses. Numbers are never given out twice, whatever
the hint. -/
def fresh (t : NameTable) (hint : String) : String × NameTable :=
  let k := firstFree t.used (temporary hint) t.counter t.used.length
  let name := temporary hint k
  (name, { t with used := name :: t.used, counter := k + 1 })

end NameTable

end GoLift
