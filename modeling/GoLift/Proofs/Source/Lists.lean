import GoLift.Proofs.Source.Reads

/-!
# Reading lists

Lists are read with fuel, an item after each comma. `listOf` and `dottedListOf` stand for all the
parsers of that form, whatever their items are, and find the lists of the grammar if the parser of
the items finds the items (`listOf_reads`, `dottedListOf_reads`). `Reads.closedList` is about lists
that may be empty and that a word ends.
-/

set_option autoImplicit false

namespace GoLift.Source

open Parse

variable {D α : Type} {a : Rhs} {ts mid : List Token}
variable {yield : D → List Token} {tree : D → α} {stops : List Token → Prop}

/-! ### Fuel -/

/-- A parser with fuel has enough of it for some tokens. -/
def Fueled (margin : Nat) (yield : D → List Token) (tree : D → α) (stops : List Token → Prop)
    (p : Nat → Parse α) (ts : List Token) : Prop :=
  ∀ fuel, 4 * ts.length + margin ≤ fuel → Reads yield tree stops (p fuel) ts

/-- The fuel that parsers run with is enough. -/
theorem Fueled.reads {margin : Nat} {p : Nat → Parse α} (hp : Fueled margin yield tree stops p ts)
    (hmargin : margin ≤ 8) : Reads yield tree stops (fueled p) ts := by
  have h : fueled p ts = p (fuelFor ts) ts := rfl
  exact .congr h (hp (fuelFor ts) (by simp only [fuelFor]; omega))

/-! ### Items -/

/-- Items after commas. -/
def listOf (p : Nat → Parse α) : Nat → Parse (List α)
  | 0 => fail
  | fuel + 1 => do
    if ← sees .comma then
      word .comma
      let x ← p fuel
      return x :: (← listOf p fuel)
    else return []

/-- Items after commas, and whether dots end them. -/
def dottedListOf (p : Nat → Parse α) : Nat → Parse (List α × Bool)
  | 0 => fail
  | fuel + 1 => do
    if ← sees .comma then
      word .comma
      if ← sees .dots then
        word .dots
        return ([], true)
      else
        let x ← p fuel
        let (xs, dots) ← dottedListOf p fuel
        return (x :: xs, dots)
    else return ([], false)

theorem listOf_reads {ks : List Terminal} {margin n : Nat} {p : Nat → Parse a.Tree}
    (hmargin : margin ≤ 4) (hn : a.nullable = false) (hks : .word .comma ∉ ks)
    (hp : ∀ mid, mid.length < n →
      Fueled margin Derivation.yield (Derivation.tree (e := a)) (Avoids ks) p mid) :
    ∀ ts, ts.length ≤ n → Fueled 1 Derivation.yield
      (fun d : Derivation (.more a) => List.map Prod.snd d.tree) (Avoids (.word .comma :: ks))
      (listOf p) ts := by
  intro ts hts fuel
  induction fuel generalizing ts with
  | zero => omega
  | succ fuel ih =>
    intro hfuel
    simp only [listOf, word_bind]
    refine .if_sees (fun h => ?_) fun h => ?_
    · refine .star_cons (not_avoids_of_next h (by simp)) (.assoc ?_)
      refine .token_seq fun t mid ht hmid => ?_
      refine .seq (hp mid (by omega) fuel (by omega)) (fun d mid' hmid' => ?_) ?_
      · have := d.length_lt hn hmid'
        exact (ih mid' (by omega) (by omega)).map fun ds => rfl
      · intro ds rest hrest
        refine ds.avoids_append ?_ fun _ => hrest.mono (by simp)
        simpa [Rhs.more, Rhs.first, Rhs.nullable] using hks
    · refine .star_nil (avoids_of_ne ?_) rfl rfl
      simpa [Rhs.first, Rhs.nullable] using h

/-- Items with commas between them, or none, up to and with a closing word. -/
theorem Reads.closedList [Ends stops] (a : Rhs) {ks : List Terminal} {close : Word}
    {x : Parse a.Tree} {xs : Parse (List a.Tree)} (build : List a.Tree → α)
    {g : Derivation (.seq (.opt (.commas a)) (.word close)) → α} (hn : a.nullable = false)
    (hclose : .word close ∉ .word .comma :: a.first ++ ks) (hks : .word .comma ∉ ks)
    (hx : Reads Derivation.yield (Derivation.tree (e := a)) (Avoids ks) x ts)
    (hxs : ∀ mid, mid.length < ts.length → Reads Derivation.yield
      (fun d : Derivation (.more a) => List.map Prod.snd d.tree) (Avoids (.word .comma :: ks))
      xs mid)
    (hnone : ∀ e, g (.seq .none e) = build [])
    (hsome : ∀ d e, g (.seq (.some d) e) = build (listed d.tree)) :
    Reads Derivation.yield g stops
      (do
        if ← sees close then
          let _ ← Parse.token (.word close)
          return build []
        else
          let y ← x
          let ys ← xs
          let _ ← Parse.token (.word close)
          return build (y :: ys)) ts := by
  simp only [List.cons_append, List.mem_cons, List.mem_append, not_or, Terminal.word.injEq]
    at hclose
  refine .if_sees (fun h => ?_) fun h => ?_
  · refine .opt_skip (avoids_of_next h ?_) (by simp [Rhs.commas, Rhs.nullable, hn])
      (.token_last fun _ _ _ => hnone _)
    simpa [Rhs.commas, Rhs.first, hn] using hclose.2.1
  · refine .opt_take (avoids_of_ne (by simpa [Rhs.first] using h)) rfl (.assoc ?_)
    refine .seq hx (fun d mid hmid => ?_) fun e rest _ => ?_
    · refine .seq (hxs mid (d.length_lt hn hmid)) (fun ds mid' _ => ?_) fun e rest _ => ?_
      · exact .token_last fun t ht _ => hsome (.seq d ds) (.token t ht)
      · exact e.avoids (by simpa [Rhs.first] using ⟨hclose.1, hclose.2.2⟩) rfl
    · refine e.avoids ?_ (by simp [Rhs.nullable])
      simp only [Rhs.more, Rhs.first, Rhs.nullable]
      simpa using ⟨hks, hclose.2.2⟩

/-- The token after a comma tells whether the list goes on. -/
def Derivation.afterComma :
    Derivation (.seq (.word .comma) (.alt (.word .dots) (.seq a (.moreOrDots a)))) →
      Derivation (.moreOrDots a)
  | .seq t (.left d) => .seq .nil (.some (.seq t d))
  | .seq t (.right (.seq x (.seq xs d))) => .seq (.cons (.seq t x) xs) d

theorem Derivation.yield_afterComma
    (d : Derivation (.seq (.word .comma) (.alt (.word .dots) (.seq a (.moreOrDots a))))) :
    d.afterComma.yield = d.yield := by
  match d with
  | .seq t (.left d) => rfl
  | .seq t (.right (.seq x (.seq xs d))) =>
    show t.yield ++ x.yield ++ xs.yield ++ d.yield = _
    simp [yield]

theorem Derivation.exists_afterComma (d : Derivation (.moreOrDots a)) {rest : List Token}
    (hts : ts = d.yield ++ rest) (hcomma : next ts = Option.some (.word .comma))
    (hrest : Avoids [.word .comma] rest) : ∃ d', afterComma d' = d := by
  match d with
  | .seq .nil .none => exact absurd (hts ▸ hcomma) fun h => hrest _ h (by simp)
  | .seq .nil (.some (.seq t d)) => exact ⟨.seq t (.left d), rfl⟩
  | .seq (.cons (.seq t x) xs) d => exact ⟨.seq t (.right (.seq x (.seq xs d))), rfl⟩

theorem dottedListOf_reads {ks : List Terminal} {margin n : Nat} {p : Nat → Parse a.Tree}
    (hmargin : margin ≤ 4) (hn : a.nullable = false) (hks : .word .comma ∉ ks)
    (hdots : .word .dots ∉ a.first)
    (hp : ∀ mid, mid.length < n →
      Fueled margin Derivation.yield (Derivation.tree (e := a)) (Avoids ks) p mid) :
    ∀ ts, ts.length ≤ n → Fueled 1 Derivation.yield
      (fun d : Derivation (.moreOrDots a) => (List.map Prod.snd d.tree.1, d.tree.2.isSome))
      (Avoids (.word .comma :: ks)) (dottedListOf p) ts := by
  intro ts hts fuel
  induction fuel generalizing ts with
  | zero => omega
  | succ fuel ih =>
    intro hfuel
    simp only [dottedListOf, word_bind]
    refine .if_sees (fun h => ?_) fun h => ?_
    · refine .of_form Derivation.afterComma Derivation.yield_afterComma
        (fun us hus d rest hd hrest =>
          d.exists_afterComma hd (hus.trans h) (hrest.mono (by simp))) ?_
      refine .token_seq fun t mid ht hmid => .if_sees (fun h => ?_) fun h => ?_
      · refine .alt_left (avoids_of_next h ?_) (by simp [Rhs.nullable, hn])
          (.token_last fun _ _ _ => rfl)
        simpa [Rhs.first, hn] using hdots
      · refine .alt_right (avoids_of_ne (by simpa [Rhs.first] using h)) rfl ?_
        refine .seq (hp mid (by omega) fuel (by omega)) (fun d mid' hmid' => ?_) ?_
        · have := d.length_lt hn hmid'
          refine (ih mid' (by omega) (by omega)).map fun ds => ?_
          cases ds with
          | seq xs d => rfl
        · intro ds rest hrest
          refine ds.avoids_append ?_ fun _ => hrest.mono (by simp)
          simpa [Rhs.moreOrDots, Rhs.more, Rhs.first, Rhs.nullable] using hks
    · have hcomma : Avoids [.word .comma] ts := avoids_of_ne (by simpa using h)
      refine .star_skip (hcomma.mono (by simp [Rhs.first, Rhs.nullable])) rfl ?_
      exact .opt_none (hcomma.mono (by simp [Rhs.first, Rhs.nullable])) rfl rfl

end GoLift.Source
