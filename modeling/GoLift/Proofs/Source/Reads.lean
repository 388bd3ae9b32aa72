import GoLift.Source.Parser
import GoLift.Proofs.Source.Samples

/-!
# Parsers that follow a grammar

`Reads yield tree stops p ts` ties a parser to what there is to be found at the beginning of the
tokens `ts`: whatever it finds is there, whatever is there is what it finds, and there are no two
such things. The last two hold only where what stands behind does not go on with what was found,
which is `stops`.

It also says where the parser leaves off. Where it fails, the tokens before are the beginning of
something, and where it leaves off, found or failed, nothing goes on with the token that is next.
What goes on with another token than `ts` does is not at the beginning of `ts`, so the lemmas about
forms speak of all tokens with the same next one (`next_append_cons`).

Each way to build a parser has a lemma here which follows the grammar: a part after a part
(`Reads.seq`), an alternative of a rule that the next token decides (`Reads.rule`), a part that may
be missing or repeated. A caller walks through the text of a parser with these, and is left with
the equations between trees, which hold by `rfl`.
-/

set_option autoImplicit false

namespace GoLift.Source

open Parse

variable {D D' A B α β : Type} {a b e : Rhs} {r : Rule} {k : Terminal} {w : Word}
variable {yield : D → List Token} {tree : D → α} {stops stops' : List Token → Prop}
variable {p p' : Parse α} {ts mid : List Token}

/-! ### The next token -/

/-- What the next token is. -/
def next (ts : List Token) : Option Terminal := ts.head?.map Token.terminal

/-- The line of the next token. -/
def nextLine (ts : List Token) : Nat := (ts.head?.map (·.position.line)).getD 0

/-- The next token, if there is one, is none of these. -/
def Avoids (ks : List Terminal) (ts : List Token) : Prop := ∀ k, next ts = some k → k ∉ ks

theorem avoids_nil : Avoids [] ts := by simp [Avoids]

theorem Avoids.mono {ks ls : List Terminal} (h : Avoids ls ts) (hks : ks ⊆ ls) : Avoids ks ts :=
  fun k hk hmem => h k hk (hks hmem)

theorem avoids_of_ne {ks : List Terminal} (h : ∀ k ∈ ks, next ts ≠ some k) : Avoids ks ts :=
  fun k hk hmem => h k hmem hk

theorem avoids_of_next {ks : List Terminal} (h : next ts = some k) (hk : k ∉ ks) :
    Avoids ks ts := by
  intro l hl
  rw [h] at hl
  cases hl
  exact hk

theorem not_avoids_of_next {ks : List Terminal} (h : next ts = some k) (hk : k ∈ ks) :
    ¬ Avoids ks ts :=
  fun hts => hts k h hk

/-- Only the next token counts. -/
theorem Avoids.of_next_eq {ks : List Terminal} {us : List Token} (h : Avoids ks ts)
    (hus : next us = next ts) : Avoids ks us :=
  fun k hk => h k (hus ▸ hk)

/-- Whatever follows a token, it comes next, or what stands before it does. -/
theorem next_append_cons (used : List Token) (t : Token) (more rest : List Token) :
    next (used ++ t :: more) = next (used ++ t :: rest) := by
  cases used <;> rfl

/-- What may stand behind is told by the next token, and something may. -/
class Ends (stops : List Token → Prop) : Prop where
  of_next_eq : ∀ {ts us : List Token}, next us = next ts → stops ts → stops us
  exists_end : ∃ ts, stops ts

/-- Behind a token anything may stand. -/
theorem Ends.exchange {stops : List Token → Prop} [Ends stops] {used more rest : List Token}
    {t : Token} (h : stops (used ++ t :: more)) : stops (used ++ t :: rest) :=
  of_next_eq (next_append_cons used t rest more) h

instance (ks : List Terminal) : Ends (Avoids ks) where
  of_next_eq hus h := h.of_next_eq hus
  exists_end := ⟨[], fun k hk => by cases hk⟩

instance : Ends fun ts => ts = [] where
  of_next_eq {_ us} hus h := by
    subst h
    cases us with
    | nil => rfl
    | cons u us => cases hus
  exists_end := ⟨[], rfl⟩

instance (k : Terminal) : Ends fun ts => next ts = some k where
  of_next_eq hus h := hus.trans h
  exists_end := ⟨[⟨k, [], {}⟩], rfl⟩

instance : Ends fun _ => True where
  of_next_eq _ h := h
  exists_end := ⟨[], trivial⟩

namespace Derivation

/-- The first of two parts. -/
def fst : Derivation (.seq a b) → Derivation a
  | .seq d _ => d

/-- The second of two parts. -/
def snd : Derivation (.seq a b) → Derivation b
  | .seq _ e => e

/-- Tokens that begin with something derived begin with one of its first tokens. -/
theorem next_mem_first (d : Derivation e) (hn : e.nullable = false) {rest : List Token}
    (hts : ts = d.yield ++ rest) : ∃ k ∈ e.first, next ts = Option.some k := by
  obtain ⟨-, h⟩ | ⟨t, us, hd, ht⟩ := d.starts
  · simp [hn] at h
  · exact ⟨t.terminal, ht, by simp [hts, hd, next]⟩

theorem not_avoids (d : Derivation e) (hn : e.nullable = false) {rest : List Token}
    (hts : ts = d.yield ++ rest) : ¬ Avoids e.first ts := by
  obtain ⟨k, hk, hnext⟩ := d.next_mem_first hn hts
  exact fun h => h k hnext hk

/-- Something derived from a right side that needs a token leaves fewer of them. -/
theorem length_lt (d : Derivation e) (hn : e.nullable = false) (hts : ts = d.yield ++ mid) :
    mid.length < ts.length := by
  obtain ⟨-, h⟩ | ⟨t, us, hd, -⟩ := d.starts
  · simp [hn] at h
  · simp only [hts, hd, List.length_append, List.length_cons]
    omega

/-- Where no other alternative of a rule can start, a derivation is by the one that is left. -/
theorem exists_alternative (d : Derivation (.rule r)) (i : Fin r.alternatives.length)
    (only : ∀ j : Fin r.alternatives.length, j ≠ i → Avoids (r.alternatives.get j).rhs.first ts)
    (hn : r.nullable = false) {rest : List Token} (hts : ts = d.yield ++ rest) :
    ∃ d', rule i d' = d := by
  cases d with
  | rule j d =>
    have hd : (r.alternatives.get j).rhs.nullable = false := by
      have := (r.first_closed j).2
      simp_all
    by_cases hj : j = i
    · subst hj
      exact ⟨d, rfl⟩
    · exact absurd (only j hj) (d.not_avoids hd hts)

/-- What is derived avoids what it cannot start with, and if it is nothing, so does what follows. -/
theorem avoids_append {ks : List Terminal} (d : Derivation e) {rest : List Token}
    (hfirst : ∀ k ∈ e.first, k ∉ ks) (hrest : e.nullable → Avoids ks rest) :
    Avoids ks (d.yield ++ rest) := by
  obtain ⟨hd, hn⟩ | ⟨t, us, hd, ht⟩ := d.starts
  · simpa [hd] using hrest hn
  · exact avoids_of_next (k := t.terminal) (by simp [hd, next]) (hfirst _ ht)

theorem avoids {ks : List Terminal} (d : Derivation e) {rest : List Token}
    (hfirst : ∀ k ∈ e.first, k ∉ ks) (hn : e.nullable = false) : Avoids ks (d.yield ++ rest) :=
  d.avoids_append hfirst fun h => by simp [hn] at h

end Derivation

/-! ### Following a grammar -/

/-- A member of a row of two parts is in the second, or the first goes on with it. -/
theorem append_cons_cases {xs ys us vs : List α} {x : α} (h : xs ++ ys = us ++ x :: vs) :
    (∃ ws, us = xs ++ ws ∧ ys = ws ++ x :: vs) ∨ ∃ ws, xs = us ++ x :: ws := by
  obtain hus | ⟨ws, hxs, hws⟩ := List.append_eq_append_iff.1 h
  · exact .inl hus
  · cases ws with
    | nil => exact .inl ⟨[], by simp [hxs], by simpa using hws.symm⟩
    | cons w ws => exact .inr ⟨ws, by rw [hxs, (List.cons.inj hws).1]⟩

/-- A parser leaves off before some tokens. -/
def Leaves (p : Parse α) (ts rest : List Token) : Prop :=
  p ts = .error rest ∨ ∃ x, p ts = .ok (x, rest)

/-- A parser finds at the beginning of some tokens what there is. -/
structure Reads (yield : D → List Token) (tree : D → α) (stops : List Token → Prop) (p : Parse α)
    (ts : List Token) : Prop where
  sound : ∀ x rest, p ts = .ok (x, rest) → ∃ d, ts = yield d ++ rest ∧ tree d = x
  complete : ∀ d rest, ts = yield d ++ rest → stops rest → p ts = .ok (tree d, rest)
  unique : ∀ d d' rest rest', ts = yield d ++ rest → stops rest → ts = yield d' ++ rest' →
    stops rest' → d = d'
  /-- What is taken before a failure begins something. -/
  viable : ∀ rest, p ts = .error rest → ∃ used d more, ts = used ++ rest ∧
    yield d = used ++ more ∧ ∀ t ∈ more, t.Spelled
  /-- Nothing goes on with the token that is left. -/
  stuck : ∀ t rest, Leaves p ts (t :: rest) → ∀ used, ts = used ++ t :: rest →
    ∀ d more, yield d ≠ used ++ t :: more

namespace Reads

theorem congr (h : p ts = p' ts) (hp : Reads yield tree stops p' ts) :
    Reads yield tree stops p ts where
  sound x rest := h ▸ hp.sound x rest
  complete d rest := h ▸ hp.complete d rest
  unique := hp.unique
  viable rest := h ▸ hp.viable rest
  stuck t rest hleaves := hp.stuck t rest (by simpa only [Leaves, h] using hleaves)

/-- Where fewer things may follow, the parser still finds what there is. -/
theorem mono (hp : Reads yield tree stops p ts) (h : ∀ rest, stops' rest → stops rest) :
    Reads yield tree stops' p ts where
  sound := hp.sound
  complete d rest hts hs := hp.complete d rest hts (h rest hs)
  unique d d' rest rest' hts hs hts' hs' := hp.unique d d' rest rest' hts (h _ hs) hts' (h _ hs')
  viable := hp.viable
  stuck := hp.stuck

/-- What a parser leaves is the end of its tokens. -/
theorem exists_used (hp : Reads yield tree stops p ts) {rest : List Token}
    (h : Leaves p ts rest) : ∃ used, ts = used ++ rest := by
  obtain h | ⟨x, h⟩ := h
  · obtain ⟨used, -, -, hts, -⟩ := hp.viable rest h
    exact ⟨used, hts⟩
  · obtain ⟨d, hts, -⟩ := hp.sound x rest h
    exact ⟨yield d, hts⟩

/-- Nothing goes on with what is left, up to whichever token. -/
theorem stuck_later (hp : Reads yield tree stops p ts) {used later rest : List Token} {t : Token}
    (h : Leaves p ts (later ++ t :: rest)) (hts : ts = used ++ (later ++ t :: rest)) (d : D)
    (more : List Token) : yield d ≠ used ++ (later ++ t :: more) := by
  cases later with
  | nil => exact hp.stuck t rest h used hts d more
  | cons u later => exact hp.stuck u (later ++ t :: rest) h used hts d (later ++ t :: more)

variable [Ends stops] [Ends stops']

/-- What goes on with the token that is next when a parser leaves off starts like its tokens, and
can stand before something that stops it. -/
theorem exists_behind (stops : List Token → Prop) [Ends stops] {used rest more : List Token}
    {t : Token} {d : D} (hts : ts = used ++ t :: rest) (hd : yield d = used ++ t :: more) :
    ∃ behind, stops behind ∧ next (yield d ++ behind) = next ts := by
  obtain ⟨behind, hbehind⟩ : ∃ behind, stops behind := Ends.exists_end
  refine ⟨behind, hbehind, ?_⟩
  rw [hd, hts, List.append_assoc, List.cons_append]
  exact next_append_cons used t _ rest

/-- What there is can only be of the form that `c` builds. -/
theorem of_form {yield' : D' → List Token} (c : D' → D) (hc : ∀ d, yield (c d) = yield' d)
    (hall : ∀ us, next us = next ts → ∀ d rest, us = yield d ++ rest → stops rest →
      ∃ d', c d' = d)
    (hp : Reads yield' (fun d => tree (c d)) stops p ts) : Reads yield tree stops p ts where
  sound x rest h := by
    obtain ⟨d, hts, hx⟩ := hp.sound x rest h
    exact ⟨c d, by rw [hc, hts], hx⟩
  complete d rest hts hs := by
    obtain ⟨d, rfl⟩ := hall ts rfl d rest hts hs
    exact hp.complete d rest (by rw [hts, hc]) hs
  unique d d' rest rest' hts hs hts' hs' := by
    obtain ⟨d, rfl⟩ := hall ts rfl d rest hts hs
    obtain ⟨d', rfl⟩ := hall ts rfl d' rest' hts' hs'
    exact congrArg c (hp.unique d d' rest rest' (by rw [hts, hc]) hs (by rw [hts', hc]) hs')
  viable rest h := by
    obtain ⟨used, d, more, hts, hd, hmore⟩ := hp.viable rest h
    exact ⟨used, c d, more, hts, by rw [hc, hd], hmore⟩
  stuck t rest h used hts d more hd := by
    obtain ⟨behind, hbehind, hnext⟩ := exists_behind stops hts hd
    obtain ⟨d, rfl⟩ := hall _ hnext d behind rfl hbehind
    exact hp.stuck t rest h used hts d more (by rw [← hc, hd])

/-- There is nothing here, and the parser fails. -/
theorem of_none [Sampled yield]
    (hall : ∀ us, next us = next ts → ∀ d rest, us = yield d ++ rest → ¬ stops rest)
    (hp : p ts = .error ts) : Reads yield tree stops p ts where
  sound _ _ h := by simp [hp] at h
  complete d rest hts hs := absurd hs (hall ts rfl d rest hts)
  unique d _ rest _ hts hs := absurd hs (hall ts rfl d rest hts)
  viable rest h := by
    obtain ⟨d, hd⟩ : ∃ d, ∀ t ∈ yield d, t.Spelled := Sampled.exists_spelled
    rw [hp] at h
    cases h
    exact ⟨[], d, yield d, rfl, rfl, hd⟩
  stuck t rest h used hts d more hd := by
    obtain ⟨behind, hbehind, hnext⟩ := exists_behind stops hts hd
    exact hall _ hnext d behind rfl hbehind

/-- What is here takes no token. -/
theorem of_empty (d : D) (hd : yield d = [])
    (hall : ∀ us, next us = next ts → ∀ d' rest, us = yield d' ++ rest → stops rest → d' = d)
    (hp : p ts = .ok (tree d, ts)) : Reads yield tree stops p ts where
  sound x rest h := by
    rw [hp] at h
    cases h
    exact ⟨d, by simp [hd], rfl⟩
  complete d' rest hts hs := by
    obtain rfl := hall ts rfl d' rest hts hs
    rw [hp, hts, hd, List.nil_append]
  unique d₁ d₂ rest₁ rest₂ h₁ hs₁ h₂ hs₂ := by
    rw [hall ts rfl d₁ rest₁ h₁ hs₁, hall ts rfl d₂ rest₂ h₂ hs₂]
  viable rest h := by simp [hp] at h
  stuck t rest h used hts d' more hd' := by
    obtain ⟨behind, hbehind, hnext⟩ := exists_behind stops hts hd'
    obtain rfl := hall _ hnext d' behind rfl hbehind
    simp [hd] at hd'

end Reads

/-! ### Running parsers -/

theorem run_bind {q : α → Parse β} :
    (p >>= q) ts = p ts >>= fun y => q y.1 y.2 := rfl

theorem bind_eq_ok {q : α → Parse β} {x : β × List Token} :
    (p >>= q) ts = .ok x ↔ ∃ y mid, p ts = .ok (y, mid) ∧ q y mid = .ok x := by
  rw [run_bind]
  cases h : p ts with
  | error _ => simp [bind, Except.bind]
  | ok y =>
    obtain ⟨y, mid⟩ := y
    simp only [bind, Except.bind, Except.ok.injEq, Prod.mk.injEq]
    constructor
    · intro h
      exact ⟨y, mid, ⟨rfl, rfl⟩, h⟩
    · rintro ⟨_, _, ⟨rfl, rfl⟩, h⟩
      exact h

theorem leaves_bind {q : α → Parse β} {rest : List Token} :
    Leaves (p >>= q) ts rest ↔
      p ts = .error rest ∨ ∃ y mid, p ts = .ok (y, mid) ∧ Leaves (q y) mid rest := by
  rw [Leaves, run_bind]
  cases hp : p ts with
  | error us => simp [bind, Except.bind]
  | ok y =>
    obtain ⟨y, mid⟩ := y
    simp [bind, Except.bind, Leaves, and_assoc]

theorem bind_eq_error {q : α → Parse β} {rest : List Token} :
    (p >>= q) ts = .error rest ↔
      p ts = .error rest ∨ ∃ y mid, p ts = .ok (y, mid) ∧ q y mid = .error rest := by
  rw [run_bind]
  cases hp : p ts with
  | error us => simp [bind, Except.bind]
  | ok y =>
    obtain ⟨y, mid⟩ := y
    simp [bind, Except.bind, and_assoc]

theorem peek_bind {q : Option Terminal → Parse β} : (peek >>= q) ts = q (next ts) ts := rfl

theorem line_bind {q : Nat → Parse β} : (line >>= q) ts = q (nextLine ts) ts := rfl

theorem sees_bind {q : Bool → Parse β} :
    (sees w >>= q) ts = q (next ts == some (.word w)) ts := rfl

/-- A word is a token whose tree is not used. -/
theorem word_bind {q : Unit → Parse β} : (word w >>= q) = token (.word w) >>= fun _ => q () := by
  simp [word]

theorem name_bind {q : String → Parse β} : (name k >>= q) = token k >>= fun t => q t.name := by
  simp [name]

theorem text_bind {q : String → Parse β} :
    (text k >>= q) = token k >>= fun t => q t.spelling := by
  simp [text, Token.spelling]

theorem token_eq_error {rest : List Token} :
    token k ts = .error rest ↔ rest = ts ∧ next ts ≠ some k := by
  cases ts with
  | nil => simp [token, next, eq_comm]
  | cons u us =>
    by_cases h : u.terminal = k
    · simp [token, next, h]
    · simp only [token, h, if_false, Except.error.injEq, next, List.head?_cons, Option.map_some,
        ne_eq, Option.some.injEq, not_false_eq_true, and_true]
      exact eq_comm

theorem token_eq_ok {x : Token × List Token} :
    token k ts = .ok x ↔ x.1.terminal = k ∧ ts = x.1 :: x.2 := by
  obtain ⟨t, rest⟩ := x
  cases ts with
  | nil => simp [token]
  | cons u us =>
    by_cases h : u.terminal = k
    · simp only [token, h, if_true, Except.ok.injEq, Prod.mk.injEq, List.cons.injEq]
      constructor
      · rintro ⟨rfl, rfl⟩
        exact ⟨h, rfl, rfl⟩
      · rintro ⟨-, rfl, rfl⟩
        exact ⟨rfl, rfl⟩
    · simp only [token, h, if_false, reduceCtorEq, List.cons.injEq, false_iff, not_and]
      rintro rfl rfl
      exact absurd rfl h

namespace Reads

/-! ### Looking ahead -/

theorem peek_seq {q : Option Terminal → Parse α} (h : Reads yield tree stops (q (next ts)) ts) :
    Reads yield tree stops (peek >>= q) ts :=
  h.congr peek_bind

theorem line_seq {q : Nat → Parse α} (h : Reads yield tree stops (q (nextLine ts)) ts) :
    Reads yield tree stops (line >>= q) ts :=
  h.congr line_bind

theorem if_sees {q : Parse α} (hp : next ts = some (.word w) → Reads yield tree stops p ts)
    (hq : next ts ≠ some (.word w) → Reads yield tree stops q ts) :
    Reads yield tree stops (sees w >>= fun seen => if seen = true then p else q) ts := by
  refine congr sees_bind ?_
  by_cases h : next ts = some (.word w)
  · simpa [h] using hp h
  · simpa [h] using hq h

/-! ### Tokens and trees -/

theorem token : Reads Derivation.yield (fun d : Derivation (.token k) => d.tree) stops
    (Parse.token k) ts where
  sound t rest h := by
    obtain ⟨ht, hts⟩ := token_eq_ok.1 h
    exact ⟨.token t ht, hts, rfl⟩
  complete d rest hts _ := by
    cases d with
    | token t ht => exact token_eq_ok.2 ⟨ht, hts⟩
  unique d d' rest rest' hts _ hts' _ := by
    cases d with
    | token t ht =>
      cases d' with
      | token t' ht' =>
        obtain ⟨rfl, -⟩ := List.cons.inj (hts.symm.trans hts')
        rfl
  viable rest h := by
    obtain ⟨rfl, -⟩ := token_eq_error.1 h
    obtain ⟨d, hd⟩ := (Rhs.derivable (.token k)).exists_spelled
    exact ⟨[], d, d.yield, rfl, rfl, hd⟩
  stuck t rest h used hts d more hd := by
    cases d with
    | token u hu =>
      obtain ⟨rfl, rfl, -⟩ : used = [] ∧ t = u ∧ more = [] := by
        cases used <;> simp_all [Derivation.yield]
      subst hts
      obtain h | ⟨x, h⟩ := h
      · exact (token_eq_error.1 h).2 (by simp [next, hu])
      · obtain ⟨-, hcons⟩ := token_eq_ok.1 h
        exact absurd (List.cons.inj hcons).2 List.ne_cons_self

/-- What is found is put into a tree, in a way that may depend on where it is. -/
theorem map_of {f : D → α} {g : D → β} {build : α → β} (hp : Reads yield f stops p ts)
    (h : ∀ d rest, ts = yield d ++ rest → g d = build (f d)) :
    Reads yield g stops (p >>= fun x => pure (build x)) ts where
  sound y rest hy := by
    obtain ⟨x, mid, hx, hy⟩ := bind_eq_ok.1 hy
    cases hy
    obtain ⟨d, hts, rfl⟩ := hp.sound x _ hx
    exact ⟨d, hts, h d _ hts⟩
  complete d rest hts hs :=
    bind_eq_ok.2 ⟨_, _, hp.complete d rest hts hs, by rw [h d rest hts]; rfl⟩
  unique := hp.unique
  viable rest h := by
    obtain h | ⟨x, mid, -, hpure⟩ := bind_eq_error.1 h
    · exact hp.viable rest h
    · cases hpure
  stuck t rest h := by
    refine hp.stuck t rest ?_
    obtain h | ⟨x, mid, hx, hpure | ⟨y, hpure⟩⟩ := leaves_bind.1 h
    · exact .inl h
    · cases hpure
    · cases hpure
      exact .inr ⟨x, hx⟩

/-- What is found is put into a tree. -/
theorem map {f : D → α} {g : D → β} {build : α → β} (hp : Reads yield f stops p ts)
    (h : ∀ d, g d = build (f d)) : Reads yield g stops (p >>= fun x => pure (build x)) ts :=
  hp.map_of fun d _ _ => h d

/-- A token with nothing behind it. -/
theorem token_last {g : Derivation (.token k) → β} {build : Token → β}
    (h : ∀ t ht, nextLine ts = t.position.line → g (.token t ht) = build t) :
    Reads Derivation.yield g stops (Parse.token k >>= fun t => pure (build t)) ts := by
  refine token.map_of fun d rest hts => ?_
  cases d with
  | token t ht => exact h t ht (by simp [hts, Derivation.yield, nextLine])

/-! ### Parts -/

/-- The tokens of a pair. -/
def paired (yieldA : A → List Token) (yieldB : B → List Token) (d : A × B) : List Token :=
  yieldA d.1 ++ yieldB d.2

instance {yieldA : A → List Token} {yieldB : B → List Token} [Sampled yieldA] [Sampled yieldB] :
    Sampled (paired yieldA yieldB) where
  exists_spelled := by
    obtain ⟨x, hx⟩ : ∃ x, ∀ t ∈ yieldA x, t.Spelled := Sampled.exists_spelled
    obtain ⟨y, hy⟩ : ∃ y, ∀ t ∈ yieldB y, t.Spelled := Sampled.exists_spelled
    refine ⟨(x, y), ?_⟩
    simpa [paired, or_imp, forall_and] using ⟨hx, hy⟩

instance : Sampled (List.flatMap yield) := ⟨[], by simp⟩

variable [Ends stops] [Ends stops']

/-- A part after a part. What follows the second must be kept from going on with the first. -/
theorem pair {yieldA : A → List Token} {yieldB : B → List Token} [Sampled yieldB] {f : A → α}
    {g : A × B → β} {q : α → Parse β} (hp : Reads yieldA f stops p ts)
    (hq : ∀ x mid, ts = yieldA x ++ mid → Reads yieldB (fun y => g (x, y)) stops' (q (f x)) mid)
    (hs : ∀ y rest, stops' rest → stops (yieldB y ++ rest)) :
    Reads (paired yieldA yieldB) g stops' (p >>= q) ts where
  sound z rest h := by
    obtain ⟨x, mid, hx, hz⟩ := bind_eq_ok.1 h
    obtain ⟨x, hts, rfl⟩ := hp.sound x mid hx
    obtain ⟨y, hmid, hy⟩ := (hq x mid hts).sound z rest hz
    exact ⟨(x, y), by rw [hts, hmid, paired, List.append_assoc], hy⟩
  complete d rest hts hrest := by
    obtain ⟨x, y⟩ := d
    rw [paired, List.append_assoc] at hts
    have hx := hp.complete x _ hts (hs y rest hrest)
    exact bind_eq_ok.2 ⟨_, _, hx, (hq x _ hts).complete y rest rfl hrest⟩
  unique d d' rest rest' hts hrest hts' hrest' := by
    obtain ⟨x, y⟩ := d
    obtain ⟨x', y'⟩ := d'
    rw [paired, List.append_assoc] at hts hts'
    obtain rfl := hp.unique x x' _ _ hts (hs y rest hrest) hts' (hs y' rest' hrest')
    have hmid : yieldB y ++ rest = yieldB y' ++ rest' := List.append_cancel_left (hts ▸ hts')
    rw [(hq x _ hts).unique y y' rest rest' rfl hrest hmid hrest']
  viable rest h := by
    obtain h | ⟨z, mid, hx, hz⟩ := bind_eq_error.1 h
    · obtain ⟨used, x, more, hts, hx, hmore⟩ := hp.viable rest h
      obtain ⟨y, hy⟩ : ∃ y, ∀ t ∈ yieldB y, t.Spelled := Sampled.exists_spelled
      refine ⟨used, (x, y), more ++ yieldB y, hts, by simp [paired, hx], ?_⟩
      simpa [or_imp, forall_and] using ⟨hmore, hy⟩
    · obtain ⟨x, hts, rfl⟩ := hp.sound z mid hx
      obtain ⟨used, y, more, hmid, hy, hmore⟩ := (hq x mid hts).viable rest hz
      exact ⟨yieldA x ++ used, (x, y), more, by simp [hts, hmid], by simp [paired, hy], hmore⟩
  stuck t rest h used hts d more hd := by
    obtain ⟨x, y⟩ := d
    obtain ⟨behind, hbehind⟩ : ∃ behind, stops' behind := Ends.exists_end
    -- The first part ends before the token that is left, or it goes on with it.
    obtain ⟨us, rfl, hy⟩ | ⟨us, hx⟩ := append_cons_cases hd
    · rw [List.append_assoc] at hts
      have hstops : stops (us ++ t :: (more ++ behind)) := by
        simpa [hy] using hs y behind hbehind
      have hok := hp.complete x _ hts (Ends.exchange hstops)
      obtain herror | ⟨z, mid, hz, hleaves⟩ := leaves_bind.1 h
      · simp [hok] at herror
      · rw [hok] at hz
        cases hz
        exact (hq x _ hts).stuck t rest hleaves us rfl y more hy
    · obtain h | ⟨z, mid, hz, hleaves⟩ := leaves_bind.1 h
      · exact hp.stuck t rest (.inl h) used hts x us hx
      · obtain ⟨x', hts', rfl⟩ := hp.sound z mid hz
        -- The first part has left off before, and could not go on with what was left there.
        obtain ⟨later, rfl⟩ := (hq x' mid hts').exists_used hleaves
        obtain rfl : used = yieldA x' ++ later := by
          refine List.append_cancel_right (hts.symm.trans (hts'.trans ?_))
          exact (List.append_assoc _ _ _).symm
        exact hp.stuck_later (.inr ⟨_, hz⟩) hts' x us (by simpa using hx)

/-- A right side of two parts is read as a pair. -/
theorem of_parts {g : Derivation (.seq a b) → α}
    (hp : Reads (paired Derivation.yield Derivation.yield) (fun d => g (.seq d.1 d.2)) stops p
      ts) : Reads Derivation.yield g stops p ts := by
  refine of_form (fun d : Derivation a × Derivation b => .seq d.1 d.2) (fun _ => rfl) ?_ hp
  intro _ _ d _ _ _
  cases d with
  | seq d e => exact ⟨(d, e), rfl⟩

theorem seq {f : Derivation a → α} {g : Derivation (.seq a b) → β} {q : α → Parse β}
    (hp : Reads Derivation.yield f stops p ts)
    (hq : ∀ d mid, ts = d.yield ++ mid →
      Reads Derivation.yield (fun e => g (.seq d e)) stops' (q (f d)) mid)
    (hs : ∀ (e : Derivation b) rest, stops' rest → stops (e.yield ++ rest)) :
    Reads Derivation.yield g stops' (p >>= q) ts :=
  of_parts (hp.pair hq hs)

/-- Parts may be read in another grouping. -/
theorem assoc {c : Rhs} {g : Derivation (.seq (.seq a b) c) → α}
    (hp : Reads Derivation.yield
      (fun d : Derivation (.seq a (.seq b c)) => g (.seq (.seq d.fst d.snd.fst) d.snd.snd))
      stops p ts) : Reads Derivation.yield g stops p ts := by
  refine of_form (fun d : Derivation (.seq a (.seq b c)) =>
    .seq (.seq d.fst d.snd.fst) d.snd.snd) ?_ ?_ hp
  · intro d
    cases d with
    | seq d e =>
      cases e with
      | seq e f => simp [Derivation.yield, Derivation.fst, Derivation.snd]
  · intro _ _ d _ _ _
    cases d with
    | seq d f =>
      cases d with
      | seq d e => exact ⟨.seq d (.seq e f), rfl⟩

/-- A first part that can only be of one form. -/
theorem seq_of_form {a' : Rhs} {g : Derivation (.seq a b) → α} (c : Derivation a' → Derivation a)
    (hc : ∀ d, (c d).yield = d.yield)
    (hall : ∀ us, next us = next ts → ∀ d rest, us = d.yield ++ rest → ∃ d', c d' = d)
    (hp : Reads Derivation.yield (fun d : Derivation (.seq a' b) => g (.seq (c d.fst) d.snd))
      stops p ts) : Reads Derivation.yield g stops p ts := by
  refine of_form (fun d : Derivation (.seq a' b) => .seq (c d.fst) d.snd) ?_ ?_ hp
  · intro d
    cases d with
    | seq d e => simp [Derivation.yield, Derivation.fst, Derivation.snd, hc]
  · intro us hus d rest hts _
    cases d with
    | seq d e =>
      rw [Derivation.yield, List.append_assoc] at hts
      obtain ⟨d', rfl⟩ := hall us hus d _ hts
      exact ⟨.seq d' e, rfl⟩

/-- A token and what follows it. -/
theorem token_pair {yieldB : B → List Token} [Sampled yieldB] {g : Derivation (.token k) × B → β}
    {q : Token → Parse β}
    (hq : ∀ t mid (ht : t.terminal = k), mid.length < ts.length ∧ nextLine ts = t.position.line →
      Reads yieldB (fun y => g (.token t ht, y)) stops (q t) mid) :
    Reads (paired Derivation.yield yieldB) g stops (Parse.token k >>= q) ts := by
  have htoken : Reads Derivation.yield (fun d : Derivation (.token k) => d.tree) (fun _ => True)
      (Parse.token k) ts := token
  refine htoken.pair ?_ fun _ _ _ => trivial
  intro d mid hts
  cases d with
  | token t ht => exact hq t mid ht (by simp [hts, Derivation.yield, nextLine])

theorem token_seq {g : Derivation (.seq (.token k) b) → β} {q : Token → Parse β}
    (hq : ∀ t mid (ht : t.terminal = k), mid.length < ts.length ∧ nextLine ts = t.position.line →
      Reads Derivation.yield (fun e => g (.seq (.token t ht) e)) stops (q t) mid) :
    Reads Derivation.yield g stops (Parse.token k >>= q) ts :=
  of_parts (token_pair hq)

/-! ### Alternatives -/

/-- Nothing that is derived here starts like that. -/
theorem fail {g : Derivation e → α} (h : Avoids e.first ts) (hn : e.nullable = false)
    (hp : p ts = .error ts) : Reads Derivation.yield g stops p ts :=
  of_none (fun _ hus d _ hd _ => d.not_avoids hn hd (h.of_next_eq hus)) hp

/-- No alternative of a rule but one can start here. -/
theorem of_alternative {g : Derivation (.rule r) → α} (i : Fin r.alternatives.length)
    (only : ∀ j : Fin r.alternatives.length, j ≠ i → Avoids (r.alternatives.get j).rhs.first ts)
    (hn : r.nullable = false) (hp : Reads Derivation.yield (fun d => g (.rule i d)) stops p ts) :
    Reads Derivation.yield g stops p ts :=
  of_form (.rule i) (fun _ => rfl) (fun _ hus d _ hd _ =>
    d.exists_alternative i (fun j hj => (only j hj).of_next_eq hus) hn hd) hp

/-- The next token allows only one of the alternatives of a rule. -/
theorem rule {g : Derivation (.rule r) → α} (hk : next ts = some k)
    (i : Fin r.alternatives.length)
    (only : ∀ j : Fin r.alternatives.length, j ≠ i → k ∉ (r.alternatives.get j).rhs.first)
    (hn : r.nullable = false) (hp : Reads Derivation.yield (fun d => g (.rule i d)) stops p ts) :
    Reads Derivation.yield g stops p ts :=
  of_alternative i (fun j hj => avoids_of_next hk (only j hj)) hn hp

/-- The next token is not one that the other alternatives of a rule can start with. -/
theorem rule_of_avoids {ks : List Terminal} {g : Derivation (.rule r) → α} (hks : Avoids ks ts)
    (i : Fin r.alternatives.length)
    (only : ∀ j : Fin r.alternatives.length, j ≠ i → (r.alternatives.get j).rhs.first ⊆ ks)
    (hn : r.nullable = false) (hp : Reads Derivation.yield (fun d => g (.rule i d)) stops p ts) :
    Reads Derivation.yield g stops p ts :=
  of_alternative i (fun j hj => hks.mono (only j hj)) hn hp

theorem alternative_seq {g : Derivation (.seq (.rule r) b) → α}
    (i : Fin r.alternatives.length)
    (only : ∀ j : Fin r.alternatives.length, j ≠ i → Avoids (r.alternatives.get j).rhs.first ts)
    (hn : r.nullable = false)
    (hp : Reads Derivation.yield
      (fun d : Derivation (.seq (r.alternatives.get i).rhs b) => g (.seq (.rule i d.fst) d.snd))
      stops p ts) : Reads Derivation.yield g stops p ts :=
  seq_of_form (.rule i) (fun _ => rfl) (fun _ hus d _ hd =>
    d.exists_alternative i (fun j hj => (only j hj).of_next_eq hus) hn hd) hp

theorem rule_seq {g : Derivation (.seq (.rule r) b) → α} (hk : next ts = some k)
    (i : Fin r.alternatives.length)
    (only : ∀ j : Fin r.alternatives.length, j ≠ i → k ∉ (r.alternatives.get j).rhs.first)
    (hn : r.nullable = false)
    (hp : Reads Derivation.yield
      (fun d : Derivation (.seq (r.alternatives.get i).rhs b) => g (.seq (.rule i d.fst) d.snd))
      stops p ts) : Reads Derivation.yield g stops p ts :=
  alternative_seq i (fun j hj => avoids_of_next hk (only j hj)) hn hp

theorem rule_seq_of_avoids {ks : List Terminal} {g : Derivation (.seq (.rule r) b) → α}
    (hks : Avoids ks ts) (i : Fin r.alternatives.length)
    (only : ∀ j : Fin r.alternatives.length, j ≠ i → (r.alternatives.get j).rhs.first ⊆ ks)
    (hn : r.nullable = false)
    (hp : Reads Derivation.yield
      (fun d : Derivation (.seq (r.alternatives.get i).rhs b) => g (.seq (.rule i d.fst) d.snd))
      stops p ts) : Reads Derivation.yield g stops p ts :=
  alternative_seq i (fun j hj => hks.mono (only j hj)) hn hp

/-- A rule with one alternative. -/
theorem sole {g : Derivation (.rule r) → α} (i : Fin r.alternatives.length)
    (only : ∀ j : Fin r.alternatives.length, j = i)
    (hp : Reads Derivation.yield (fun d => g (.rule i d)) stops p ts) :
    Reads Derivation.yield g stops p ts := by
  refine of_form (.rule i) (fun _ => rfl) ?_ hp
  intro _ _ d _ _ _
  cases d with
  | rule j d =>
    obtain rfl := only j
    exact ⟨d, rfl⟩

theorem sole_seq {g : Derivation (.seq (.rule r) b) → α} (i : Fin r.alternatives.length)
    (only : ∀ j : Fin r.alternatives.length, j = i)
    (hp : Reads Derivation.yield
      (fun d : Derivation (.seq (r.alternatives.get i).rhs b) => g (.seq (.rule i d.fst) d.snd))
      stops p ts) : Reads Derivation.yield g stops p ts := by
  refine seq_of_form (.rule i) (fun _ => rfl) ?_ hp
  intro _ _ d _ _
  cases d with
  | rule j d =>
    obtain rfl := only j
    exact ⟨d, rfl⟩

theorem alt_left {g : Derivation (.alt a b) → α} (h : Avoids b.first ts) (hn : b.nullable = false)
    (hp : Reads Derivation.yield (fun d => g (.left d)) stops p ts) :
    Reads Derivation.yield g stops p ts := by
  refine of_form .left (fun _ => rfl) ?_ hp
  intro us hus d rest hd _
  cases d with
  | left d => exact ⟨d, rfl⟩
  | right d => exact absurd (h.of_next_eq hus) (d.not_avoids hn hd)

theorem alt_right {g : Derivation (.alt a b) → α} (h : Avoids a.first ts)
    (hn : a.nullable = false)
    (hp : Reads Derivation.yield (fun d => g (.right d)) stops p ts) :
    Reads Derivation.yield g stops p ts := by
  refine of_form .right (fun _ => rfl) ?_ hp
  intro us hus d rest hd _
  cases d with
  | left d => exact absurd (h.of_next_eq hus) (d.not_avoids hn hd)
  | right d => exact ⟨d, rfl⟩

/-! ### Parts that may be missing or repeated -/

theorem opt_none {g : Derivation (.opt a) → α} (h : Avoids a.first ts) (hn : a.nullable = false)
    (hp : p ts = .ok (g .none, ts)) : Reads Derivation.yield g stops p ts := by
  refine of_empty .none rfl ?_ hp
  intro us hus d rest hd _
  cases d with
  | none => rfl
  | some d => exact absurd (h.of_next_eq hus) (d.not_avoids hn hd)

theorem opt_some {g : Derivation (.opt a) → α} (hs : ¬ stops ts)
    (hp : Reads Derivation.yield (fun d => g (.some d)) stops p ts) :
    Reads Derivation.yield g stops p ts := by
  refine of_form .some (fun _ => rfl) ?_ hp
  intro us hus d rest hd hrest
  cases d with
  | none =>
    obtain rfl : us = rest := hd
    exact absurd (Ends.of_next_eq hus.symm hrest) hs
  | some d => exact ⟨d, rfl⟩

theorem star_nil {g : Derivation (.star a) → α} (h : Avoids a.first ts) (hn : a.nullable = false)
    (hp : p ts = .ok (g .nil, ts)) : Reads Derivation.yield g stops p ts := by
  refine of_empty .nil rfl ?_ hp
  intro us hus d rest hd _
  cases d with
  | nil => rfl
  | cons d ds =>
    rw [Derivation.yield, List.append_assoc] at hd
    exact absurd (h.of_next_eq hus) (d.not_avoids hn hd)

theorem star_cons {g : Derivation (.star a) → α} (hs : ¬ stops ts)
    (hp : Reads Derivation.yield (fun d : Derivation (.seq a (.star a)) => g (.cons d.fst d.snd))
      stops p ts) :
    Reads Derivation.yield g stops p ts := by
  refine of_form (fun d : Derivation (.seq a (.star a)) => .cons d.fst d.snd) ?_ ?_ hp
  · intro d
    cases d with
    | seq d ds => rfl
  · intro us hus d rest hd hrest
    cases d with
    | nil =>
      obtain rfl : us = rest := hd
      exact absurd (Ends.of_next_eq hus.symm hrest) hs
    | cons d ds => exact ⟨.seq d ds, rfl⟩

/-- A part that may be missing is missing. -/
theorem opt_skip {g : Derivation (.seq (.opt a) b) → α} (h : Avoids a.first ts)
    (hn : a.nullable = false)
    (hp : Reads Derivation.yield (fun e => g (.seq .none e)) stops p ts) :
    Reads Derivation.yield g stops p ts := by
  refine of_form (.seq .none) (fun _ => rfl) ?_ hp
  intro us hus d rest hd _
  cases d with
  | seq d e =>
    cases d with
    | none => exact ⟨e, rfl⟩
    | some d =>
      rw [Derivation.yield, List.append_assoc] at hd
      exact absurd (h.of_next_eq hus) (d.not_avoids hn hd)

/-- A part that may be missing is there, since the next one does not start like that. -/
theorem opt_take {g : Derivation (.seq (.opt a) b) → α} (h : Avoids b.first ts)
    (hn : b.nullable = false)
    (hp : Reads Derivation.yield (fun d : Derivation (.seq a b) => g (.seq (.some d.fst) d.snd))
      stops p ts) :
    Reads Derivation.yield g stops p ts := by
  refine of_form (fun d : Derivation (.seq a b) => .seq (.some d.fst) d.snd) ?_ ?_ hp
  · intro d
    cases d with
    | seq d e => rfl
  · intro us hus d rest hd _
    cases d with
    | seq d e =>
      cases d with
      | none => exact absurd (h.of_next_eq hus) (e.not_avoids hn hd)
      | some d => exact ⟨.seq d e, rfl⟩

/-- There is no further part. -/
theorem star_skip {g : Derivation (.seq (.star a) b) → α} (h : Avoids a.first ts)
    (hn : a.nullable = false)
    (hp : Reads Derivation.yield (fun e => g (.seq .nil e)) stops p ts) :
    Reads Derivation.yield g stops p ts := by
  refine of_form (.seq .nil) (fun _ => rfl) ?_ hp
  intro us hus d rest hd _
  cases d with
  | seq d e =>
    cases d with
    | nil => exact ⟨e, rfl⟩
    | cons d ds =>
      rw [Derivation.yield, Derivation.yield, List.append_assoc, List.append_assoc] at hd
      exact absurd (h.of_next_eq hus) (d.not_avoids hn hd)

/-- There is a further part, since what comes after them does not start like that. -/
theorem star_take {g : Derivation (.seq (.star a) b) → α} (h : Avoids b.first ts)
    (hn : b.nullable = false)
    (hp : Reads Derivation.yield (fun d : Derivation (.seq a (.seq (.star a) b)) =>
      g (.seq (.cons d.fst d.snd.fst) d.snd.snd)) stops p ts) :
    Reads Derivation.yield g stops p ts := by
  refine of_form (fun d : Derivation (.seq a (.seq (.star a) b)) =>
    .seq (.cons d.fst d.snd.fst) d.snd.snd) ?_ ?_ hp
  · intro d
    cases d with
    | seq d e =>
      cases e with
      | seq ds e => simp [Derivation.yield, Derivation.fst, Derivation.snd]
  · intro us hus d rest hd _
    cases d with
    | seq d e =>
      cases d with
      | nil => exact absurd (h.of_next_eq hus) (e.not_avoids hn hd)
      | cons d ds => exact ⟨.seq d (.seq ds e), rfl⟩

end Reads

end GoLift.Source
