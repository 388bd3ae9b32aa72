import GoLift.Go.Ast
import GoLift.Proofs.Go.Lexer

/-!
# The grammar of expressions

`Derives n ts x` says that the tokens `ts` are the expression `x` where the grammar asks for
something that binds as tightly as level `n`: five levels of binary operators that associate to the
left, prefix operators above them, and calls and selectors on top.

**The grammar is unambiguous** (`Derives.unique`). This is not shown on derivations, which can end
their parts at different places, but by a machine that reads the tokens once with a stack of what
is still open: whatever is derived is what the machine finds (`Derives.finds`), and it finds one
thing.
-/

set_option autoImplicit false

namespace GoLift.Go

/-! ### The grammar -/

/-- The binary operators, level by level, the loosest first. -/
def binaryLevels : List (List String) :=
  [["||"], ["&&"], ["==", "!=", "<", "<=", ">", ">="], ["+", "-", "|", "^"],
    ["*", "/", "%", "<<", ">>", "&", "&^"]]

/-- The level of a binary operator. -/
def binaryLevel? (s : String) : Option Nat :=
  (binaryLevels.findIdx? (·.contains s)).map (· + 1)

/-- The operators that stand before an operand. -/
def prefixOps : List String := ["+", "-", "!", "^", "*", "&", "<-"]

/-- An operand with an operator before it. -/
def prefixed (s : String) (x : Expr) : Expr :=
  if s = "*" then .star x else .unary (.ofSymbol s) x

/-- Tokens with commas between them. -/
def commas : List (List Token) → List Token
  | [] => []
  | [ts] => ts
  | ts :: tss => ts ++ .symbol "," :: commas tss

/-- Tokens are an expression at a level of the grammar. -/
inductive Derives : Nat → List Token → Expr → Prop
  | ident (name : String) : Derives 7 [.ident name] (.ident name)
  | int (text : String) : Derives 7 [.int text] (.lit .int text)
  | paren {ts : List Token} {x : Expr} (hx : Derives 1 ts x) :
      Derives 7 (.symbol "(" :: ts ++ [.symbol ")"]) (.paren x)
  | selector {ts : List Token} {x : Expr} (hx : Derives 7 ts x) (sel : String) :
      Derives 7 (ts ++ [.symbol ".", .ident sel]) (.selector x sel)
  /-- A call, or a conversion. A comma may stand behind the last argument. -/
  | call {ts tail : List Token} {fn : Expr} {args : List (List Token × Expr)}
      (hfn : Derives 7 ts fn) (hargs : ∀ a ∈ args, Derives 1 a.1 a.2)
      (htail : tail = [] ∨ args ≠ [] ∧ tail = [.symbol ","]) :
      Derives 7 (ts ++ .symbol "(" :: commas (args.map Prod.fst) ++ tail ++ [.symbol ")"])
        (.call fn (args.map Prod.snd))
  | prefixed {s : String} {ts : List Token} {x : Expr} (hs : s ∈ prefixOps) (hx : Derives 6 ts x) :
      Derives 6 (.symbol s :: ts) (prefixed s x)
  | binary {s : String} {n : Nat} {ts us : List Token} {x y : Expr} (hs : binaryLevel? s = some n)
      (hx : Derives n ts x) (hy : Derives (n + 1) us y) :
      Derives n (ts ++ .symbol s :: us) (.binary x (.ofSymbol s) y)
  /-- What binds more tightly may stand where something looser is asked for. -/
  | operand {n : Nat} {ts : List Token} {x : Expr} (hx : Derives (n + 1) ts x) : Derives n ts x

/-! ### Reading with a stack -/

namespace Machine

/-- Something that is still open. -/
inductive Frame
  /-- Parentheses. -/
  | paren
  /-- A call, with the arguments up to here. -/
  | call (fn : Expr) (args : List Expr)
  /-- An operator before an operand. -/
  | prefixed (s : String)
  /-- An operator of a level behind its left operand. -/
  | binary (x : Expr) (s : String) (n : Nat)

/-- What is expected next. -/
inductive Mode
  /-- An operand. -/
  | need
  /-- What goes on with an operand. -/
  | got (x : Expr)
  /-- The name of a selector. -/
  | select (x : Expr)

/-- Apply the open operators that bind at least as tightly as level `n`. -/
def reduce (n : Nat) : List Frame → Expr → List Frame × Expr
  | .prefixed s :: k, x => reduce n k (prefixed s x)
  | .binary x s m :: k, y =>
    if n ≤ m then reduce n k (.binary x (.ofSymbol s) y) else (.binary x s m :: k, y)
  | k, x => (k, x)

/-- Read a token. -/
def step : List Frame × Mode → Token → Option (List Frame × Mode)
  | (k, .need), .ident name => some (k, .got (.ident name))
  | (k, .need), .int text => some (k, .got (.lit .int text))
  | (k, .need), .symbol s =>
    if s = "(" then some (.paren :: k, .need)
    else if s = ")" then
      match k with
      | .call fn args :: k => some (k, .got (.call fn args))
      | _ => none
    else if s ∈ prefixOps then some (.prefixed s :: k, .need)
    else none
  | (k, .got x), .symbol s =>
    if s = "." then some (k, .select x)
    else if s = "(" then some (.call x [] :: k, .need)
    else if s = "," then
      match reduce 1 k x with
      | (.call fn args :: k, x) => some (.call fn (args ++ [x]) :: k, .need)
      | _ => none
    else if s = ")" then
      match reduce 1 k x with
      | (.paren :: k, x) => some (k, .got (.paren x))
      | (.call fn args :: k, x) => some (k, .got (.call fn (args ++ [x])))
      | _ => none
    else (binaryLevel? s).map fun n => (.binary (reduce n k x).2 s n :: (reduce n k x).1, .need)
  | (k, .select x), .ident name => some (k, .got (.selector x name))
  | _, _ => none

/-- The expression that is read in the end. -/
def finish : List Frame × Mode → Option Expr
  | (k, .got x) =>
    match reduce 1 k x with
    | ([], x) => some x
    | _ => none
  | _ => none

/-- Read tokens one after the other. -/
def stepAll (state : List Frame × Mode) (ts : List Token) : Option (List Frame × Mode) :=
  ts.foldlM step state

/-- The expression that tokens are. -/
def parse (ts : List Token) : Option Expr :=
  stepAll ([], .need) ts >>= finish

theorem stepAll_append (state : List Frame × Mode) (ts us : List Token) :
    stepAll state (ts ++ us) = stepAll state ts >>= (stepAll · us) :=
  List.foldlM_append

theorem stepAll_cons (state : List Frame × Mode) (t : Token) (ts : List Token) :
    stepAll state (t :: ts) = step state t >>= (stepAll · ts) :=
  List.foldlM_cons

/-! ### The machine finds what is derived -/

/-- What is open asks for an operand of a level, or of a looser one. -/
def Admits : List Frame → Nat → Prop
  | .prefixed _ :: _, n => 6 ≤ n
  | .binary _ _ m :: _, n => m < n
  | _, _ => True

variable {k : List Frame} {n : Nat} {x fn : Expr} {s : String} {ts us tail : List Token}

theorem Admits.succ (h : Admits k n) : Admits k (n + 1) := by
  cases k with
  | nil => trivial
  | cons frame k =>
    cases frame with
    | paren | call => trivial
    | prefixed s => exact Nat.le_succ_of_le h
    | binary x s m => exact Nat.lt_succ_of_lt h

/-- An operator is not applied before its right operand has come to an end. -/
theorem reduce_of_admits (h : Admits k n) (hn : n ≤ 5) : reduce n k x = (k, x) := by
  cases k with
  | nil => rfl
  | cons frame k =>
    cases frame with
    | paren | call => rfl
    | prefixed s =>
      have : 6 ≤ n := h
      omega
    | binary y s m => exact if_neg (Nat.not_le.2 h)

theorem binaryLevel?_le (hs : binaryLevel? s = some n) : n ≤ 5 := by
  obtain ⟨i, hi, rfl⟩ := Option.map_eq_some_iff.1 hs
  have hlt := (List.findIdx?_eq_some_iff_findIdx_eq.1 hi).1
  exact hlt

/-- Punctuation is no operator. -/
theorem binaryLevel?_punctuation : ∀ s ∈ [".", "(", ",", ")"], binaryLevel? s = none := by
  decide

theorem prefixOps_punctuation : ∀ s ∈ prefixOps, s ≠ "(" ∧ s ≠ ")" := by
  decide

theorem step_binary (hs : binaryLevel? s = some n) :
    step (k, .got x) (.symbol s) =
      some (.binary (reduce n k x).2 s n :: (reduce n k x).1, .need) := by
  have hne : ∀ t ∈ [".", "(", ",", ")"], s ≠ t := by
    intro t ht hst
    rw [hst, binaryLevel?_punctuation t ht] at hs
    cases hs
  simp only [List.forall_mem_cons] at hne
  obtain ⟨hpoint, hopen, hcomma, hclose, -⟩ := hne
  simp [step, hpoint, hopen, hcomma, hclose, hs]

theorem step_prefixed (hs : s ∈ prefixOps) :
    step (k, .need) (.symbol s) = some (.prefixed s :: k, .need) := by
  obtain ⟨hopen, hclose⟩ := prefixOps_punctuation s hs
  simp [step, hopen, hclose, hs]

/-- Where an operand of a level is asked for, tokens are read as an expression. Operators inside of
it may still be open, but whatever applies operators of the level applies these first; what only
calls and selectors go on with has none open. -/
def Finds (n : Nat) (ts : List Token) (x : Expr) : Prop :=
  ∀ k, Admits k n → ∃ k' x', stepAll (k, .need) ts = some (k', .got x') ∧
    (∀ m ≤ n, reduce m k' x' = reduce m k x) ∧ (7 ≤ n → k' = k ∧ x' = x)

theorem Finds.of_primary (h : ∀ k, stepAll (k, .need) ts = some (k, .got x)) : Finds n ts x :=
  fun k _ => ⟨k, x, h k, fun _ _ => rfl, fun _ => ⟨rfl, rfl⟩⟩

theorem Finds.primary (h : Finds 7 ts x) (k : List Frame) (hk : Admits k 7) :
    stepAll (k, .need) ts = some (k, .got x) := by
  obtain ⟨k', x', hts, -, heq⟩ := h k hk
  obtain ⟨rfl, rfl⟩ := heq (Nat.le_refl 7)
  exact hts

/-- Before a comma or a closing parenthesis, every open operator is applied. -/
theorem Finds.closed (h : Finds 1 ts x) (hk : Admits k 1) {close : String}
    (hclose : close = "," ∨ close = ")") (us : List Token) :
    stepAll (k, .need) (ts ++ .symbol close :: us) =
      step (k, .got x) (.symbol close) >>= (stepAll · us) := by
  obtain ⟨k', x', hts, hreduce, -⟩ := h k hk
  have hstep : step (k', .got x') (.symbol close) = step (k, .got x) (.symbol close) := by
    rcases hclose with rfl | rfl <;> simp [step, hreduce 1 (Nat.le_refl 1)]
  rw [stepAll_append, hts]
  show stepAll (k', .got x') (.symbol close :: us) = _
  rw [stepAll_cons, hstep]

/-- The arguments of a call are read one after the other. -/
theorem stepAll_args {args : List (List Token × Expr)} (hargs : ∀ a ∈ args, Finds 1 a.1 a.2)
    (htail : tail = [] ∨ args ≠ [] ∧ tail = [.symbol ","]) (done : List Expr) :
    stepAll (.call fn done :: k, .need) (commas (args.map Prod.fst) ++ tail ++ [.symbol ")"]) =
      some (k, .got (.call fn (done ++ args.map Prod.snd))) := by
  induction args generalizing done with
  | nil =>
    obtain rfl : tail = [] := by simpa using htail
    show some (k, Mode.got (.call fn done)) = _
    rw [List.map_nil, List.append_nil]
  | cons a args ih =>
    obtain ⟨ha, hargs⟩ := List.forall_mem_cons.1 hargs
    have hopen : Admits (.call fn done :: k) 1 := trivial
    cases args with
    | nil =>
      show stepAll _ (a.1 ++ tail ++ [.symbol ")"]) = _
      rw [List.append_assoc]
      rcases htail with rfl | ⟨-, rfl⟩
      · exact ha.closed hopen (.inr rfl) []
      · exact ha.closed hopen (.inl rfl) [.symbol ")"]
    | cons b args =>
      have htail' : tail = [] ∨ b :: args ≠ [] ∧ tail = [.symbol ","] :=
        htail.imp_right fun h => ⟨List.cons_ne_nil _ _, h.2⟩
      have hrest := ih hargs htail' (done ++ [a.2])
      rw [List.append_assoc] at hrest
      show stepAll _ (a.1 ++ .symbol "," :: commas ((b :: args).map Prod.fst) ++ tail ++ _) = _
      rw [List.append_assoc, List.append_assoc, List.cons_append, ha.closed hopen (.inl rfl)]
      show stepAll (.call fn (done ++ [a.2]) :: k, .need) _ = _
      rw [hrest, List.append_assoc]
      rfl

end Machine

/-! ### One expression for some tokens -/

open Machine

variable {n : Nat} {x : Expr} {ts : List Token}

/-- **What is derived is what the machine finds.** -/
theorem Derives.finds (h : Derives n ts x) : Finds n ts x := by
  induction h with
  | ident name => exact .of_primary fun k => rfl
  | int text => exact .of_primary fun k => rfl
  | @paren ts x _ ih =>
    exact .of_primary fun k => ih.closed (k := .paren :: k) trivial (.inr rfl) []
  | @selector ts x _ sel ih =>
    intro k hk
    refine ⟨k, _, ?_, fun _ _ => rfl, fun _ => ⟨rfl, rfl⟩⟩
    rw [stepAll_append, ih.primary k hk]
    rfl
  | @call ts tail fn args _ _ htail ihfn ihargs =>
    intro k hk
    refine ⟨k, _, ?_, fun _ _ => rfl, fun _ => ⟨rfl, rfl⟩⟩
    rw [List.append_assoc, List.append_assoc, stepAll_append, ihfn.primary k hk]
    show stepAll (.call fn [] :: k, .need) (commas (args.map Prod.fst) ++ (tail ++ _)) = _
    rw [← List.append_assoc]
    exact stepAll_args ihargs htail []
  | @prefixed s ts x hs _ ih =>
    intro k hk
    obtain ⟨k', x', hts, hreduce, -⟩ := ih (.prefixed s :: k) (Nat.le_refl 6)
    refine ⟨k', x', ?_, fun m hm => hreduce m hm, fun h => absurd h (by decide)⟩
    rw [stepAll_cons, step_prefixed hs]
    exact hts
  | @binary s n ts us x y hs _ _ ihx ihy =>
    intro k hk
    -- The operator applies what is open in its left operand, but nothing that was open before it;
    -- whatever is applied later finds the operator below its right operand.
    have hn := binaryLevel?_le hs
    obtain ⟨k₁, x₁, hts, hx, -⟩ := ihx k hk
    obtain ⟨k₂, y₂, hus, hy, -⟩ := ihy (.binary x s n :: k) (Nat.lt_succ_self n)
    refine ⟨k₂, y₂, ?_, fun m hm => ?_, fun h => by omega⟩
    · rw [stepAll_append, hts]
      show stepAll (k₁, .got x₁) (.symbol s :: us) = _
      rw [stepAll_cons, step_binary hs, hx n (Nat.le_refl n), reduce_of_admits hk hn]
      exact hus
    · rw [hy m (Nat.le_succ_of_le hm)]
      exact if_pos hm
  | @operand n ts x _ ih =>
    intro k hk
    obtain ⟨k', x', hts, hreduce, hprimary⟩ := ih k hk.succ
    exact ⟨k', x', hts, fun m hm => hreduce m (Nat.le_succ_of_le hm),
      fun h => hprimary (Nat.le_succ_of_le h)⟩

/-- What is derived is what the machine ends with. -/
theorem Derives.parse_eq (h : Derives 1 ts x) : parse ts = some x := by
  obtain ⟨k, x', hts, hreduce, -⟩ := h.finds [] trivial
  rw [parse, hts]
  show finish (k, .got x') = _
  simp [finish, hreduce 1 (Nat.le_refl 1), reduce]

/-- **The grammar is unambiguous.** -/
theorem Derives.unique {y : Expr} (hx : Derives 1 ts x) (hy : Derives 1 ts y) : x = y :=
  Option.some.inj (hx.parse_eq.symm.trans hy.parse_eq)

/-- Binary operators of one level associate to the left. -/
example :
    parse [.ident "a", .symbol "-", .ident "b", .symbol "-", .ident "c"] =
      some (.binary (.binary (.ident "a") .sub (.ident "b")) .sub (.ident "c")) :=
  rfl

end GoLift.Go
