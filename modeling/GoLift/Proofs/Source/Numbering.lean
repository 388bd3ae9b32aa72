import GoLift.Proofs.Go.Names
import GoLift.Proofs.Source.Complete

/-!
# Numbers for what has no name

A parameter without a name of its own has a number for one, and so has the entry block if it goes
without a label: the numbers go up from zero, and the block comes behind the parameters. A text may
write the number of a parameter or leave it out.

**What is built has these numbers exactly if the text writes them all** and no name is made of the
digits of another script (`Build.numbered_iff`). A number that is left out is not filled in, so its
parameter is built with the empty name, and the number of the block is that of the parameters whose
names are digits.
-/

set_option autoImplicit false

namespace GoLift.Source

/-! ### Numbers as they are written -/

/-- Is a name a number? -/
def isNumber (name : String) : Bool :=
  !name.isEmpty && name.toList.all Char.isDigit

/-- The names of parameters as they are written. -/
def ParamsTree.names (ps : ParamsTree) : List (Option String) :=
  ps.params.map Prod.snd

/-- Has a parameter a number for a name, when it is written like this? -/
def takesNumber (name : Option String) : Bool :=
  name.all isNumber

/-- The names of parameters as they may be written, from a number on: names of their own, and the
next number, which is written or left out. -/
inductive Numbering : Nat → List (Option String) → Prop
  | nil {k : Nat} : Numbering k []
  | named {k : Nat} {name : String} {names : List (Option String)} (h : isNumber name = false)
      (hnames : Numbering k names) : Numbering k (some name :: names)
  | written {k : Nat} {names : List (Option String)} (hnames : Numbering (k + 1) names) :
      Numbering k (some (toString k) :: names)
  | leftOut {k : Nat} {names : List (Option String)} (hnames : Numbering (k + 1) names) :
      Numbering k (none :: names)

/-- A function has the numbers: its parameters without names of their own one after the other, and
then its entry block. -/
structure Numbered (names : List (Option String)) (f : Function) : Prop where
  params : ((names.zip (f.params.map Param.name)).filter (fun p => takesNumber p.1)).map Prod.snd =
    (List.range (names.countP takesNumber)).map toString
  entry : f.body.head?.map Block.name = some (toString (names.countP takesNumber))

/-- Whatever is called by one of the numbers is there. -/
theorem Numbered.resolves {names : List (Option String)} {f : Function} (h : Numbered names f) :
    (∀ i < names.countP takesNumber, toString i ∈ f.params.map Param.name) ∧
      toString (names.countP takesNumber) ∈ f.body.map Block.name := by
  constructor
  · intro i hi
    have hmem : toString i ∈ (List.range (names.countP takesNumber)).map toString :=
      List.mem_map_of_mem (List.mem_range.2 hi)
    rw [← h.params] at hmem
    obtain ⟨p, hp, hpi⟩ := List.mem_map.1 hmem
    exact hpi ▸ (List.of_mem_zip (List.mem_of_mem_filter hp)).2
  · obtain ⟨b, hb, hname⟩ := Option.map_eq_some_iff.1 h.entry
    exact hname ▸ List.mem_map_of_mem (List.mem_of_mem_head? hb)

theorem isNumber_toString (k : Nat) : isNumber (toString k) = true := by
  refine Bool.and_eq_true_iff.2 ⟨?_, List.all_eq_true.2 fun c hc => isDigit_of_mem_toString hc⟩
  simp

/-- A number is a run of digits, whatever the script. -/
theorem isNumeral_of_isNumber {name : String} (h : isNumber name = true) :
    Text.isNumeral name = true := by
  have hdigit : ∀ c : Char, c.isDigit = true → Text.isDigit c = true := by
    intro c hc
    obtain ⟨hlow, hhigh⟩ : 48 ≤ c.toNat ∧ c.toNat ≤ 57 := Char.isDigit_iff_toNat.1 hc
    have hzero : Text.decimalValue? c = some (c.toNat - 48) := by
      simp [Text.decimalValue?, Text.decimalZeros, hlow, Nat.lt_succ_of_le hhigh]
    simp [Text.isDigit, Text.isDecimal, hzero]
  obtain ⟨hne, hall⟩ := Bool.and_eq_true_iff.1 h
  refine Bool.and_eq_true_iff.2 ⟨hne, List.all_eq_true.2 fun c hc => ?_⟩
  exact hdigit c (List.all_eq_true.1 hall c hc)

/-! ### Counting -/

/-- Counting for a condition and for a weaker one gives the same exactly if the weaker one holds
only where the other does. -/
theorem countP_eq_countP_iff {α : Type} {p q : α → Bool} {xs : List α}
    (h : ∀ x ∈ xs, p x = true → q x = true) :
    xs.countP p = xs.countP q ↔ ∀ x ∈ xs, q x = true → p x = true := by
  induction xs with
  | nil => simp
  | cons x xs ih =>
    obtain ⟨hx, hxs⟩ := List.forall_mem_cons.1 h
    have hle := List.countP_mono_left hxs
    rw [List.forall_mem_cons, ← ih hxs, List.countP_cons, List.countP_cons]
    cases hp : p x with
    | true => simp [hx hp]
    | false =>
      cases hq : q x with
      | true => simp; omega
      | false => simp

variable {names : List (Option String)} {k : Nat}

/-- The numbers that are written are those that come next, if none is left out. -/
theorem Numbering.written_numbers (h : Numbering k names) (hsome : ∀ n ∈ names, n.isSome = true) :
    (names.filter takesNumber).map (·.getD "") =
      (List.range' k (names.countP takesNumber)).map toString := by
  induction h with
  | nil => rfl
  | named h _ ih =>
    have hnot : takesNumber (some _) = false := h
    rw [List.filter_cons_of_neg (by simp [hnot]), List.countP_cons_of_neg (by simp [hnot])]
    exact ih (List.forall_mem_cons.1 hsome).2
  | @written k names _ ih =>
    have htakes : takesNumber (some (toString k)) = true := isNumber_toString k
    rw [List.filter_cons_of_pos htakes, List.countP_cons_of_pos htakes, List.range'_succ,
      List.map_cons, List.map_cons, ih (List.forall_mem_cons.1 hsome).2]
    rfl
  | leftOut => exact absurd (hsome none List.mem_cons_self) (by simp)

/-- A number that is left out has an empty name in its place. -/
theorem isSome_of_numbers
    (h : (names.filter takesNumber).map (·.getD "") =
      (List.range (names.countP takesNumber)).map toString) :
    ∀ n ∈ names, n.isSome = true := by
  intro n hn
  cases n with
  | some name => rfl
  | none =>
    have hmem : "" ∈ (names.filter takesNumber).map (·.getD "") :=
      List.mem_map.2 ⟨none, List.mem_filter.2 ⟨hn, rfl⟩, rfl⟩
    rw [h] at hmem
    obtain ⟨i, -, hi⟩ := List.mem_map.1 hmem
    have hnumber := isNumber_toString i
    rw [hi] at hnumber
    cases hnumber

/-- The names of what has a number, if each name is made of the one that is written. -/
theorem filter_zip_map (built : Option String → String) (names : List (Option String)) :
    ((names.zip (names.map built)).filter (fun p => takesNumber p.1)).map Prod.snd =
      (names.filter takesNumber).map built := by
  induction names with
  | nil => rfl
  | cons n names ih =>
    rw [List.map_cons, List.zip_cons_cons]
    cases h : takesNumber n <;> simp [h, ih]

/-! ### What is built -/

namespace Build

theorem ensures_params (ps : List (TypeTree × Option String)) :
    Ensures (params ps) (fun built => built.map Param.name = ps.map (·.2.getD "")) := by
  induction ps with
  | nil => exact .pure rfl
  | cons p ps ih => exact .after fun t => ih.bind fun built h => .pure (by simp [h])

/-- A parameter that is written without a name is built with the empty one. -/
theorem ensures_header_params (ret : TypeTree) (name : String) (ps : ParamsTree) :
    Ensures (header ret name ps)
      (fun f => f.params.map Param.name = ps.names.map (·.getD "")) := by
  refine .after fun t => (ensures_params ps.params).bind fun built h => .pure ?_
  rw [h, ParamsTree.names, List.map_map]
  rfl

/-- The number of the entry block is that of the names that are digits. -/
theorem entryLabel_eq (built : List Param) :
    entryLabel built = toString ((built.map Param.name).countP Text.isNumeral) := by
  rw [entryLabel, List.countP_map, List.countP_eq_length_filter]
  rfl

variable {line : Nat} {ret : TypeTree} {name : String} {ps : ParamsTree} {first : BlockTree}
  {rest : List (String × BlockTree)} {head f : Function} {bodies mid bodies' : Bodies}

/-- **The numbers are there exactly if they are all written.** The parameters of a definition
without a label for its entry block have names of their own or their numbers, written or left out.
What is built has the numbers if and only if each parameter is written with a name and no name is
made of digits of another script. If it has them, whatever is called by one of them is there. -/
theorem numbered_iff (hnames : Numbering 0 ps.names)
    (hhead : header ret name ps bodies = .ok (head, mid))
    (hf : function line head none first rest mid = .ok (f, bodies')) :
    (Numbered ps.names f ↔ ∀ n ∈ ps.names,
        ∃ name, n = some name ∧ (Text.isNumeral name = true → isNumber name = true)) ∧
      (Numbered ps.names f →
        (∀ i < ps.names.countP takesNumber, toString i ∈ f.params.map Param.name) ∧
          toString (ps.names.countP takesNumber) ∈ f.body.map Block.name) := by
  refine ⟨?_, Numbered.resolves⟩
  have hparams := ensures_header_params ret name ps _ _ _ hhead
  obtain ⟨b, bs, rfl, hb, -, -⟩ := ensures_function line head none first rest _ _ _ hf
  have hentry : b.name =
      toString (ps.names.countP fun n => Text.isNumeral (n.getD "")) := by
    rw [hb.name, Option.getD_none, entryLabel_eq, hparams, List.countP_map]
    rfl
  have hweaker : (∀ n ∈ ps.names, n.isSome = true) → ∀ n ∈ ps.names,
      takesNumber n = true → Text.isNumeral (n.getD "") = true := by
    intro hsome n hn h
    obtain ⟨name, rfl⟩ := Option.isSome_iff_exists.1 (hsome n hn)
    exact isNumeral_of_isNumber h
  constructor
  · intro h
    have hsome : ∀ n ∈ ps.names, n.isSome = true := by
      have hnumbers := h.params
      rw [hparams, filter_zip_map] at hnumbers
      exact isSome_of_numbers hnumbers
    have hcount : ps.names.countP takesNumber =
        ps.names.countP fun n => Text.isNumeral (n.getD "") := by
      have hlabel : some b.name = some (toString (ps.names.countP takesNumber)) := h.entry
      rw [hentry] at hlabel
      exact (toString_nat_injective (Option.some.inj hlabel)).symm
    intro n hn
    obtain ⟨name, rfl⟩ := Option.isSome_iff_exists.1 (hsome n hn)
    exact ⟨name, rfl, (countP_eq_countP_iff (hweaker hsome)).1 hcount _ hn⟩
  · intro h
    have hsome : ∀ n ∈ ps.names, n.isSome = true := by
      intro n hn
      obtain ⟨name, rfl, -⟩ := h n hn
      rfl
    have hcount : ps.names.countP takesNumber =
        ps.names.countP fun n => Text.isNumeral (n.getD "") := by
      refine (countP_eq_countP_iff (hweaker hsome)).2 fun n hn hnumeral => ?_
      obtain ⟨name, rfl, hnumber⟩ := h n hn
      exact hnumber hnumeral
    constructor
    · rw [hparams, filter_zip_map, hnames.written_numbers hsome, List.range_eq_range']
    · rw [hcount, ← hentry]
      rfl

end Build

/-! ### A number that is left out -/

namespace LeftOut

/-- The parameters `i32 %0, i1 %flag, i32`: the number of the last one, 1, is left out. -/
def params : ParamsTree :=
  { params := [(.int ['3', '2'], some "0"), (.int ['1'], some "flag"), (.int ['3', '2'], none)] }

/-- The block `ret i32 %1`. -/
def block : BlockTree :=
  { instrs := [], terminator := .ret 2 (.int ['3', '2']) (some (.localName "1")) }

/-- What is built of the parameters. -/
def head : Function :=
  { name := "second", ret := .int 32
    params := [⟨"0", .int 32⟩, ⟨"flag", .int 1⟩, ⟨"", .int 32⟩] }

/-- What is built with the block, which takes the number of the last parameter. -/
def built : Function :=
  { head with blocks := some [
      { name := "1", terminator := some (.ret (some (.localRef "1" (.int 32)))) }] }

theorem header_params : Build.header (.int ['3', '2']) "second" params {} = .ok (head, {}) := by
  rfl

theorem function_block : Build.function 1 head none block [] {} = .ok (built, {}) := by
  cbv

/-- The numbers are not those of the parameters and the block. -/
theorem left_out_not_numbered :
    Numbering 0 params.names ∧
    Build.header (.int ['3', '2']) "second" params {} = .ok (head, {}) ∧
    Build.function 1 head none block [] {} = .ok (built, {}) ∧ ¬ Numbered params.names built := by
  have hnames : Numbering 0 params.names := .written (.named (by decide) (.leftOut .nil))
  refine ⟨hnames, header_params, function_block, fun hnumbered => ?_⟩
  obtain ⟨name, hname, -⟩ :=
    (Build.numbered_iff hnames header_params function_block).1.1 hnumbered none (by decide)
  cases hname

end LeftOut

end GoLift.Source
