import GoLift.Proofs.Source.Recognition
import GoLift.Source.Build
import Mathlib.Data.List.Nodup

/-!
# A branch to the second block

The tokens of a definition whose first block ends in a branch to a label: those before the branch
(`Opening`) and those behind the label of the second block (`Closing`). Whatever stands behind the
branch, what is parsed begins with the definition as far as it goes (`parseItems_opening`). With a
label it is parsed to its end (`parseItems_closing`), and built if its parts are
(`Build.module_of_define`).
-/

set_option autoImplicit false

namespace GoLift.Source

open Parse

variable {ts rest : List Token}

/-! ### Parsing -/

/-- A definition up to the end of the instructions of its first block. -/
structure Opening where
  define : Token
  ret : Derivation (.rule .type)
  name : Token
  params : Derivation Rhs.parameters
  brace : Token
  label : Token
  instrs : Derivation (.star (.rule .instruction))
  define_terminal : define.terminal = .word .define
  name_terminal : name.terminal = .globalName
  brace_terminal : brace.terminal = .word .openBrace
  label_terminal : label.terminal = .labelDef

/-- A definition from the instructions of its second block on. -/
structure Closing where
  instrs : Derivation (.star (.rule .instruction))
  terminator : Derivation (.rule .terminator)
  blocks : Derivation (.star (.rule .block))
  brace : Token
  brace_terminal : brace.terminal = .word .closeBrace

namespace Opening

/-- The tokens of the beginning of a definition. -/
def tokens (o : Opening) : List Token :=
  o.define :: (o.ret.yield ++ o.name :: (o.params.yield ++ o.brace :: o.label :: o.instrs.yield))

/-- The type that a definition returns. -/
def retTree (o : Opening) : TypeTree := o.ret.tree

/-- The parameters of a definition. -/
def paramsTree (o : Opening) : ParamsTree := parenthesized o.params.tree

/-- The instructions of the first block. -/
def instrTrees (o : Opening) : List InstrTree := o.instrs.tree

/-- The definition whose first block branches to a label, with the blocks behind it. -/
def item (o : Opening) (target : String) (blocks : List (String × BlockTree)) : ItemTree :=
  .define o.define.position.line o.retTree o.name.name o.paramsTree (some o.label.name)
    { instrs := o.instrTrees, terminator := .br target } blocks

end Opening

namespace Closing

/-- The tokens of the end of a definition. -/
def tokens (c : Closing) : List Token :=
  c.instrs.yield ++ (c.terminator.yield ++ (c.blocks.yield ++ [c.brace]))

/-- The second block. -/
def block (c : Closing) : BlockTree :=
  { instrs := (c.instrs.tree : List InstrTree), terminator := c.terminator.tree }

/-- The blocks behind the second one. -/
def blockTrees (c : Closing) : List (String × BlockTree) := c.blocks.tree

/-- It begins with an instruction or a terminator. -/
theorem avoids_labelDef (c : Closing) : Avoids [.labelDef] c.tokens :=
  c.instrs.avoids_append (by decide) fun _ => c.terminator.avoids (by decide) rfl

end Closing

theorem bind_ok {α β : Type} {p : Parse α} {q : α → Parse β} {x : α} {mid : List Token}
    (h : p ts = .ok (x, mid)) : (p >>= q) ts = q x mid := by
  rw [run_bind, h]
  rfl

theorem token_cons {k : Terminal} {t : Token} (h : t.terminal = k) :
    Parse.token k (t :: rest) = .ok (t, rest) := by
  simp [Parse.token, h]

/-- A branch to a label is parsed from its three tokens. -/
theorem terminator_br {b l t : Token} (hb : b.terminal = .word .br) (hl : l.terminal = .word .label)
    (ht : t.terminal = .localName) : terminator (b :: l :: t :: rest) = .ok (.br t.name, rest) := by
  have hnext : next (b :: l :: t :: rest) = some (.word .br) := congrArg some hb
  have hsees : next (l :: t :: rest) = some (.word .label) := congrArg some hl
  have hlabel : labelRef (l :: t :: rest) = .ok (t.name, rest) := by
    rw [labelRef, word_bind, bind_ok (token_cons hl), name, bind_ok (token_cons ht)]
    rfl
  rw [terminator, line_bind, peek_bind, hnext]
  dsimp only
  rw [word_bind, bind_ok (token_cons hb), sees_bind, hsees]
  exact bind_ok hlabel

/-- The first block is parsed up to its branch. -/
theorem block_br (o : Opening) {b l t : Token} (hb : b.terminal = .word .br)
    (hl : l.terminal = .word .label) (ht : t.terminal = .localName) :
    block (o.instrs.yield ++ b :: l :: t :: rest) =
      .ok ({ instrs := o.instrTrees, terminator := .br t.name }, rest) := by
  have hinstrs : fueled instrs (o.instrs.yield ++ b :: l :: t :: rest) =
      .ok (o.instrTrees, b :: l :: t :: rest) :=
    (Fueled.reads (instrs_reads _) (by omega)).complete o.instrs _ rfl
      (avoids_of_next (congrArg some hb) (by decide))
  rw [block, bind_ok hinstrs, bind_ok (terminator_br hb hl ht)]
  rfl

/-- **What is parsed of a definition is known up to its first branch.** The rest is up to the
blocks behind. -/
theorem item_opening (o : Opening) {b l t : Token} (hb : b.terminal = .word .br)
    (hl : l.terminal = .word .label) (ht : t.terminal = .localName) (rest : List Token) :
    item (o.tokens ++ b :: l :: t :: rest) =
      (do return o.item t.name (← fueled blocks)) rest := by
  have htype : type (o.ret.yield ++ (o.name :: (o.params.yield ++ (o.brace :: o.label ::
      (o.instrs.yield ++ b :: l :: t :: rest))))) = .ok (o.retTree, _) :=
    (type_reads _).complete o.ret _ rfl
      (avoids_of_next (congrArg some o.name_terminal) (by decide))
  have hparams : params (o.params.yield ++ (o.brace :: o.label ::
      (o.instrs.yield ++ b :: l :: t :: rest))) = .ok (o.paramsTree, _) :=
    (params_reads _).complete o.params _ rfl avoids_nil
  have hyield : o.tokens ++ b :: l :: t :: rest =
      o.define :: (o.ret.yield ++ o.name :: (o.params.yield ++ o.brace :: o.label ::
        (o.instrs.yield ++ b :: l :: t :: rest))) := by
    simp [Opening.tokens]
  have hnext (ts : List Token) : next (o.define :: ts) = some (.word .define) :=
    congrArg some o.define_terminal
  have hlabel (ts : List Token) : next (o.label :: ts) = some .labelDef :=
    congrArg some o.label_terminal
  rw [hyield, item, line_bind, peek_bind, hnext]
  dsimp only
  rw [word_bind, bind_ok (token_cons o.define_terminal), bind_ok htype, name_bind,
    bind_ok (token_cons o.name_terminal), bind_ok hparams, word_bind,
    bind_ok (token_cons o.brace_terminal), peek_bind, hlabel]
  dsimp only
  rw [name_bind, bind_ok (token_cons o.label_terminal), pure_bind,
    bind_ok (block_br o hb hl ht)]
  rfl

/-! ### The blocks behind -/

/-- A block begins with its label. -/
theorem exists_labelDef (d : Derivation (.rule .block)) :
    ∃ t us, d.yield = t :: us ∧ t.terminal = .labelDef ∧ t.name = (d.tree : String × BlockTree).1 :=
  match d with
  | .rule ⟨0, _⟩ (.seq (.token t ht) d) => ⟨t, d.yield, rfl, ht, rfl⟩

/-- Blocks that are read begin with the label of the first one. -/
theorem blocks_head {bs : List (String × BlockTree)} {b : String × BlockTree} {left : List Token}
    (h : fueled blocks ts = .ok (b :: bs, left)) :
    ∃ t us, ts = t :: us ∧ t.terminal = .labelDef ∧ t.name = b.1 := by
  obtain ⟨d, rfl, htree⟩ := (Fueled.reads (blocks_reads ts) (by omega)).sound _ _ h
  cases d with
  | seq ds brace =>
    cases ds with
    | nil => cases htree
    | cons d ds =>
      obtain ⟨t, us, hd, ht, hname⟩ := exists_labelDef d
      refine ⟨t, us ++ (ds.yield ++ (brace.yield ++ left)), ?_, ht, ?_⟩
      · simp [Derivation.yield, hd]
      · cases htree
        exact hname

/-- The blocks from the second one on, and the brace behind them. -/
def Closing.derivation (c : Closing) (t : Token) (ht : t.terminal = .labelDef) :
    Derivation (.seq (.star (.rule .block)) (.word .closeBrace)) :=
  .seq (.cons (.rule ⟨0, by decide⟩ (.seq (.token t ht) (.seq c.instrs c.terminator))) c.blocks)
    (.token c.brace c.brace_terminal)

/-- What is behind the label of the second block is read to its end. -/
theorem blocks_closing (c : Closing) {t : Token} (ht : t.terminal = .labelDef) :
    fueled blocks (t :: c.tokens) = .ok ((t.name, c.block) :: c.blockTrees, []) := by
  refine (Fueled.reads (blocks_reads _) (by omega)).complete (c.derivation t ht) [] ?_ avoids_nil
  simp [Closing.derivation, Derivation.yield, Closing.tokens]

/-! ### The module -/

/-- There is an item if there is a token. -/
theorem items_cons (fuel : Nat) (t : Token) :
    items (fuel + 1) (t :: ts) = (do return (← item) :: (← items fuel)) (t :: ts) := rfl

theorem parseItems_eq_ok {t : Token} {trees : List ItemTree}
    (h : parseItems (t :: ts) = .ok trees) :
    ∃ i is left, trees = i :: is ∧ item (t :: ts) = .ok (i, left) := by
  unfold parseItems at h
  split at h
  · next found left hrun =>
    cases h
    change items (_ + 1) (t :: ts) = _ at hrun
    rw [items_cons] at hrun
    obtain ⟨i, mid, hitem, hrun⟩ := bind_eq_ok.1 hrun
    obtain ⟨is, mid, -, hpure⟩ := bind_eq_ok.1 hrun
    cases hpure
    exact ⟨i, is, mid, rfl, hitem⟩
  · cases h

theorem parseItems_of_item {t : Token} {i : ItemTree} (h : item (t :: ts) = .ok (i, [])) :
    parseItems (t :: ts) = .ok [i] := by
  have hrun : fueled items (t :: ts) = .ok ([i], []) := by
    change items (_ + 1) (t :: ts) = _
    rw [items_cons, bind_ok h]
    rfl
  rw [parseItems, hrun]

/-- What is parsed begins with the definition, and its blocks are those behind the branch. -/
theorem parseItems_opening (o : Opening) {b l t : Token} (hb : b.terminal = .word .br)
    (hl : l.terminal = .word .label) (ht : t.terminal = .localName) {trees : List ItemTree}
    (h : parseItems (o.tokens ++ b :: l :: t :: rest) = .ok trees) :
    ∃ bs is left, trees = o.item t.name bs :: is ∧ fueled blocks rest = .ok (bs, left) := by
  obtain ⟨i, is, left, rfl, hitem⟩ := parseItems_eq_ok h
  change item (o.tokens ++ b :: l :: t :: rest) = _ at hitem
  rw [item_opening o hb hl ht] at hitem
  obtain ⟨bs, left, hblocks, hpure⟩ := bind_eq_ok.1 hitem
  cases hpure
  exact ⟨bs, is, left, rfl, hblocks⟩

/-- A definition is parsed if its second block has a label. -/
theorem parseItems_closing (o : Opening) (c : Closing) {b l t u : Token}
    (hb : b.terminal = .word .br) (hl : l.terminal = .word .label) (ht : t.terminal = .localName)
    (hu : u.terminal = .labelDef) :
    parseItems (o.tokens ++ b :: l :: t :: u :: c.tokens) =
      .ok [o.item t.name ((u.name, c.block) :: c.blockTrees)] := by
  refine parseItems_of_item ?_
  change item (o.tokens ++ b :: l :: t :: u :: c.tokens) = _
  rw [item_opening o hb hl ht, bind_ok (blocks_closing c hu)]
  rfl

/-! ### Building -/

namespace Build

variable {α β : Type} {s s' : Bodies} {m m' : Module} {f : Function}

theorem bind_eq_ok {p : Build α} {q : α → Build β} {r : β × Bodies} :
    (p >>= q) s = .ok r ↔ ∃ x mid, p s = .ok (x, mid) ∧ q x mid = .ok r := by
  have hrun : (p >>= q) s = p s >>= fun y => q y.1 y.2 := rfl
  rw [hrun]
  cases h : p s with
  | error _ => simp [bind, Except.bind]
  | ok y => simp [bind, Except.bind, Prod.ext_iff]

theorem bind_ok {p : Build α} {q : α → Build β} {x : α} {mid : Bodies} (h : p s = .ok (x, mid)) :
    (p >>= q) s = q x mid := by
  have hrun : (p >>= q) s = p s >>= fun y => q y.1 y.2 := rfl
  rw [hrun, h]
  rfl

/-- A block has the label it is built under, and ends as its tree does. -/
theorem block_eq_ok {label : String} {t : BlockTree} {b : Block}
    (h : block label t s = .ok (b, s')) : b.name = label ∧
      ∃ mid e, terminator t.terminator mid = .ok (e, s') ∧ b.terminator = some e := by
  obtain ⟨is, mid, -, h⟩ := bind_eq_ok.1 h
  obtain ⟨e, mid', he, h⟩ := bind_eq_ok.1 h
  cases h
  exact ⟨rfl, mid, e, he, rfl⟩

/-- Blocks have the labels of their trees. -/
theorem blocks_names {ts : List (String × BlockTree)} {bs : List Block}
    (h : blocks ts s = .ok (bs, s')) : bs.map Block.name = ts.map Prod.fst := by
  induction ts generalizing s bs with
  | nil =>
    cases h
    rfl
  | cons t ts ih =>
    obtain ⟨b, mid, hb, h⟩ := bind_eq_ok.1 h
    obtain ⟨bs, mid', hbs, h⟩ := bind_eq_ok.1 h
    cases h
    rw [List.map_cons, List.map_cons, (block_eq_ok hb).1, ih hbs]

/-- A function has its blocks in the order of their trees. -/
theorem function_eq_ok {line : Nat} {head : Function} {label : Option String} {first : BlockTree}
    {others : List (String × BlockTree)}
    (h : function line head label first others s = .ok (f, s')) :
    ∃ b bs mid, block (label.getD (entryLabel head.params)) first s = .ok (b, mid) ∧
      blocks others mid = .ok (bs, s') ∧ f.blocks = some (b :: bs) := by
  obtain ⟨b, mid, hb, h⟩ := bind_eq_ok.1 h
  obtain ⟨bs, mid', hbs, h⟩ := bind_eq_ok.1 h
  split at h
  · cases h
    exact ⟨b, bs, mid, hb, hbs, rfl⟩
  · cases h

theorem repeated_eq_nil {xs : List String} (h : xs.Nodup) : repeated xs = [] := by
  have hnone : xs.filter (fun x => decide (1 < xs.count x)) = [] :=
    List.filter_eq_nil_iff.2 fun x _ => by simpa using List.nodup_iff_count_le_one.1 h x
  rw [repeated, hnone, firsts, List.foldl_nil, sorted, List.mergeSort_nil]

/-- A function is built of blocks with different labels. -/
theorem function_ok (line : Nat) (head : Function) {label : String} {first : BlockTree}
    {others : List (String × BlockTree)} {mid : Bodies} {b : Block} {bs : List Block}
    (hb : block label first s = .ok (b, mid)) (hbs : blocks others mid = .ok (bs, s'))
    (hnodup : (label :: others.map Prod.fst).Nodup) :
    function line head (some label) first others s =
      .ok ({ head with blocks := some (b :: bs) }, s') := by
  have hnames : (b :: bs).map Block.name = label :: others.map Prod.fst := by
    rw [List.map_cons, (block_eq_ok hb).1, blocks_names hbs]
  rw [function, Option.getD_some, bind_ok hb, bind_ok hbs, hnames, repeated_eq_nil hnodup]
  rfl

/-- An item comes behind the functions that are there. -/
theorem item_functions {i : ItemTree} (h : item m i s = .ok (m', s')) :
    m.functions <+: m'.functions := by
  cases i with
  | typeDef line name body =>
    obtain ⟨_, _, -, h⟩ := bind_eq_ok.1 h
    cases h
    exact List.prefix_refl _
  | globalDef name constant t init =>
    obtain ⟨_, _, -, h⟩ := bind_eq_ok.1 h
    obtain ⟨_, _, -, h⟩ := bind_eq_ok.1 h
    cases h
    exact List.prefix_refl _
  | externGlobal name constant t =>
    obtain ⟨_, _, -, h⟩ := bind_eq_ok.1 h
    cases h
    exact List.prefix_refl _
  | declare ret name ps =>
    obtain ⟨_, _, -, h⟩ := bind_eq_ok.1 h
    cases h
    exact List.prefix_append _ _
  | define line ret name ps label first others =>
    obtain ⟨_, _, -, h⟩ := bind_eq_ok.1 h
    obtain ⟨_, _, -, h⟩ := bind_eq_ok.1 h
    cases h
    exact List.prefix_append _ _

theorem items_functions {is : List ItemTree} (h : items m is s = .ok (m', s')) :
    m.functions <+: m'.functions := by
  induction is generalizing m s with
  | nil =>
    cases h
    exact List.prefix_refl _
  | cons i is ih =>
    obtain ⟨_, _, hi, h⟩ := bind_eq_ok.1 h
    exact (item_functions hi).trans (ih h)

/-- What is built first of a definition is its function. -/
theorem module_define {name : String} {line : Nat} {ret : TypeTree} {fname : String}
    {ps : ParamsTree} {label : Option String} {first : BlockTree}
    {others : List (String × BlockTree)} {is : List ItemTree}
    (h : Build.module name (.define line ret fname ps label first others :: is) = .ok m) :
    ∃ head mid f s', function line head label first others mid = .ok (f, s') ∧
      m.functions.head? = some f := by
  unfold Build.module at h
  split at h
  · next found bodies hrun =>
    cases h
    obtain ⟨start, mid, hitem, hrun⟩ := bind_eq_ok.1 hrun
    obtain ⟨head, mid', -, hitem⟩ := bind_eq_ok.1 hitem
    obtain ⟨f, s', hf, hitem⟩ := bind_eq_ok.1 hitem
    cases hitem
    obtain ⟨later, hlater⟩ := items_functions hrun
    exact ⟨head, mid', f, _, hf, by simp [← hlater]⟩
  · cases h

/-- A module is built of one definition. -/
theorem module_of_define (name : String) {line : Nat} {ret : TypeTree} {fname : String}
    {ps : ParamsTree} {label : Option String} {first : BlockTree}
    {others : List (String × BlockTree)} {head : Function} {mid : Bodies}
    (hhead : header ret fname ps {} = .ok (head, mid))
    (hf : function line head label first others mid = .ok (f, s')) :
    Build.module name [.define line ret fname ps label first others] =
      .ok { name, functions := [f], bodies := s' } := by
  have hitem : item { name } (.define line ret fname ps label first others) {} =
      .ok ({ name, functions := [f] }, s') := by
    rw [item, bind_ok hhead, bind_ok hf]
    rfl
  rw [Build.module, items, bind_ok hitem]
  rfl

end Build

end GoLift.Source
