import GoLift.Proofs.Function.Prevented
import GoLift.Proofs.Source.Agreement

/-!
# Modules that are read are complete

What is built of a text is ready for all that comes later: **there is one function for each that is
declared or defined, in the order of the text, and the defined ones are complete**
(`readModule_complete`). They have a block to begin with, no two of their labels are the same,
however they are spelled, and each block has an end. So no complaint about anything of this kind
can come up later.

The relations `InstrOf`, `BlockOf` and `FunctionOf` say what is built of a tree.
-/

set_option autoImplicit false

namespace GoLift.Source

/-! ### What is built of a tree -/

/-- The name that an instruction assigns to. -/
def InstrTree.dest? : InstrTree → Option String
  | .assign dest _ => some dest
  | .store .. | .call _ => none

/-- Is a function declared or defined? -/
def ItemTree.isFunction : ItemTree → Bool
  | .declare .. | .define .. => true
  | _ => false

/-- An instruction of a known kind that makes a binding, or none. -/
structure Makes (dest : Option String) (i : Instr) : Prop where
  known : i.isKnown = true
  dest : i.dest? = dest

/-- An instruction makes the binding that it is written to make. -/
abbrev InstrOf (t : InstrTree) (i : Instr) : Prop := Makes t.dest? i

/-- A block with a label, the instructions of a tree, and an end. -/
structure BlockOf (label : String) (t : BlockTree) (b : Block) : Prop where
  name : b.name = label
  instrs : List.Forall₂ InstrOf t.instrs b.instrs
  ends : ∃ e, b.terminator = some e ∧ e.isKnown = true

/-- A function without blocks for a declaration, and one with blocks for a definition, under
different labels. The first block may be written without one. -/
inductive FunctionOf : ItemTree → Function → Prop
  | declare {ret : TypeTree} {ps : ParamsTree} {f : Function} (hblocks : f.blocks = none) :
      FunctionOf (.declare ret f.name ps) f
  | define {line : Nat} {ret : TypeTree} {ps : ParamsTree} {label : Option String}
      {first : BlockTree} {rest : List (String × BlockTree)} {f : Function} {b : Block}
      {bs : List Block} (hblocks : f.blocks = some (b :: bs))
      (hfirst : BlockOf (label.getD (Build.entryLabel f.params)) first b)
      (hrest : List.Forall₂ (fun t b => BlockOf t.1 t.2 b) rest bs)
      (hlabels : ((b :: bs).map Block.name).Nodup) :
      FunctionOf (.define line ret f.name ps label first rest) f

theorem BlockOf.complete {label : String} {t : BlockTree} {b : Block} (h : BlockOf label t b) :
    b.Complete where
  ends := h.ends
  known i hi := by
    obtain ⟨t, -, hit⟩ := mem_of_forall₂ h.instrs.flip hi
    exact hit.known

/-- **What is built of a declaration or a definition is complete.** -/
theorem FunctionOf.complete {t : ItemTree} {f : Function} (h : FunctionOf t f) : f.Complete := by
  cases h with
  | declare hblocks => constructor <;> simp [Function.body, hblocks]
  | define hblocks hfirst hrest hlabels =>
    constructor
    · simp only [Function.body, hblocks, Option.getD_some, List.forall_mem_cons]
      refine ⟨hfirst.complete, fun b hb => ?_⟩
      obtain ⟨t, -, hbt⟩ := mem_of_forall₂ hrest.flip hb
      exact hbt.complete
    · simpa only [Function.body, hblocks, Option.getD_some] using hlabels

/-! ### Instructions as they are written -/

/-- The name in front of the equals sign, if the tokens of an instruction begin with one. -/
def written : List Token → Option String
  | t :: u :: _ =>
    if t.terminal = .localName ∧ u.terminal = .word .equals then some t.name else none
  | _ => none

theorem written_of_ne {t : Token} {us : List Token} (ht : t.terminal ≠ .localName) :
    written (t :: us) = none := by
  cases us with
  | nil => rfl
  | cons u us => simp [written, ht]

/-- An instruction assigns exactly if it is written with a name and an equals sign in front. -/
theorem dest?_written :
    (d : Derivation (.rule .instruction)) → InstrTree.dest? d.tree = written d.yield
  | .rule ⟨0, _⟩ (.seq (.token t ht) (.seq (.token u hu) d)) => by
    simp [Derivation.tree, Derivation.yield, Rule.alternatives, written, ht, hu, InstrTree.dest?]
  | .rule ⟨1, _⟩ (.seq (.token t ht) d) => (written_of_ne (by simp [ht])).symm
  | .rule ⟨2, _⟩ (.rule ⟨0, _⟩ (.seq (.token t ht) d)) => (written_of_ne (by simp [ht])).symm

/-! ### Building -/

/-- A list without repeated members repeats none. -/
theorem nodup_of_repeated {xs : List String} (h : repeated xs = []) : xs.Nodup := by
  rw [List.nodup_iff_count_le_one]
  intro x
  by_contra hcount
  have hmem : x ∈ repeated xs := by
    refine mem_sorted.2 (mem_firsts.2 (List.mem_filter.2 ⟨?_, by simpa using hcount⟩))
    exact List.count_pos_iff.1 (by omega)
  rw [h] at hmem
  cases hmem

namespace Build

variable {α β : Type}

/-- Every result of building has a property. -/
def Ensures (p : Build α) (P : α → Prop) : Prop :=
  ∀ s x s', p s = .ok (x, s') → P x

namespace Ensures

variable {P : α → Prop} {Q : β → Prop} {p : Build α} {q : α → Build β}

theorem pure {x : α} (h : P x) : Ensures (Pure.pure x) P := by
  intro s y s' hy
  cases hy
  exact h

theorem bind (hp : Ensures p P) (hq : ∀ x, P x → Ensures (q x) Q) : Ensures (p >>= q) Q := by
  intro s y s' h
  obtain ⟨x, mid, hx, hy⟩ := bind_eq_ok.1 h
  exact hq x (hp _ _ _ hx) _ _ _ hy

/-- A property that does not depend on what the first part gives. -/
theorem after (hq : ∀ x, Ensures (q x) Q) : Ensures (p >>= q) Q := by
  intro s y s' h
  obtain ⟨x, mid, -, hy⟩ := bind_eq_ok.1 h
  exact hq x _ _ _ hy

end Ensures

theorem ensures_call (dest : Option String) (c : CallTree) : Ensures (call dest c) (Makes dest) :=
  .after fun _ => .after fun _ => .after fun _ => .pure ⟨rfl, rfl⟩

theorem ensures_op (dest : String) (o : OpTree) : Ensures (op dest o) (Makes (some dest)) := by
  cases o with
  | call c => exact ensures_call (some dest) c
  | alloca t count =>
    cases count with
    | none => exact .after fun _ => .after fun _ => .pure ⟨rfl, rfl⟩
    | some c => exact .after fun _ => .after fun _ => .after fun _ => .pure ⟨rfl, rfl⟩
  | load | cast | phi => exact .after fun _ => .after fun _ => .pure ⟨rfl, rfl⟩
  | binary | icmp | fcmp | select | gep =>
    exact .after fun _ => .after fun _ => .after fun _ => .pure ⟨rfl, rfl⟩

/-- **An instruction is of a known kind, and makes the binding that it is written to make.** -/
theorem ensures_instr (t : InstrTree) : Ensures (instr t) (InstrOf t) := by
  cases t with
  | assign dest o => exact ensures_op dest o
  | store v p =>
    cases v
    exact .after fun _ => .after fun _ => .after fun _ => .pure ⟨rfl, rfl⟩
  | call c => exact ensures_call none c

theorem ensures_instrs : ∀ ts, Ensures (instrs ts) (List.Forall₂ InstrOf ts)
  | [] => .pure .nil
  | t :: ts =>
    (ensures_instr t).bind fun _ h => (ensures_instrs ts).bind fun _ hs => .pure (.cons h hs)

theorem ensures_terminator (t : TerminatorTree) : Ensures (terminator t) (·.isKnown = true) := by
  cases t with
  | ret line type value =>
    cases value with
    | none =>
      refine .after fun t => ?_
      split
      · exact .pure rfl
      · intro s x s' h
        cases h
    | some v => exact .after fun _ => .after fun _ => .pure rfl
  | br target => exact .pure rfl
  | condBr => exact .after fun _ => .after fun _ => .pure rfl
  | switch => exact .after fun _ => .after fun _ => .after fun _ => .pure rfl
  | unreachable => exact .pure rfl

theorem ensures_block (label : String) (t : BlockTree) :
    Ensures (block label t) (BlockOf label t) :=
  (ensures_instrs t.instrs).bind fun _ his => (ensures_terminator t.terminator).bind fun _ he =>
    .pure ⟨rfl, his, _, rfl, he⟩

theorem ensures_blocks : ∀ ts, Ensures (blocks ts) (List.Forall₂ (fun t b => BlockOf t.1 t.2 b) ts)
  | [] => .pure .nil
  | (label, t) :: ts =>
    (ensures_block label t).bind fun _ h => (ensures_blocks ts).bind fun _ hs => .pure (.cons h hs)

/-- A function is built under different labels, or not at all. -/
theorem ensures_function (line : Nat) (head : Function) (label : Option String) (first : BlockTree)
    (rest : List (String × BlockTree)) :
    Ensures (function line head label first rest) (fun f => ∃ b bs,
      f = { head with blocks := some (b :: bs) } ∧
      BlockOf (label.getD (entryLabel head.params)) first b ∧
      List.Forall₂ (fun t b => BlockOf t.1 t.2 b) rest bs ∧ ((b :: bs).map Block.name).Nodup) := by
  refine (ensures_block _ first).bind fun b hb => (ensures_blocks rest).bind fun bs hbs => ?_
  dsimp only
  split
  · next hnone => exact .pure ⟨b, bs, rfl, hb, hbs, nodup_of_repeated (List.isEmpty_iff.1 hnone)⟩
  · intro s x s' h
    cases h

theorem ensures_header (ret : TypeTree) (name : String) (ps : ParamsTree) :
    Ensures (header ret name ps) (fun f => f.name = name ∧ f.blocks = none) :=
  .after fun _ => .after fun _ => .pure ⟨rfl, rfl⟩

/-- **An item adds the function that it declares or defines**, and otherwise none. -/
theorem ensures_item (m : Module) (t : ItemTree) :
    Ensures (item m t) (fun m' => ∃ fs, m'.functions = m.functions ++ fs ∧
      List.Forall₂ FunctionOf ([t].filter ItemTree.isFunction) fs) := by
  cases t with
  | typeDef line name body => exact .after fun _ => .pure ⟨[], by simp, .nil⟩
  | globalDef name constant t init =>
    exact .after fun _ => .after fun _ => .pure ⟨[], by simp, .nil⟩
  | externGlobal name constant t => exact .after fun _ => .pure ⟨[], by simp, .nil⟩
  | declare ret name ps =>
    refine (ensures_header ret name ps).bind fun f hf => .pure ⟨[f], rfl, ?_⟩
    obtain ⟨rfl, hblocks⟩ := hf
    exact .cons (.declare hblocks) .nil
  | define line ret name ps label first rest =>
    refine (ensures_header ret name ps).bind fun head hhead =>
      (ensures_function line head label first rest).bind fun f hf => .pure ⟨[f], rfl, ?_⟩
    obtain ⟨rfl, -⟩ := hhead
    obtain ⟨b, bs, rfl, hfirst, hrest, hlabels⟩ := hf
    exact .cons (.define (f := { head with blocks := some (b :: bs) }) rfl hfirst hrest hlabels)
      .nil

theorem ensures_items : ∀ (ts : List ItemTree) (m : Module),
    Ensures (items m ts) (fun m' => ∃ fs, m'.functions = m.functions ++ fs ∧
      List.Forall₂ FunctionOf (ts.filter ItemTree.isFunction) fs)
  | [], m => .pure ⟨[], by simp, .nil⟩
  | t :: ts, m => by
    refine (ensures_item m t).bind fun m₁ h₁ => ?_
    intro s m' s' h
    obtain ⟨fs, hm₁, hfs⟩ := h₁
    obtain ⟨gs, hm', hgs⟩ := ensures_items ts m₁ s m' s' h
    refine ⟨fs ++ gs, by rw [hm', hm₁, List.append_assoc], ?_⟩
    rw [← List.singleton_append, List.filter_append]
    exact List.rel_append hfs hgs

/-- The functions of a module are those of its items. -/
theorem module_functions {name : String} {ts : List ItemTree} {m : Module}
    (h : Build.module name ts = .ok m) :
    List.Forall₂ FunctionOf (ts.filter ItemTree.isFunction) m.functions := by
  unfold Build.module at h
  split at h
  · next m' bodies hrun =>
    cases h
    obtain ⟨fs, hm', hfs⟩ := ensures_items ts _ _ _ _ hrun
    obtain rfl : m'.functions = fs := hm'
    exact hfs
  · cases h

end Build

/-! ### Modules -/

/-- A text is parsed by a derivation from the rule of modules. -/
theorem exists_derivation {text : List Char} {trees : List ItemTree}
    (h : parseText text = .ok trees) :
    ∃ d : Derivation (.rule .module), lex text = ⟨d.yield, none⟩ ∧ d.tree = trees := by
  obtain ⟨hstop, hparse⟩ := parseText_eq_ok h
  unfold parseItems at hparse
  split at hparse
  · next found rest hrun =>
    cases hparse
    obtain rfl := items_rest _ _ _ _ hrun
    obtain ⟨d, hd, htree⟩ := (module_reads _).sound _ _ hrun
    rw [List.append_nil] at hd
    refine ⟨d, ?_, htree⟩
    rw [← hd, ← hstop]
  · cases hparse

/-- **What is read is complete.** A module has one function for each that is declared or defined, in
the order of the text; a definition has blocks under different labels, each with an end of a known
kind and with the instructions that are written in it, which make a binding exactly if they are
written to. So predecessors can only be missing for a label that no block carries, and none of the
complaints about unknown kinds, missing ends or labels that come twice is ever made: not when the
blocks are entered, and not in any other phase. -/
theorem readModule_complete {name : String} {text : List Char} {m : Module}
    (h : readModule name text = .ok m) :
    (∃ d : Derivation (.rule .module), lex (normalText text) = ⟨d.yield, none⟩ ∧
      List.Forall₂ FunctionOf ((d.tree : List ItemTree).filter ItemTree.isFunction) m.functions) ∧
    (∀ d : Derivation (.rule .instruction), InstrTree.dest? d.tree = written d.yield) ∧
    ∀ f ∈ m.functions,
      (∀ e, Flow.predecessors f.body = .error e →
        ∃ b ∈ f.body, ∃ l ∈ b.targets, l ∉ f.body.map Block.name ∧
          e = (Cause.unknownTarget b.name l).fault) ∧
      (∀ scope buffers d e D, Registry.seed scope buffers f.body d = (.error e, D) →
        e.isPrevented = false) ∧
      ∀ globals feeds, (∀ e, feeds f.name = .error e → e.isPrevented = false) →
        ∀ e, (f.decompile globals feeds).1 = .error e → e.isPrevented = false := by
  obtain ⟨trees, hparse, hbuild⟩ := readModule_eq_ok h
  obtain ⟨d, hlex, rfl⟩ := exists_derivation hparse
  have hfunctions := Build.module_functions hbuild
  refine ⟨⟨d, hlex, hfunctions⟩, dest?_written, fun f hf => ?_⟩
  obtain ⟨t, -, ht⟩ := mem_of_forall₂ hfunctions.flip hf
  have hcomplete := FunctionOf.complete ht
  refine ⟨fun e he => predecessors_of_complete hcomplete.blocks he, ?_, ?_⟩
  · intro scope buffers d e D hseed
    exact Registry.clear_seed hcomplete.blocks hcomplete.labels d e D hseed
  · intro globals feeds hfeeds e he
    exact hcomplete.decompile_error hfeeds he

/-- A declaration, and a definition whose first block is written without a label and whose second
one is named in quotation marks once. -/
def quotedText : List Char :=
  "declare i1 @g()\ndefine void @f(i1 %0) \x7b\nbr label %\"b\"\nb:ret void\n\x7d".toList

/-- Both are read, the first block is called by the next number, and no phase of the definition
complains about its labels. -/
theorem quotedText_complete : ∃ m, readModule "m" quotedText = .ok m ∧
    m.functions.map (fun f => (f.name, f.body.map Block.name)) = [("g", []), ("f", ["1", "b"])] ∧
    ∀ f ∈ m.functions, ∀ prims e,
      (f.decompile [] fun _ => .ok prims).1 = .error e → e.isPrevented = false := by
  have hread : (readModule "m" quotedText).toOption.map (fun m =>
      m.functions.map fun f => (f.name, f.body.map Block.name)) =
        some [("g", []), ("f", ["1", "b"])] := by
    decide +kernel
  rcases h : readModule "m" quotedText with e | m
  · rw [h] at hread
    cases hread
  · rw [h] at hread
    obtain ⟨-, -, hfunctions⟩ := readModule_complete h
    refine ⟨m, rfl, Option.some.inj hread, fun f hf prims e he => ?_⟩
    exact (hfunctions f hf).2.2 [] (fun _ => .ok prims) nofun e he

end GoLift.Source
