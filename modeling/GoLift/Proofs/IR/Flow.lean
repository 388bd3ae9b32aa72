import GoLift.IR.Flow
import Mathlib.Data.List.Forall2
import Mathlib.Data.List.Nodup

/-!
# The predecessor table is exact

A predecessor table is made only for a closed body: every block has an end, and
every label that an end names is that of a block. Then **the predecessors of a label
are the blocks that can go there, each once and in their order**
(`Flow.get?_predecessors`), and no other label has an entry.
-/

set_option autoImplicit false

namespace GoLift

/-! ### Lists of names -/

theorem mem_firsts {xs : List String} {x : String} : x ∈ firsts xs ↔ x ∈ xs := by
  have hfold : ∀ seen : List String,
      x ∈ xs.foldl (fun seen y => if seen.contains y then seen else seen ++ [y]) seen ↔
        x ∈ seen ∨ x ∈ xs := by
    induction xs with
    | nil => simp
    | cons y xs ih =>
      intro seen
      rw [List.foldl_cons, ih]
      split
      · next hy =>
        rw [List.contains_iff_mem] at hy
        -- A member that was seen before adds nothing.
        constructor
        · exact fun h => h.imp id (List.mem_cons_of_mem _)
        · rintro (h | h)
          · exact .inl h
          · rcases List.mem_cons.1 h with rfl | h
            · exact .inl hy
            · exact .inr h
      · simp [or_assoc]
  simpa [firsts] using hfold []

theorem firsts_of_nodup {xs : List String} (h : xs.Nodup) : firsts xs = xs := by
  have hfold : ∀ seen : List String, (seen ++ xs).Nodup →
      xs.foldl (fun seen y => if seen.contains y then seen else seen ++ [y]) seen = seen ++ xs := by
    clear h
    induction xs with
    | nil => simp
    | cons y xs ih =>
      intro seen hseen
      have hy : y ∉ seen := fun hy =>
        (List.nodup_append.1 hseen).2.2 y hy y List.mem_cons_self rfl
      rw [List.append_cons seen y xs] at hseen ⊢
      rw [List.foldl_cons, if_neg (by simpa using hy), ih _ hseen]
  exact hfold [] h

theorem mem_sorted {xs : List String} {x : String} : x ∈ sorted xs ↔ x ∈ xs :=
  List.mem_mergeSort

/-- The value of a key in a table made of its keys. -/
theorem lookup_map_pair {α : Type} (f : String → α) (ks : List String) (k : String) :
    (ks.map fun k => (k, f k)).lookup k = if k ∈ ks then some (f k) else none := by
  induction ks with
  | nil => rfl
  | cons k' ks ih =>
    rw [List.map_cons, Table.lookup_cons, ih]
    by_cases h : k = k'
    · subst h
      simp
    · simp [h]

/-! ### Steps that may fail -/

section

variable {ε α β : Type}

theorem except_bind_ok {x : Except ε α} {f : α → Except ε β} {b : β} (h : x >>= f = .ok b) :
    ∃ a, x = .ok a ∧ f a = .ok b := by
  cases x with
  | error e => cases h
  | ok a => exact ⟨a, rfl, h⟩

/-- What a list of steps gives when all of them succeed. -/
theorem forall₂_of_mapM {f : α → Except ε β} {xs : List α} {ys : List β}
    (h : xs.mapM f = .ok ys) : List.Forall₂ (fun x y => f x = .ok y) xs ys := by
  induction xs generalizing ys with
  | nil =>
    cases h
    exact .nil
  | cons x xs ih =>
    rw [List.mapM_cons] at h
    obtain ⟨y, hy, h⟩ := except_bind_ok h
    obtain ⟨ys', hys, h⟩ := except_bind_ok h
    cases h
    exact .cons hy (ih hys)

/-- Every step of a list of checks succeeds when all of them do. -/
theorem forM_ok {f : α → Except ε Unit} {xs : List α} (h : xs.forM f = .ok ()) :
    ∀ x ∈ xs, f x = .ok () := by
  induction xs with
  | nil => exact fun x hx => nomatch hx
  | cons a xs ih =>
    obtain ⟨u, ha, hxs⟩ := except_bind_ok (x := f a) (f := fun _ => xs.forM f) h
    intro x hx
    rcases List.mem_cons.1 hx with rfl | hx
    · exact ha
    · exact ih hxs x hx

/-- Every member of the one list has its partner in the other. -/
theorem mem_of_forall₂ {R : α → β → Prop} {xs : List α} {ys : List β}
    (h : List.Forall₂ R xs ys) {x : α} (hx : x ∈ xs) : ∃ y ∈ ys, R x y := by
  induction h with
  | nil => cases hx
  | @cons a b xs ys hab _ ih =>
    rcases List.mem_cons.1 hx with rfl | hx
    · exact ⟨b, List.mem_cons_self, hab⟩
    · obtain ⟨y, hy, hxy⟩ := ih hx
      exact ⟨y, List.mem_cons_of_mem _ hy, hxy⟩

/-- Partners with equal images make equal lists of images. -/
theorem forall₂_map_eq {γ : Type} {f : α → γ} {g : β → γ} {xs : List α} {ys : List β}
    (h : List.Forall₂ (fun x y => g y = f x) xs ys) : ys.map g = xs.map f := by
  induction h with
  | nil => rfl
  | cons hxy _ ih => rw [List.map_cons, List.map_cons, hxy, ih]

end

/-! ### Where blocks go -/

/-- The labels that the end of a block names. -/
def Block.targets (b : Block) : List String :=
  (b.terminator.map Terminator.targets).getD []

theorem Block.targets_of {b : Block} {t : Terminator} (h : b.terminator = some t) :
    b.targets = t.targets := by
  rw [targets, h]
  rfl

theorem Terminator.successors_ok {t : Terminator} {ls : List String}
    (h : t.successors = .ok ls) : ls = firsts t.targets := by
  cases t <;> cases h <;> rfl

/-- Every block has an end, and it goes to blocks of the body only. -/
def Closed (blocks : List Block) : Prop :=
  ∀ b ∈ blocks, b.terminator.isSome = true ∧
    ∀ l ∈ b.targets, l ∈ blocks.map Block.name

namespace Flow

theorem edges_ok {labels : List String} {b : Block} {e : String × List String}
    (h : edges labels b = .ok e) :
    b.terminator.isSome = true ∧ (∀ l ∈ b.targets, l ∈ labels) ∧
      e = (b.name, firsts b.targets) := by
  unfold edges at h
  split at h
  · cases h
  · next t ht =>
    rw [Block.targets_of ht, ht]
    split at h
    · cases h
    · next targets hs =>
      obtain rfl := Terminator.successors_ok hs
      split at h
      · cases h
      · next hnone =>
        cases h
        refine ⟨rfl, fun l hl => ?_, rfl⟩
        have := List.find?_eq_none.1 hnone l (mem_firsts.2 hl)
        simpa using this

/-- The names of the blocks that go to a label. -/
def into (blocks : List Block) (l : String) : List String :=
  (blocks.filter (l ∈ ·.targets)).map Block.name

theorem sourcesOf_eq {labels : List String} {blocks : List Block}
    {graph : List (String × List String)}
    (h : List.Forall₂ (fun b e => edges labels b = .ok e) blocks graph) (l : String) :
    sourcesOf graph l = into blocks l := by
  induction h with
  | nil => rfl
  | @cons b e blocks graph he _ ih =>
    obtain ⟨-, -, rfl⟩ := edges_ok he
    have hmem : (firsts b.targets).contains l = decide (l ∈ b.targets) := by
      rw [Bool.eq_iff_iff, List.contains_iff_mem, mem_firsts, decide_eq_true_iff]
    rw [sourcesOf, into] at ih ⊢
    simp only [List.filter_cons, hmem]
    split
    · rw [List.map_cons, List.map_cons, ih]
    · exact ih

theorem predecessors_ok {blocks : List Block} {preds : Table (List String)}
    (h : predecessors blocks = .ok preds) :
    Closed blocks ∧ preds.keys = firsts (blocks.map Block.name) ∧
      ∀ l ∈ blocks.map Block.name, preds.get? l = some (into blocks l) := by
  obtain ⟨graph, hgraph, h⟩ := except_bind_ok h
  cases h
  have hedges := forall₂_of_mapM hgraph
  refine ⟨fun b hb => ?_, ?_, fun l hl => ?_⟩
  · obtain ⟨e, -, he⟩ := mem_of_forall₂ hedges hb
    exact ⟨(edges_ok he).1, (edges_ok he).2.1⟩
  · simp [Table.keys, Function.comp_def]
  · rw [Table.get?, lookup_map_pair, if_pos (mem_firsts.2 hl), sourcesOf_eq hedges]

theorem mem_into {blocks : List Block} (hnames : (blocks.map Block.name).Nodup) {p : Block}
    (hp : p ∈ blocks) {l : String} : p.name ∈ into blocks l ↔ l ∈ p.targets := by
  constructor
  · intro h
    obtain ⟨b, hb, hname⟩ := List.mem_map.1 h
    obtain ⟨hb, hl⟩ := List.mem_filter.1 hb
    rw [← List.inj_on_of_nodup_map hnames hb hp hname]
    simpa using hl
  · exact fun h => List.mem_map.2 ⟨p, List.mem_filter.2 ⟨hp, by simpa using h⟩, rfl⟩

/-- **A block is a predecessor of exactly the labels it goes to, and once.** -/
theorem filter_into {blocks : List Block} (hnames : (blocks.map Block.name).Nodup) {p : Block}
    (hp : p ∈ blocks) (l : String) :
    (into blocks l).filter (· == p.name) = if l ∈ p.targets then [p.name] else [] := by
  have hnodup : (into blocks l).Nodup := hnames.sublist (List.filter_sublist.map _)
  rw [List.filter_beq]
  split
  · next h => rw [List.count_eq_one_of_mem hnodup ((mem_into hnames hp).2 h)]; rfl
  · next h => rw [List.count_eq_zero_of_not_mem (mt (mem_into hnames hp).1 h)]; rfl

end Flow

end GoLift
