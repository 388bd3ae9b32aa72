import GoLift.Proofs.Decompile
import GoLift.Proofs.Region.History
import Mathlib.Data.String.Basic

/-!
# The order in which roles are stored

A primitive keeps its roles in a table, and a table remembers the order in which its keys were
entered. Nothing that is done with a primitive shows that order: primitives that differ in it
only (`Primitive.Alike`) are described alike, applied alike and refused alike
(`Primitive.roles_order_unseen`).

**The roles are read in two ways only**, as the members in the order of visit and as the required
roles that nothing fills. Both are the same for primitives that are alike: a look-up does not
depend on the order of the entries, and the roles beside those of the kind are sorted. All else is
read off the kind, the node and these two, which is what `Primitive.Alike.build_eq` and the
equations behind it say, one for each function that is handed a primitive.
-/

set_option autoImplicit false

namespace GoLift

/-! ### Tables with the same entries -/

/-- The same entries, in whatever order, with a value for each key. -/
structure Table.Reordered {α : Type} (t t' : Table α) : Prop where
  nodup : t.keys.Nodup
  perm : t.entries.Perm t'.entries

namespace Table.Reordered

variable {α : Type} {t t' : Table α}

/-- In a list without a key that comes twice, an entry is found by its key. -/
theorem lookup_eq_some_iff {es : List (String × α)} (h : (es.map Prod.fst).Nodup) {k : String}
    {a : α} : es.lookup k = some a ↔ (k, a) ∈ es := by
  induction es with
  | nil => simp
  | cons e es ih =>
    obtain ⟨hne, hnodup⟩ := List.nodup_cons.1 h
    rw [Table.lookup_cons, List.mem_cons]
    by_cases hk : k = e.1
    · subst hk
      have habsent : (e.1, a) ∉ es := fun hmem =>
        hne (List.mem_map.2 ⟨(e.1, a), hmem, rfl⟩)
      simp [Prod.ext_iff, habsent, eq_comm]
    · simp [hk, ih hnodup, Prod.ext_iff]

theorem get?_eq (h : t.Reordered t') (k : String) : t.get? k = t'.get? k := by
  have hnodup' : t'.keys.Nodup := (h.perm.map Prod.fst).nodup_iff.1 h.nodup
  refine Option.ext fun a => ?_
  rw [Table.get?, Table.get?, lookup_eq_some_iff h.nodup, lookup_eq_some_iff hnodup',
    h.perm.mem_iff]

theorem contains_eq (h : t.Reordered t') (k : String) : t.contains k = t'.contains k := by
  rw [Table.contains, Table.contains, h.get?_eq]

end Table.Reordered

/-! ### Primitives that are alike -/

namespace Primitive

theorem roleLE_total (a b : String × String) : (roleLE a b || roleLE b a) = true := by
  simp only [roleLE, Bool.or_eq_true, Bool.and_eq_true, decide_eq_true_eq, beq_iff_eq]
  rcases lt_trichotomy a.1 b.1 with h | h | h
  · exact .inl (.inl h)
  · rcases le_total a.2 b.2 with h' | h'
    · exact .inl (.inr ⟨h, h'⟩)
    · exact .inr (.inr ⟨h.symm, h'⟩)
  · exact .inr (.inl h)

theorem roleLE_trans (a b c : String × String) (hab : roleLE a b = true)
    (hbc : roleLE b c = true) : roleLE a c = true := by
  simp only [roleLE, Bool.or_eq_true, Bool.and_eq_true, decide_eq_true_eq, beq_iff_eq] at hab hbc ⊢
  rcases hab with hab | ⟨hab, hab'⟩ <;> rcases hbc with hbc | ⟨hbc, hbc'⟩
  · exact .inl (hab.trans hbc)
  · exact .inl (hbc ▸ hab)
  · exact .inl (hab ▸ hbc)
  · exact .inr ⟨hab.trans hbc, hab'.trans hbc'⟩

theorem roleLE_antisymm (a b : String × String) (hab : roleLE a b = true)
    (hba : roleLE b a = true) : a = b := by
  simp only [roleLE, Bool.or_eq_true, Bool.and_eq_true, decide_eq_true_eq, beq_iff_eq] at hab hba
  rcases hab with hab | ⟨hab, hab'⟩ <;> rcases hba with hba | ⟨hba, hba'⟩
  · exact absurd hba hab.not_gt
  · exact absurd hba hab.ne'
  · exact absurd hab hba.ne'
  · exact Prod.ext hab (le_antisymm hab' hba')

/-- Sorting roles forgets the order that they had. -/
theorem mergeSort_roleLE_eq {es es' : List (String × String)} (h : es.Perm es') :
    es.mergeSort roleLE = es'.mergeSort roleLE := by
  have hperm : (es.mergeSort roleLE).Perm (es'.mergeSort roleLE) :=
    (List.mergeSort_perm es roleLE).trans (h.trans (List.mergeSort_perm es' roleLE).symm)
  exact hperm.eq_of_pairwise (fun a b _ _ => roleLE_antisymm a b)
    (List.pairwise_mergeSort roleLE_trans roleLE_total es)
    (List.pairwise_mergeSort roleLE_trans roleLE_total es')

/-- Primitives that differ at most in the order in which their roles are stored. -/
structure Alike (p q : Primitive) : Prop where
  kind : p.kind = q.kind
  roles : p.roles.Reordered q.roles
  sequence : p.sequence = q.sequence
  node : p.node = q.node
  entry : p.entry = q.entry

namespace Alike

variable {p q : Primitive} (h : p.Alike q)

include h

theorem isListed_eq : p.isListed = q.isListed := by
  rw [isListed, isListed, h.kind, h.sequence]

theorem members_eq : p.members = q.members := by
  unfold members
  rw [h.isListed_eq, h.sequence, h.kind]
  simp only [h.roles.get?_eq]
  rw [mergeSort_roleLE_eq (h.roles.perm.filter _)]

theorem labels_eq : p.labels = q.labels := by
  rw [labels, labels, h.members_eq]

theorem describe_eq : p.describe = q.describe := by
  rw [describe, describe, h.node, h.kind, h.labels_eq]

theorem missing_eq : p.missing = q.missing := by
  unfold missing
  rw [h.isListed_eq, h.kind]
  simp only [h.roles.contains_eq]

/-! ### What is done with them -/

theorem condBranch_eq (cond : WorkBlock) : Region.condBranch p cond = Region.condBranch q cond := by
  unfold Region.condBranch
  rw [h.describe_eq]

theorem branchTowards_eq (scope : Scope) (cond target : WorkBlock) :
    Region.branchTowards scope p cond target = Region.branchTowards scope q cond target := by
  unfold Region.branchTowards
  rw [h.condBranch_eq, h.describe_eq]

theorem unfilled_eq {α : Type} : (Region.unfilled p : DraftM α) = Region.unfilled q := by
  unfold Region.unfilled
  rw [h.describe_eq, h.missing_eq]

/-- The same region is made of the same members. -/
theorem build_eq (scope : Scope) (ms : Members) :
    Region.build scope p ms = Region.build scope q ms := by
  unfold Region.build
  rw [h.kind]
  simp only [Region.seq, Region.ifThen, Region.ifReturn, Region.ifElse, Region.preLoop,
    Region.postLoop, Region.compound, h.condBranch_eq, h.branchTowards_eq, h.unfilled_eq,
    h.describe_eq]

theorem checkRoles_eq : Registry.checkRoles p = Registry.checkRoles q := by
  unfold Registry.checkRoles
  rw [h.kind, h.missing_eq, h.describe_eq]

theorem resolve_eq (r : Registry) : r.resolve p = r.resolve q := by
  rw [Registry.resolve, Registry.resolve, h.describe_eq, h.members_eq]

theorem checkNode_eq (r : Registry) (ms : Members) : r.checkNode p ms = r.checkNode q ms := by
  unfold Registry.checkNode
  rw [h.node, h.describe_eq]

theorem collapse_eq (r : Registry) (ms : Members) (region : Region) :
    r.collapse p ms region = r.collapse q ms region := by
  unfold Registry.collapse
  rw [h.node, h.describe_eq, h.kind]

/-- They are applied alike, and refused with the same fault. -/
theorem apply_eq (scope : Scope) (r : Registry) : r.apply scope p = r.apply scope q := by
  unfold Registry.apply
  simp only [h.checkRoles_eq, h.resolve_eq, h.checkNode_eq, h.build_eq, h.collapse_eq,
    h.describe_eq]

end Alike

end Primitive

/-! ### Runs -/

namespace Registry

variable {scope : Scope} {ps qs : List Primitive}

theorem applyAll_eq (h : List.Forall₂ Primitive.Alike ps qs) (r : Registry) :
    r.applyAll scope ps = r.applyAll scope qs := by
  induction h generalizing r with
  | nil => rfl
  | cons hpq _ ih => simp only [applyAll, hpq.apply_eq, ih]

theorem reduce_eq (h : List.Forall₂ Primitive.Alike ps qs) (r : Registry) :
    r.reduce scope ps = r.reduce scope qs := by
  rw [reduce, reduce, applyAll_eq h]

theorem attempt_eq {p q : Primitive} (h : p.Alike q) (s : Registry × Draft) :
    attempt scope s p = attempt scope s q := by
  rw [attempt, attempt, h.apply_eq]

theorem attemptAll_eq (h : List.Forall₂ Primitive.Alike ps qs) (s : Registry × Draft) :
    attemptAll scope s ps = attemptAll scope s qs := by
  induction h generalizing s with
  | nil => rfl
  | cons hpq _ ih => rw [attemptAll_cons, attemptAll_cons, attempt_eq hpq, ih]

end Registry

/-- A function is decompiled alike, whichever of the two lists it is fed. -/
theorem Function.decompile_eq {f : Function} {globals : List String} {feeds feeds' : FeedSource}
    {ps qs : List Primitive} (h : List.Forall₂ Primitive.Alike ps qs)
    (hps : feeds f.name = .ok ps) (hqs : feeds' f.name = .ok qs) :
    f.decompile globals feeds = f.decompile globals feeds' := by
  have hfed : ∀ prims : List Primitive,
      DraftM.inPhase f.name "feed" (DraftM.ofExcept (.ok prims)) = pure prims := fun _ => rfl
  have hphases : ∀ setup, f.decompileM setup feeds = f.decompileM setup feeds' := by
    intro setup
    refine bind_congr fun buffers => bind_congr fun registry => ?_
    rw [hps, hqs, hfed, hfed, pure_bind, pure_bind, Registry.reduce_eq h, h.length_eq]
  unfold Function.decompile
  simp only [hphases]

/-- **The order in which roles are stored is never seen.** Primitives that differ in nothing else
name the same members in the same order, and read the same in messages; so do whole lists of them
after any number of steps, whether a step that fails ends the run or is passed over, and in
decompiling any function. -/
theorem Primitive.roles_order_unseen {ps qs : List Primitive}
    (h : List.Forall₂ Primitive.Alike ps qs) :
    List.Forall₂ (fun p q => p.members = q.members ∧ p.labels = q.labels ∧
      p.describe = q.describe ∧ ∀ scope r, Registry.apply scope p r = Registry.apply scope q r)
      ps qs ∧
    (∀ scope r n, Registry.applyAll scope r (ps.take n) = Registry.applyAll scope r (qs.take n)) ∧
    (∀ scope s n,
      Registry.attemptAll scope s (ps.take n) = Registry.attemptAll scope s (qs.take n)) ∧
    (∀ scope r, Registry.reduce scope r ps = Registry.reduce scope r qs) ∧
    ∀ (f : Function) globals feeds feeds', feeds f.name = .ok ps → feeds' f.name = .ok qs →
      f.decompile globals feeds = f.decompile globals feeds' := by
  refine ⟨h.imp fun p q hpq => ?_, fun scope r n => ?_, fun scope s n => ?_, fun scope r => ?_,
    fun f globals feeds feeds' hps hqs => ?_⟩
  · exact ⟨hpq.members_eq, hpq.labels_eq, hpq.describe_eq, hpq.apply_eq⟩
  · exact Registry.applyAll_eq (List.forall₂_take n h) r
  · exact Registry.attemptAll_eq (List.forall₂_take n h) s
  · exact Registry.reduce_eq h r
  · exact Function.decompile_eq h hps hqs

namespace OnePrimitive

/-- A condition with a body, and two more blocks in roles that the kind does not know. -/
def crowded : Case where
  ends := [("entry", .condBr go "body" "done"), ("body", .br "done"), ("done", .ret none),
    ("left", .ret none), ("right", .ret none)]
  kind := .ifThen
  roles := [("cond", 0), ("body", 1), ("exit", 2), ("alpha", 3), ("zeta", 4)]

/-- Its primitive, with the roles stored in the opposite order. -/
def backwards : Primitive :=
  { crowded.prim with roles := ⟨crowded.prim.roles.entries.reverse⟩ }

theorem alike_backwards : crowded.prim.Alike backwards :=
  ⟨rfl, ⟨by decide, (List.reverse_perm _).symm⟩, rfl, rfl, rfl⟩

/-- The roles that the kind does not know come last, sorted. -/
theorem members_crowded : crowded.prim.members = crowded.prim.roles.entries := by
  have hsorted : [("alpha", "left"), ("zeta", "right")].Pairwise
      (fun a b => Primitive.roleLE a b = true) := by decide
  have hvisit : crowded.prim.members =
      [("cond", "entry"), ("body", "body"), ("exit", "done")] ++
        [("alpha", "left"), ("zeta", "right")].mergeSort Primitive.roleLE := rfl
  rw [hvisit, List.mergeSort_of_pairwise hsorted]
  rfl

/-- Either way of storing the roles is decompiled, and the members are the same. -/
theorem crowded_backwards :
    List.Forall₂ Primitive.Alike [crowded.prim] [backwards] ∧
      backwards.roles.keys = crowded.prim.roles.keys.reverse ∧
      crowded.prim.members = backwards.members ∧
      ∃ result events,
        crowded.function.decompile [] (fun _ => .ok [backwards]) = (.ok result, events) := by
  have halike : List.Forall₂ Primitive.Alike [crowded.prim] [backwards] :=
    .cons alike_backwards .nil
  obtain ⟨hmembers, -, -, -, hdecompile⟩ := Primitive.roles_order_unseen halike
  have hfound : crowded.registry.resolve crowded.prim = .ok crowded.members := by
    rw [Registry.resolve, members_crowded]
    rfl
  have haccepts : crowded.Accepts "entry" :=
    Case.accepts rfl rfl rfl ⟨rfl, hfound, rfl, rfl⟩ rfl rfl rfl
  obtain ⟨result, events, -, -, h, -⟩ := haccepts
  refine ⟨halike, by decide, ?_, result, events, ?_⟩
  · cases hmembers with
    | cons h _ => exact h.1
  · rw [← hdecompile crowded.function [] crowded.feed _ rfl rfl, h]

end OnePrimitive

end GoLift
