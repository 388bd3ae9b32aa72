import GoLift.Proofs.Region.Effect

/-!
# Other code in place of a block's

`Registry.recode k code` is the registry in which the block with the handle `k` has other code.
Nothing that a primitive asks before it builds its region depends on code, so members are found
as before (`resolve_recode`), and taking them and entering a block does the same to both
registries (`collapse_recode`). **What an application makes of a registry can depend on the
code of a block only by way of the region**, and that reads members by their roles
(`Region.build_congr`).
-/

set_option autoImplicit false

namespace GoLift

open Go (Stmt)

namespace WorkBlock

/-- The block, with other code if it is the one with the handle. -/
def recoded (k : Nat) (code : List Stmt) (b : WorkBlock) : WorkBlock :=
  if b.handle = k then { b with stmts := code, phiOut := [] } else b

variable (k : Nat) (code : List Stmt) (b : WorkBlock)

@[simp] theorem handle_recoded : (b.recoded k code).handle = b.handle := by
  unfold recoded
  split <;> rfl

@[simp] theorem label_recoded : (b.recoded k code).label = b.label := by
  unfold recoded
  split <;> rfl

@[simp] theorem active_recoded : (b.recoded k code).active = b.active := by
  unfold recoded
  split <;> rfl

theorem recoded_of_ne {k : Nat} {b : WorkBlock} (hne : b.handle ≠ k) : b.recoded k code = b :=
  if_neg hne

@[simp] theorem sequence_recoded_self : (b.recoded b.handle code).sequence = code := by
  simp [recoded, sequence]

end WorkBlock

/-- Members, one of them with other code. -/
def Members.recode (k : Nat) (code : List Stmt) (ms : Members) : Members :=
  ms.map fun m => (m.1, m.2.recoded k code)

theorem Members.lookup_recode (k : Nat) (code : List Stmt) (ms : Members) (role : String) :
    (ms.recode k code).lookup role = (ms.lookup role).map (WorkBlock.recoded k code) := by
  induction ms with
  | nil => rfl
  | cons m ms ih =>
    rw [recode, List.map_cons, List.lookup_cons, List.lookup_cons]
    cases role == m.1 with
    | true => rfl
    | false => exact ih

namespace Registry

/-- The registry, with other code in the block with the handle. -/
def recode (k : Nat) (code : List Stmt) (r : Registry) : Registry :=
  { r with arena := r.arena.map (WorkBlock.recoded k code) }

variable {r : Registry} {p : Primitive} {ms : Members} (k : Nat) (code : List Stmt)

/-! ### Looking -/

theorem live_recode : (r.recode k code).live = r.live.map (WorkBlock.recoded k code) := by
  simp only [live, recode, List.filter_map, Function.comp_def, WorkBlock.active_recoded]

theorem lookup_recode (l : String) :
    (r.recode k code).lookup l = (r.lookup l).map (WorkBlock.recoded k code) := by
  simp only [lookup, recode, Option.map_bind, Function.comp_def, List.getElem?_map]

theorem Sound.recode (hr : r.Sound) : (r.recode k code).Sound := by
  refine ⟨fun {i b} hb => ?_, fun {l i} => ?_⟩
  · obtain ⟨w, hw, rfl⟩ : ∃ w, r.arena[i]? = some w ∧ w.recoded k code = b := by
      simpa [Registry.recode] using hb
    exact (WorkBlock.handle_recoded ..).trans (hr.handle hw)
  · show r.byLabel.get? l = some i ↔ _
    rw [hr.byLabel]
    simp [Registry.recode]

/-- The same members are found. -/
theorem resolveFrom_recode {desc : String} {seen : List String} {roles : List (String × String)}
    (hms : r.resolveFrom desc seen roles = .ok ms) :
    (r.recode k code).resolveFrom desc seen roles = .ok (ms.recode k code) := by
  induction roles generalizing seen ms with
  | nil =>
    cases hms
    rfl
  | cons e roles ih =>
    obtain ⟨role, label⟩ := e
    rw [resolveFrom] at hms ⊢
    split at hms
    · cases hms
    · next hseen =>
      rw [if_neg hseen, lookup_recode]
      split at hms
      · cases hms
      · next w hw =>
        rcases hrest : r.resolveFrom desc (label :: seen) roles with f | rest
        · rw [hrest] at hms
          cases hms
        · rw [hrest] at hms
          cases hms
          simp only [hw, Option.map_some, ih hrest]
          rfl

theorem resolve_recode (hms : r.resolve p = .ok ms) :
    (r.recode k code).resolve p = .ok (ms.recode k code) :=
  resolveFrom_recode k code hms

theorem checkNode_recode : (r.recode k code).checkNode p (ms.recode k code) = r.checkNode p ms := by
  simp only [checkNode, contains, recode, Members.recode, List.map_map, Function.comp_def,
    WorkBlock.label_recoded]
  rfl

/-! ### Taking and entering -/

theorem retire_recode (i : Nat) (c : String) :
    (r.recode k code).retire i c = (r.retire i c).recode k code := by
  have hat : (r.recode k code).arena[i]? = r.arena[i]?.map (WorkBlock.recoded k code) :=
    List.getElem?_map
  unfold retire
  rw [hat]
  cases r.arena[i]? with
  | none => rfl
  | some b =>
    have hmark : (r.recode k code).mark i c = (r.mark i c).recode k code := by
      simp only [mark, recode, Registry.mk.injEq, and_true]
      refine List.ext_getElem? fun j => ?_
      simp only [List.getElem?_map, List.getElem?_modify, Option.map_eq_map, Option.map_map]
      congr 1
      funext w
      by_cases hj : i = j <;> by_cases hw : w.handle = k <;>
        simp [hj, hw, WorkBlock.recoded]
    simp only [Option.map_some, WorkBlock.label_recoded, hmark]
    rfl

theorem foldl_retire_recode (c : String) :
    (ms.recode k code).foldl (fun r m => r.retire m.2.handle c) (r.recode k code) =
      (ms.foldl (fun r m => r.retire m.2.handle c) r).recode k code := by
  induction ms generalizing r with
  | nil => rfl
  | cons m ms ih =>
    have hhead : (r.recode k code).retire (m.2.recoded k code).handle c =
        (r.retire m.2.handle c).recode k code := by
      rw [WorkBlock.handle_recoded, retire_recode]
    rw [Members.recode, List.map_cons, List.foldl_cons, hhead]
    exact ih

theorem freshLabel_recode (hint : String) :
    (r.recode k code).freshLabel hint =
      ((r.freshLabel hint).1, (r.freshLabel hint).2.recode k code) := by
  have hlabels : (r.recode k code).arena.map WorkBlock.label = r.arena.map WorkBlock.label := by
    simp [recode, Function.comp_def]
  simp only [freshLabel, hlabels]
  rfl

/-- A block that is entered has a new handle, so it is not the one that is recoded. -/
theorem enter_recode (hlt : k < r.arena.length) (b : NewBlock) :
    (r.recode k code).enter b = ((r.enter b).1, (r.enter b).2.recode k code) := by
  have hlength : (r.recode k code).arena.length = r.arena.length := List.length_map ..
  have hnew : (ofNew r.arena.length b).recoded k code = ofNew r.arena.length b :=
    WorkBlock.recoded_of_ne code (Nat.ne_of_gt hlt)
  simp only [enter, hlength]
  simp only [recode, List.map_append, List.map_cons, List.map_nil, hnew]

theorem arena_length_foldl_retire (c : String) :
    (ms.foldl (fun r m => r.retire m.2.handle c) r).arena.length = r.arena.length := by
  induction ms generalizing r with
  | nil => rfl
  | cons m ms ih =>
    have hone := congrArg List.length (arena_labels_retire (r := r) m.2.handle c)
    rw [List.length_map, List.length_map] at hone
    exact ih.trans hone

/-- **Members make the same block of a region, whatever their code was.** -/
theorem collapse_recode (hlt : k < r.arena.length) (region : Region) :
    (r.recode k code).collapse p (ms.recode k code) region =
      ((r.collapse p ms region).1, (r.collapse p ms region).2.recode k code) := by
  have hlength : k < (ms.foldl (fun r m => r.retire m.2.handle p.describe) r).arena.length := by
    rwa [arena_length_foldl_retire]
  simp only [collapse, foldl_retire_recode]
  cases p.node with
  | some label => exact enter_recode k code hlength _
  | none =>
    simp only [freshLabel_recode]
    exact enter_recode k code (r := (Registry.freshLabel _ p.kind.tag).2) hlength _

end Registry

/-! ### Building -/

/-- **A region is made of the members in the roles of the kind**, and of no other. -/
theorem Region.build_congr {scope : Scope} {p : Primitive} {ms ms' : Members}
    (hkind : p.kind ≠ .seq)
    (heq : ∀ role ∈ p.kind.roles?.getD [], ms'.lookup role = ms.lookup role) :
    build scope p ms' = build scope p ms := by
  unfold build
  cases hk : p.kind with
  | seq => exact absurd hk hkind
  | other tag => rfl
  | _ =>
    simp only [hk, Kind.roles?, Option.getD_some, List.forall_mem_cons] at heq
    simp only [ifThen, ifReturn, ifElse, preLoop, postLoop, compound, heq]

end GoLift
