import GoLift.Lower.Function
import Mathlib.Data.List.Nodup

/-!
# Identifiers are handed out once

What a name table hands out, for a binding or as a temporary, is an identifier
that it has not handed out before. The leaf of everything here is
`firstFree_not_mem`: a search for a free member of an infinite family finds one,
because with `n` names in use not all of `n + 1` members can be taken.

`NameTable.Le` is what later tables keep of earlier ones. It carries the
invariant `NameTable.Sound` along, so that a chain of steps needs one order and no
separate induction for each property.
-/

set_option autoImplicit false

namespace GoLift

/-! ### The search -/

/-- The search for a free candidate finds one. -/
theorem firstFree_not_mem {candidate : Nat → String} (hinj : Function.Injective candidate)
    (used : List String) (start : Nat) :
    candidate (firstFree used candidate start used.length) ∉ used := by
  intro hmem
  have hend := firstFree_eq_of_mem hmem
  -- Then every candidate from `start` on up to the last one is in use.
  have hall : ∀ i < used.length + 1, candidate (start + i) ∈ used := by
    intro i hi
    by_cases h : i = used.length
    · subst h
      rw [hend] at hmem
      exact hmem
    · exact mem_of_lt_firstFree (Nat.le_add_right start i) (by rw [hend]; omega)
  have hsub : ((List.range (used.length + 1)).map (fun i => candidate (start + i))) ⊆ used := by
    intro x hx
    obtain ⟨i, hi, rfl⟩ := List.mem_map.1 hx
    exact hall i (List.mem_range.1 hi)
  have hnodup : ((List.range (used.length + 1)).map (fun i => candidate (start + i))).Nodup :=
    List.nodup_range.map fun i j h => by
      have := hinj h
      omega
  have hlen := hnodup.length_le_of_subset hsub
  simp only [List.length_map, List.length_range] at hlen
  omega

/-- The search goes upwards. -/
theorem le_firstFree (used : List String) (candidate : Nat → String) (start fuel : Nat) :
    start ≤ firstFree used candidate start fuel := by
  induction fuel generalizing start with
  | zero => exact Nat.le_refl start
  | succ fuel ih =>
    rw [firstFree]
    split
    · exact Nat.le_of_succ_le (ih (start + 1))
    · exact Nat.le_refl start

theorem toString_nat_injective : Function.Injective (toString : Nat → String) := by
  intro m n h
  have hdigits : Nat.toDigits 10 m = Nat.toDigits 10 n := by
    rw [← Nat.toList_repr, ← Nat.toList_repr]
    exact congrArg String.toList h
  calc
    m = Nat.ofDigitChars 10 (Nat.toDigits 10 m) 0 := Nat.ofDigitChars_ten_toDigits.symm
    _ = n := by rw [hdigits, Nat.ofDigitChars_ten_toDigits]

/-- A number in decimal is written with digits. -/
theorem isDigit_of_mem_toString {n : Nat} {c : Char} (h : c ∈ (toString n).toList) :
    c.isDigit = true := by
  rw [Nat.toString_eq_repr, Nat.repr_eq_ofList_toDigits, String.toList_ofList] at h
  exact Nat.isDigit_of_mem_toDigits (by decide) (by decide) h

/-- A number in decimal has a digit. -/
theorem toString_nat_ne_nil (n : Nat) : (toString n).toList ≠ [] := by
  rw [Nat.toString_eq_repr, Nat.repr_eq_ofList_toDigits, String.toList_ofList]
  exact Nat.toDigits_ne_nil

namespace NameTable

theorem variant_injective (base : String) : Function.Injective (variant base) := by
  intro m n h
  cases m with
  | zero =>
    cases n with
    | zero => rfl
    | succ n =>
      have hlen := congrArg String.length h
      simp only [variant, String.length_append] at hlen
      have : "_".length = 1 := rfl
      omega
  | succ m =>
    cases n with
    | zero =>
      have hlen := congrArg String.length h
      simp only [variant, String.length_append] at hlen
      have : "_".length = 1 := rfl
      omega
    | succ n =>
      simp only [variant, String.append_right_inj] at h
      exact toString_nat_injective h

theorem temporary_injective (hint : String) : Function.Injective (temporary hint) := by
  intro m n h
  simp only [temporary, String.append_right_inj] at h
  exact toString_nat_injective h

/-- A binding that has no identifier yet gets a new one. -/
theorem pick_not_mem (t : NameTable) (raw : String) : t.pick raw ∉ t.used :=
  firstFree_not_mem (variant_injective _) _ _

/-- A temporary is new. -/
theorem fresh_not_mem (t : NameTable) (hint : String) : (t.fresh hint).1 ∉ t.used :=
  firstFree_not_mem (temporary_injective _) _ _

/-! ### Tables that grow -/

/-- Different bindings have different identifiers, all of them in use. -/
structure Sound (t : NameTable) : Prop where
  injective : ∀ {a b x : String}, t.local? a = some x → t.local? b = some x → a = b
  mem_used : ∀ {a x : String}, t.local? a = some x → x ∈ t.used

/-- What a table keeps when it grows. -/
structure Le (t t' : NameTable) : Prop where
  local? : ∀ {raw x : String}, t.local? raw = some x → t'.local? raw = some x
  used : ∀ {x : String}, x ∈ t.used → x ∈ t'.used
  /-- A binding that is new gets an identifier that is. -/
  new : ∀ {raw x : String}, t'.local? raw = some x → t.local? raw = some x ∨ x ∉ t.used
  sound : t.Sound → t'.Sound

theorem Le.refl (t : NameTable) : t.Le t :=
  ⟨id, id, .inl, id⟩

theorem Le.trans {t t' t'' : NameTable} (h : t.Le t') (h' : t'.Le t'') : t.Le t'' where
  local? := h'.local? ∘ h.local?
  used := h'.used ∘ h.used
  new hx := (h'.new hx).elim h.new (fun hn => .inr (hn ∘ h.used))
  sound := h'.sound ∘ h.sound

theorem sound_reserving (names : List String) : (reserving names).Sound where
  injective h := by cases h
  mem_used h := by cases h

theorem sound_empty : ({} : NameTable).Sound :=
  sound_reserving []

/-- After a binding was asked for, it has an identifier. -/
theorem local?_bind (t : NameTable) (raw : String) :
    (t.bind raw).2.local? raw = some (t.bind raw).1 := by
  unfold bind
  cases h : t.local? raw with
  | some name => exact h
  | none => simp [local?]

/-- A binding that has an identifier keeps it, and nothing changes. -/
theorem bind_of_local? {t : NameTable} {raw x : String} (h : t.local? raw = some x) :
    t.bind raw = (x, t) := by
  simp only [bind, h]

/-- A binding that has none yet gets a free one. -/
theorem bind_of_none {t : NameTable} {raw : String} (h : t.local? raw = none) :
    t.bind raw = (t.pick raw,
      { t with locals := t.locals.put raw (t.pick raw), used := t.pick raw :: t.used }) := by
  simp only [bind, h]

/-- Asking for an identifier gives one to no other binding. -/
theorem local?_of_bind {t : NameTable} {raw a x : String}
    (h : (t.bind raw).2.local? a = some x) :
    t.local? a = some x ∨ a = raw ∧ x = t.pick raw := by
  cases hraw : t.local? raw with
  | some name =>
    rw [bind_of_local? hraw] at h
    exact .inl h
  | none =>
    rw [bind_of_none hraw] at h
    dsimp only [local?] at h
    rw [Table.get?_put] at h
    split at h
    · next ha => exact .inr ⟨ha, (Option.some.inj h).symm⟩
    · exact .inl h

theorem le_bind (t : NameTable) (raw : String) : t.Le (t.bind raw).2 := by
  cases h : t.local? raw with
  | some name =>
    rw [bind_of_local? h]
    exact Le.refl t
  | none =>
    have hnew := t.pick_not_mem raw
    have hused : (t.bind raw).2.used = t.pick raw :: t.used := by rw [bind_of_none h]
    refine ⟨fun {a x} hx => ?_, fun hx => ?_, fun hx => ?_, fun hs => ⟨?_, ?_⟩⟩
    · have hne : a ≠ raw := by
        rintro rfl
        rw [h] at hx
        cases hx
      rw [bind_of_none h]
      simpa [local?, Table.get?_put, hne] using hx
    · exact hused ▸ List.mem_cons_of_mem _ hx
    · rcases local?_of_bind hx with hold | ⟨-, rfl⟩
      · exact .inl hold
      · exact .inr hnew
    · intro a b x ha hb
      rcases local?_of_bind ha with ha' | ⟨rfl, rfl⟩ <;>
        rcases local?_of_bind hb with hb' | ⟨rfl, hx⟩
      · exact hs.injective ha' hb'
      · exact absurd (hx ▸ hs.mem_used ha') hnew
      · exact absurd (hs.mem_used hb') hnew
      · rfl
    · intro a x ha
      rw [hused]
      rcases local?_of_bind ha with ha' | ⟨-, rfl⟩
      · exact List.mem_cons_of_mem _ (hs.mem_used ha')
      · exact List.mem_cons_self

theorem le_fresh (t : NameTable) (hint : String) : t.Le (t.fresh hint).2 where
  local? h := h
  used := List.mem_cons_of_mem _
  new := .inl
  sound hs := ⟨hs.injective, fun h => List.mem_cons_of_mem _ (hs.mem_used h)⟩

/-- A temporary is in use from then on. -/
theorem fresh_mem (t : NameTable) (hint : String) : (t.fresh hint).1 ∈ (t.fresh hint).2.used :=
  List.mem_cons_self

/-- An identifier that is taken, and not by a binding. -/
structure Reserved (t : NameTable) (x : String) : Prop where
  used : x ∈ t.used
  unbound : ∀ raw, t.local? raw ≠ some x

/-- No later binding gets a reserved identifier. -/
theorem Reserved.mono {t t' : NameTable} {x : String} (h : t.Reserved x) (ht : t.Le t') :
    t'.Reserved x where
  used := ht.used h.used
  unbound raw hraw := (ht.new hraw).elim (h.unbound raw) (fun hnew => hnew h.used)

/-- **A temporary is reserved from then on.** -/
theorem reserved_fresh {t : NameTable} (ht : t.Sound) (hint : String) :
    (t.fresh hint).2.Reserved (t.fresh hint).1 where
  used := t.fresh_mem hint
  unbound _ hraw := t.fresh_not_mem hint (ht.mem_used hraw)

theorem le_bindAll (t : NameTable) (raws : List String) : t.Le (t.bindAll raws).2 := by
  induction raws generalizing t with
  | nil => exact Le.refl t
  | cons raw raws ih => exact (t.le_bind raw).trans (ih _)

/-! ### Tables of bindings only -/

/-- A base that is free is the identifier itself. -/
theorem pick_of_not_mem {t : NameTable} {raw : String} (h : goName raw ∉ t.used) :
    t.pick raw = goName raw := by
  have hzero : firstFree t.used (variant (goName raw)) 0 t.used.length = 0 := by
    cases t.used.length with
    | zero => rfl
    | succ n => simp [firstFree, variant, h]
  rw [pick, hzero, variant]

/-- The identifiers that are taken are those of some bindings, each made from the name of its
binding. The one that a name is mapped to is taken, by this binding or another. -/
structure Names (t : NameTable) (raws : List String) : Prop where
  sound : t.Sound
  of_local : ∀ {raw x : String}, t.local? raw = some x → raw ∈ raws ∧
    (∃ k, x = variant (goName raw) k) ∧ goName raw ∈ t.used
  of_used : ∀ {x : String}, x ∈ t.used → ∃ raw, t.local? raw = some x

variable {t : NameTable} {raws : List String}

theorem names_empty : ({} : NameTable).Names [] where
  sound := sound_empty
  of_local h := by cases h
  of_used h := by cases h

theorem Names.bind (h : t.Names raws) (raw : String) : (t.bind raw).2.Names (raws ++ [raw]) where
  sound := (t.le_bind raw).sound h.sound
  of_local {a x} ha := by
    obtain hold | ⟨rfl, rfl⟩ := local?_of_bind ha
    · obtain ⟨hmem, hk, hused⟩ := h.of_local hold
      exact ⟨List.mem_append_left _ hmem, hk, (t.le_bind raw).used hused⟩
    · refine ⟨by simp, ⟨_, rfl⟩, ?_⟩
      by_cases hused : goName a ∈ t.used
      · exact (t.le_bind a).used hused
      · have hmem := ((t.le_bind a).sound h.sound).mem_used ha
        rwa [pick_of_not_mem hused] at hmem
  of_used {x} hx := by
    cases hraw : t.local? raw with
    | some name =>
      rw [bind_of_local? hraw] at hx ⊢
      exact h.of_used hx
    | none =>
      have hused : (t.bind raw).2.used = (t.bind raw).1 :: t.used := by rw [bind_of_none hraw]
      rw [hused] at hx
      obtain rfl | hx := List.mem_cons.1 hx
      · exact ⟨raw, t.local?_bind raw⟩
      · obtain ⟨a, ha⟩ := h.of_used hx
        exact ⟨a, (t.le_bind raw).local? ha⟩

theorem Names.bindAll (h : t.Names raws) (more : List String) :
    (t.bindAll more).2.Names (raws ++ more) := by
  induction more generalizing t raws with
  | nil => exact (List.append_nil raws).symm ▸ h
  | cons raw more ih =>
    rw [List.append_cons]
    exact ih (h.bind raw)

/-- What is handed out for some bindings is what they have from then on. -/
theorem bindAll_local? (t : NameTable) (raws : List String) :
    List.Forall₂ (fun raw x => (t.bindAll raws).2.local? raw = some x) raws (t.bindAll raws).1 := by
  induction raws generalizing t with
  | nil => exact .nil
  | cons raw raws ih => exact .cons ((le_bindAll _ raws).local? (t.local?_bind raw)) (ih _)

end NameTable

end GoLift
