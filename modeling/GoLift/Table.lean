/-!
# Tables keyed by strings

A `Table` is a finite map that remembers the order in which its keys were first
entered. **Its view is the list of entries**: writing a key that is present
keeps its place, and writing a new key puts it last.

`get?_put`, `get?_erase` and `keys_put` say what the operations do to the view;
`nodup_keys_put` and `nodup_keys_erase` say that no operation makes a key occur
twice.
-/

set_option autoImplicit false

namespace GoLift

/-- A finite map from strings, in order of first entry. -/
structure Table (α : Type) where
  entries : List (String × α) := []
deriving Repr

namespace Table

variable {α : Type}

/-- The table without entries. -/
def empty : Table α := {}

instance : Inhabited (Table α) := ⟨empty⟩

/-- The keys, in order of first entry. -/
def keys (t : Table α) : List String :=
  t.entries.map Prod.fst

/-- The value of a key. -/
def get? (t : Table α) (k : String) : Option α :=
  t.entries.lookup k

/-- Is there a value for the key? -/
def contains (t : Table α) (k : String) : Bool :=
  (t.get? k).isSome

/-- The number of keys. -/
def size (t : Table α) : Nat :=
  t.entries.length

/-- Write a key in a list of entries. -/
def putIn (k : String) (a : α) : List (String × α) → List (String × α)
  | [] => [(k, a)]
  | (k', a') :: es => if k == k' then (k, a) :: es else (k', a') :: putIn k a es

/-- Write a key: in its place if it is present, last if it is new. -/
def put (t : Table α) (k : String) (a : α) : Table α :=
  ⟨putIn k a t.entries⟩

/-- Write a key unless it is present. -/
def putNew (t : Table α) (k : String) (a : α) : Table α :=
  if t.contains k then t else t.put k a

/-- Change the value of a key, if it is present. -/
def modify (t : Table α) (k : String) (f : α → α) : Table α :=
  ⟨t.entries.map (fun e => if e.1 == k then (e.1, f e.2) else e)⟩

/-- Remove a key. -/
def erase (t : Table α) (k : String) : Table α :=
  ⟨t.entries.filter (fun e => e.1 != k)⟩

/-- The table of a list of entries; of two with the same key the later value
and the earlier place are kept. -/
def ofList (es : List (String × α)) : Table α :=
  es.foldl (fun t e => t.put e.1 e.2) empty

/-- Change every value. -/
def map {β : Type} (f : α → β) (t : Table α) : Table β :=
  ⟨t.entries.map (fun e => (e.1, f e.2))⟩

/-! ### Reading after writing -/

@[simp] theorem get?_empty (k : String) : (empty : Table α).get? k = none := rfl

@[simp] theorem keys_empty : (empty : Table α).keys = [] := rfl

theorem lookup_cons (k : String) (e : String × α) (es : List (String × α)) :
    (e :: es).lookup k = if k = e.1 then some e.2 else es.lookup k := by
  obtain ⟨k₀, a⟩ := e
  by_cases h : k = k₀
  · simp [h]
  · simp [List.lookup_cons, beq_eq_false_iff_ne.2 h, h]

theorem lookup_putIn (k k' : String) (a : α) (es : List (String × α)) :
    (putIn k a es).lookup k' = if k' = k then some a else es.lookup k' := by
  induction es with
  | nil => simp [putIn, lookup_cons]
  | cons e es ih =>
    by_cases h : k = e.1
    · by_cases h' : k' = k <;> simp_all [putIn, lookup_cons]
    · by_cases h' : k' = e.1
      · simp [putIn, lookup_cons, h, h', Ne.symm h]
      · simp [putIn, lookup_cons, h, h', ih]

theorem get?_put (t : Table α) (k k' : String) (a : α) :
    (t.put k a).get? k' = if k' = k then some a else t.get? k' :=
  lookup_putIn k k' a t.entries

@[simp] theorem get?_put_self (t : Table α) (k : String) (a : α) :
    (t.put k a).get? k = some a := by
  simp [get?_put]

theorem get?_erase (t : Table α) (k k' : String) :
    (t.erase k).get? k' = if k' = k then none else t.get? k' := by
  obtain ⟨es⟩ := t
  simp only [get?, erase]
  induction es with
  | nil => simp
  | cons e es ih =>
    by_cases h : e.1 = k
    · rw [List.filter_cons_of_neg (by simp [h]), ih, lookup_cons, h]
      split <;> rfl
    · rw [List.filter_cons_of_pos (by simp [h]), lookup_cons, lookup_cons, ih]
      by_cases h' : k' = e.1 <;> simp [h, h']

/-! ### Keys -/

theorem get?_eq_none_iff (t : Table α) (k : String) : t.get? k = none ↔ k ∉ t.keys := by
  obtain ⟨es⟩ := t
  simp only [get?, keys]
  induction es with
  | nil => simp
  | cons e es ih =>
    rw [lookup_cons, List.map_cons, List.mem_cons, not_or, ← ih]
    by_cases h : k = e.1 <;> simp [h]

theorem contains_iff (t : Table α) (k : String) : t.contains k = true ↔ k ∈ t.keys := by
  rw [contains, Option.isSome_iff_ne_none, ne_eq, get?_eq_none_iff, Decidable.not_not]

theorem keys_putIn (k : String) (a : α) (es : List (String × α)) :
    (putIn k a es).map Prod.fst =
      if k ∈ es.map Prod.fst then es.map Prod.fst else es.map Prod.fst ++ [k] := by
  induction es with
  | nil => simp [putIn]
  | cons e es ih =>
    obtain ⟨k₀, a₀⟩ := e
    by_cases h : k = k₀
    · simp [putIn, h]
    · by_cases hm : k ∈ es.map Prod.fst <;> simp_all [putIn]

/-- A key that is present keeps its place, and a new one comes last. -/
theorem keys_put (t : Table α) (k : String) (a : α) :
    (t.put k a).keys = if k ∈ t.keys then t.keys else t.keys ++ [k] :=
  keys_putIn k a t.entries

theorem keys_erase (t : Table α) (k : String) :
    (t.erase k).keys = t.keys.filter (· != k) := by
  simp [keys, erase, List.filter_map, Function.comp_def]

theorem nodup_keys_put (t : Table α) (k : String) (a : α) (h : t.keys.Nodup) :
    (t.put k a).keys.Nodup := by
  rw [keys_put]
  split
  · exact h
  · next hk =>
    exact List.nodup_append.2 ⟨h, by simp, by rintro x hx y hy rfl; simp_all⟩

theorem nodup_keys_erase (t : Table α) (k : String) (h : t.keys.Nodup) :
    (t.erase k).keys.Nodup := by
  rw [keys_erase]
  exact h.filter _

end Table

/-- `xs` without repetitions, each member at its first place. -/
def firsts (xs : List String) : List String :=
  xs.foldl (fun seen x => if seen.contains x then seen else seen ++ [x]) []

/-- `xs` in the order of code points. -/
def sorted (xs : List String) : List String :=
  xs.mergeSort (fun a b => decide (a ≤ b))

/-- The members of `xs` that occur more than once, sorted and each once. -/
def repeated (xs : List String) : List String :=
  sorted (firsts (xs.filter (fun x => 1 < xs.count x)))

end GoLift
