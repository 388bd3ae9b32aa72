import GoLift.Region.Reduce
import GoLift.Proofs.Go.Names
import Mathlib.Order.Basic

/-!
# Lowering twice gives the same

Lowering asks a draft for identifiers, and asking changes the draft. Two facts
keep that out of everything that follows:

* every step makes the draft grow (`DraftM.Grows`), in the sense of
  `NameTable.Le`;
* whatever a step gave once, it gives again from any draft that has grown since
  (`DraftM.Steady`), because a binding keeps its identifier.

So what is lowered at several times, the condition of a branch say, can be looked
at as if it were lowered once, from a draft at the end of it all. `DraftM.Gives x D a`
says that `x` gave `a` at some time before `D`, and opens a sequence of steps
without its intermediate drafts.

Temporaries are the exception. A step that makes one grows, but is not steady.
-/

set_option autoImplicit false

namespace GoLift

/-! ### Drafts that grow -/

instance : Preorder Draft where
  le d d' := d.names.Le d'.names
  le_refl d := NameTable.Le.refl d.names
  le_trans _ _ _ h h' := h.trans h'

/-- Sequencing, state by state. -/
theorem bind_apply {S α β : Type} (x : ExceptT Fault (StateM S) α)
    (f : α → ExceptT Fault (StateM S) β) (s : S) :
    (x >>= f) s =
      match x s with
      | (.ok a, s') => f a s'
      | (.error e, s') => (.error e, s') := by
  change (ExceptT.bindCont f (x s).1) (x s).2 = _
  rcases x s with ⟨_ | _, s'⟩ <;> rfl

section

variable {S α β : Type} {x : ExceptT Fault (StateM S) α} {f : α → ExceptT Fault (StateM S) β}
  {s s' s₁ : S} {a : α} {b : β}

/-- A sequence that comes to a result does so through one of its first part. -/
theorem bind_ok (h : (x >>= f) s = (.ok b, s')) :
    ∃ a s₁, x s = (.ok a, s₁) ∧ f a s₁ = (.ok b, s') := by
  rw [bind_apply] at h
  rcases hx : x s with ⟨_ | a, s₁⟩
  · rw [hx] at h
    cases h
  · rw [hx] at h
    exact ⟨a, s₁, rfl, h⟩

/-- A sequence goes on from the result of its first part. -/
theorem bind_of_ok (h : x s = (.ok a, s₁)) : (x >>= f) s = f a s₁ := by
  rw [bind_apply, h]

/-- A sequence fails where its first part does. -/
theorem bind_of_error {e : Fault} (h : x s = (.error e, s₁)) : (x >>= f) s = (.error e, s₁) := by
  rw [bind_apply, h]

end

namespace TypeM

/-- Gives the same whatever is recorded. -/
def Steady {α : Type} (x : TypeM α) : Prop :=
  ∀ r r', (x r).1 = (x r').1

variable {α β : Type}

theorem Steady.pure (a : α) : Steady (Pure.pure a) := fun _ _ => rfl

theorem Steady.refuse (c : Cause) : Steady (TypeM.refuse c : TypeM α) := fun _ _ => rfl

theorem Steady.bind {x : TypeM α} {f : α → TypeM β} (hx : x.Steady) (hf : ∀ a, (f a).Steady) :
    Steady (x >>= f) := by
  intro r r'
  have h := hx r r'
  rw [bind_apply, bind_apply]
  rcases hr : x r with ⟨_ | a, s⟩ <;> rcases hr' : x r' with ⟨_ | a', s'⟩ <;>
    simp only [hr, hr', reduceCtorEq, Except.ok.injEq, Except.error.injEq] at h
  · exact congrArg Except.error h
  · subst h
    exact hf a s s'

theorem steady_useImport (package : String) : Steady (useImport package) := fun _ _ => rfl

theorem steady_useNamed (name : String) : Steady (useNamed name) := fun _ _ => rfl

theorem steady_goIntType (unsigned : Bool) (width : Nat) : Steady (goIntType unsigned width) := by
  unfold goIntType
  split
  · exact .pure _
  · split
    · exact .pure _
    · exact .refuse _

theorem steady_goResults {t : Ty} (h : Steady (goType false t)) : Steady (goResults t) := by
  cases t with
  | void => simpa only [goResults] using .pure _
  | _ => simpa only [goResults] using h.bind fun _ => .pure _

mutual

theorem steady_goType (unsigned : Bool) : ∀ (t : Ty), Steady (goType unsigned t)
  | .int width => by simpa only [goType] using steady_goIntType unsigned width
  | .double | .float => by simpa only [goType] using .pure _
  | .opaquePtr => by simpa only [goType] using (steady_useImport _).bind fun _ => .pure _
  | .ptr t => by simpa only [goType] using (steady_goType false t).bind fun _ => .pure _
  | .func ret params varArg => by
      simpa only [goType] using
        (steady_goTypes params).bind fun _ =>
          (steady_goResults (steady_goType false ret)).bind fun _ => .pure _
  | .named name => by simpa only [goType] using (steady_useNamed name).bind fun _ => .pure _
  | .struct ts => by simpa only [goType] using (steady_goTypes ts).bind fun _ => .pure _
  | .array count t => by simpa only [goType] using (steady_goType false t).bind fun _ => .pure _
  | .void | .half | .label | .metadata => by simpa only [goType] using .refuse _
  | .vector .. => by simpa only [goType] using .refuse _

theorem steady_goTypes : ∀ (ts : List Ty), Steady (goTypes ts)
  | [] => by simpa only [goTypes] using .pure _
  | t :: ts => by
      simpa only [goTypes] using
        (steady_goType false t).bind fun _ => (steady_goTypes ts).bind fun _ => .pure _

end

theorem steady_zeroValue (t : Ty) : Steady (zeroValue t) := by
  cases t with
  | int width =>
    unfold zeroValue
    simp only
    split
    · exact .pure _
    · exact (steady_goIntType _ _).bind fun _ => .pure _
  | named _ | struct _ | array _ _ => exact (steady_goType false _).bind fun _ => .pure _
  | float | double | opaquePtr | ptr _ | func _ _ _ => exact .pure _
  | void | half | label | metadata | vector _ _ => exact .refuse _

end TypeM

namespace DraftM

variable {α β : Type}

/-! ### Steps -/

/-- A step keeps what the draft holds, whether it fails or not. -/
def Grows (x : DraftM α) : Prop :=
  ∀ d, d ≤ (x d).2

/-- A step grows the draft, and gives again what it gave once. -/
structure Steady (x : DraftM α) : Prop where
  grows : Grows x
  again : ∀ {d d' D : Draft} {a : α}, x d = (.ok a, d') → d' ≤ D → (x D).1 = .ok a

/-- A step gave a result at some time before a draft. -/
def Gives (x : DraftM α) (D : Draft) (a : α) : Prop :=
  ∃ d d', x d = (.ok a, d') ∧ d' ≤ D

theorem Grows.apply {x : DraftM α} (h : Grows x) {d d' : Draft} {r : Except Fault α}
    (hx : x d = (r, d')) : d ≤ d' := by
  have := h d
  rwa [hx] at this

theorem Grows.pure (a : α) : Grows (Pure.pure a : DraftM α) := le_refl

theorem Grows.bind {x : DraftM α} {f : α → DraftM β} (hx : Grows x) (hf : ∀ a, Grows (f a)) :
    Grows (x >>= f) := by
  intro d
  rw [bind_apply]
  rcases h : x d with ⟨_ | a, d'⟩
  · exact hx.apply h
  · exact (hx.apply h).trans (hf a d')

theorem grows_throw (f : Fault) : Grows (throw f : DraftM α) := le_refl

theorem grows_ofExcept (r : Except Fault α) : Grows (ofExcept r) := by
  cases r <;> exact le_refl

theorem grows_ofTypeM (x : TypeM α) : Grows (ofTypeM x) := fun d => le_refl d

theorem grows_tell (e : Event) : Grows (tell e) := le_refl

theorem grows_temporary (t : Ty) : Grows (temporary t) :=
  fun d => d.names.le_fresh "tmp"

theorem ofExcept_ok {x : Except Fault α} {d d' : Draft} {a : α}
    (h : ofExcept x d = (.ok a, d')) : x = .ok a ∧ d' = d := by
  cases x <;> cases h
  exact ⟨rfl, rfl⟩

theorem ofExcept_apply (x : Except Fault α) (d : Draft) : ofExcept x d = (x, d) := by
  cases x <;> rfl

/-- Every result of a step has a property. -/
def Ensures (x : DraftM α) (P : α → Prop) : Prop :=
  ∀ d d' a, x d = (.ok a, d') → P a

theorem Ensures.pure {a : α} {P : α → Prop} (h : P a) : Ensures (Pure.pure a) P := by
  intro d d' b hb
  cases hb
  exact h

theorem Ensures.refuse (c : Cause) (P : α → Prop) : Ensures (DraftM.refuse c) P := by
  intro d d' b hb
  cases hb

theorem Ensures.bind {x : DraftM α} {f : α → DraftM β} {P : α → Prop} {Q : β → Prop}
    (hx : Ensures x P) (hf : ∀ a, P a → Ensures (f a) Q) : Ensures (x >>= f) Q := by
  intro d d' b h
  obtain ⟨a, d₁, h₁, h₂⟩ := bind_ok h
  exact hf a (hx _ _ _ h₁) _ _ _ h₂

/-- A property that does not depend on what the first part gives. -/
theorem Ensures.after {x : DraftM α} {f : α → DraftM β} {Q : β → Prop}
    (hf : ∀ a, Ensures (f a) Q) : Ensures (x >>= f) Q := by
  intro d d' b h
  obtain ⟨a, d₁, -, h₂⟩ := bind_ok h
  exact hf a _ _ _ h₂

/-! ### Steady steps -/

theorem Steady.pure (a : α) : Steady (Pure.pure a : DraftM α) where
  grows := .pure a
  again h _ := by
    cases h
    rfl

/-- Sequencing is steady if what follows is, for the results that the first part has. -/
theorem Steady.bind_ensures {x : DraftM α} {f : α → DraftM β} {P : α → Prop} (hx : Steady x)
    (hP : Ensures x P) (hf : ∀ a, P a → Steady (f a)) : Steady (x >>= f) where
  grows d := by
    rw [bind_apply]
    rcases h : x d with ⟨_ | a, d'⟩
    · exact hx.grows.apply h
    · exact (hx.grows.apply h).trans ((hf a (hP _ _ _ h)).grows d')
  again {d d' D b} h hD := by
    obtain ⟨a, d₁, h₁, h₂⟩ := bind_ok h
    have hfa : Steady (f a) := hf a (hP _ _ _ h₁)
    have hle : d₁ ≤ D := (hfa.grows.apply h₂).trans hD
    have hxD := hx.again h₁ hle
    rcases hres : x D with ⟨r, D₁⟩
    rw [hres] at hxD
    obtain rfl : r = .ok a := hxD
    rw [bind_apply, hres]
    exact hfa.again h₂ (hD.trans (hx.grows.apply hres))

theorem Steady.bind {x : DraftM α} {f : α → DraftM β} (hx : Steady x) (hf : ∀ a, Steady (f a)) :
    Steady (x >>= f) :=
  hx.bind_ensures (P := fun _ => True) (fun _ _ _ _ => trivial) fun a _ => hf a

/-- A step that only fails is steady. -/
theorem Steady.of_error {x : DraftM α} (hx : Grows x) (h : ∀ d a, (x d).1 ≠ .ok a) : Steady x where
  grows := hx
  again h₁ _ := absurd (congrArg Prod.fst h₁) (h _ _)

theorem Steady.refuse (c : Cause) : Steady (DraftM.refuse c : DraftM α) :=
  .of_error le_refl (fun _ _ h => by cases h)

theorem Steady.stop (a : Abort) : Steady (DraftM.stop a : DraftM α) :=
  .of_error le_refl (fun _ _ h => by cases h)

theorem Steady.ofTypeM {x : TypeM α} (hx : x.Steady) : Steady (DraftM.ofTypeM x) where
  grows := grows_ofTypeM x
  again {d d' D a} h _ := by
    have hres : (x d.records).1 = .ok a := congrArg Prod.fst h
    exact (hx D.records d.records).trans hres

theorem steady_goType (t : Ty) : Steady (goType t) := .ofTypeM (TypeM.steady_goType false t)

theorem steady_zeroValue (t : Ty) : Steady (zeroValue t) := .ofTypeM (TypeM.steady_zeroValue t)

/-- The identifier of a binding is the same ever after. -/
theorem steady_nameOf (raw : String) : Steady (nameOf raw) where
  grows := fun d => d.names.le_bind raw
  again {d d' D x} h hD := by
    cases h
    have hx := hD.local? (d.names.local?_bind raw)
    have hb : D.names.bind raw = ((d.names.bind raw).1, D.names) := NameTable.bind_of_local? hx
    exact congrArg (fun b => Except.ok b.1) hb

theorem steady_localVar (raw : String) : Steady (localVar raw) :=
  (steady_nameOf raw).bind fun _ => .pure _

/-! ### Properties of lowering -/

/-- A property of steps that every step of lowering has as soon as asking for the identifiers
that it mentions has it. -/
structure Closed (C : (α : Type) → DraftM α → Prop) : Prop where
  pure {α : Type} (a : α) : C α (Pure.pure a)
  bind {α β : Type} {x : DraftM α} {f : α → DraftM β} {P : α → Prop} :
    C α x → Ensures x P → (∀ a, P a → C β (f a)) → C β (x >>= f)
  refuse {α : Type} (c : Cause) : C α (DraftM.refuse c)
  stop {α : Type} (a : Abort) : C α (DraftM.stop a)
  ofTypeM {α : Type} {x : TypeM α} : x.Steady → C α (DraftM.ofTypeM x)

namespace Closed

variable {C : (α : Type) → DraftM α → Prop} (hC : Closed C)

include hC

theorem seq {x : DraftM α} {f : α → DraftM β} (hx : C α x) (hf : ∀ a, C β (f a)) :
    C β (x >>= f) :=
  hC.bind (P := fun _ => True) hx (fun _ _ _ _ => trivial) fun a _ => hf a

theorem ofAbort (r : Except Abort α) : C α (DraftM.ofAbort r) := by
  cases r with
  | ok a => exact hC.pure a
  | error a => exact hC.stop a

theorem goType (t : Ty) : C Go.Expr (DraftM.goType t) := hC.ofTypeM (TypeM.steady_goType false t)

theorem goUnsigned (t : Ty) : C Go.Expr (DraftM.goUnsigned t) :=
  hC.ofTypeM (TypeM.steady_goType true t)

theorem zeroValue (t : Ty) : C Go.Expr (DraftM.zeroValue t) := hC.ofTypeM (TypeM.steady_zeroValue t)

theorem useImport (package : String) : C Unit (DraftM.useImport package) :=
  hC.ofTypeM (TypeM.steady_useImport package)

end Closed

theorem closed_steady : Closed (fun _ x => Steady x) where
  pure := .pure
  bind := .bind_ensures
  refuse := .refuse
  stop := .stop
  ofTypeM := .ofTypeM

/-! ### Names that are not touched -/

/-- A step leaves a name table as it is. -/
def Keeps (t : NameTable) (x : DraftM α) : Prop :=
  ∀ d, d.names = t → (x d).2.names = t

theorem Keeps.apply {t : NameTable} {x : DraftM α} {d d' : Draft} {r : Except Fault α}
    (h : Keeps t x) (hx : x d = (r, d')) (hd : d.names = t) : d'.names = t := by
  have := h d hd
  rwa [hx] at this

/-- A binding that has an identifier needs no other. -/
theorem keeps_localVar {t : NameTable} {raw : String} (h : ∃ x, t.local? raw = some x) :
    Keeps t (localVar raw) := by
  obtain ⟨x, hx⟩ := h
  rintro d rfl
  show (d.names.bind raw).2 = d.names
  rw [NameTable.bind_of_local? hx]

theorem closed_keeps (t : NameTable) : Closed (fun _ x => Keeps t x) where
  pure _ _ hd := hd
  bind {_ _ x f P} hx hP hf d hd := by
    rw [bind_apply]
    rcases h : x d with ⟨_ | a, d'⟩
    · exact hx.apply h hd
    · exact hf a (hP _ _ _ h) d' (hx.apply h hd)
  refuse _ _ hd := hd
  stop _ _ hd := hd
  ofTypeM _ _ hd := hd

/-! ### Results at some time before -/

theorem Gives.of_apply {x : DraftM α} {d d' : Draft} {a : α} (h : x d = (.ok a, d')) :
    Gives x d' a :=
  ⟨d, d', h, le_refl d'⟩

theorem Gives.mono {x : DraftM α} {D D' : Draft} {a : α} (h : Gives x D a) (hD : D ≤ D') :
    Gives x D' a :=
  let ⟨d, d', hx, hd⟩ := h
  ⟨d, d', hx, hd.trans hD⟩

/-- What a steady step gave before a draft, it gives from it. -/
theorem Gives.now {x : DraftM α} {D : Draft} {a : α} (h : Gives x D a) (hx : Steady x) :
    (x D).1 = .ok a :=
  let ⟨_, _, h, hd⟩ := h
  hx.again h hd

theorem Gives.pure {D : Draft} {a b : α} (h : Gives (Pure.pure a) D b) : b = a := by
  obtain ⟨d, d', h, -⟩ := h
  cases h
  rfl

/-- A sequence gave a result when its parts did. -/
theorem Gives.bind {x : DraftM α} {f : α → DraftM β} {D : Draft} {b : β}
    (h : Gives (x >>= f) D b) (hf : ∀ a, Grows (f a)) : ∃ a, Gives x D a ∧ Gives (f a) D b := by
  obtain ⟨d, d', h, hD⟩ := h
  obtain ⟨a, d₁, h₁, h₂⟩ := bind_ok h
  exact ⟨a, ⟨d, d₁, h₁, ((hf a).apply h₂).trans hD⟩, d₁, d', h₂, hD⟩

/-- What a step ensures, holds of what it gave. -/
theorem Gives.ensured {x : DraftM α} {D : Draft} {a : α} {P : α → Prop} (h : Gives x D a)
    (hP : Ensures x P) : P a :=
  let ⟨_, _, h, _⟩ := h
  hP _ _ _ h

theorem Gives.of_refuse {D : Draft} {c : Cause} {a : α} (h : Gives (DraftM.refuse c) D a) :
    False := by
  obtain ⟨d, d', h, -⟩ := h
  cases h

/-! ### Steps that cannot fail -/

/-- A step comes to a result from every draft. -/
def Succeeds (x : DraftM α) : Prop :=
  ∀ d, ∃ a d', x d = (.ok a, d')

theorem Succeeds.pure (a : α) : Succeeds (Pure.pure a) := fun d => ⟨a, d, rfl⟩

theorem Succeeds.bind {x : DraftM α} {f : α → DraftM β} (hx : Succeeds x)
    (hf : ∀ a, Succeeds (f a)) : Succeeds (x >>= f) := by
  intro d
  obtain ⟨a, d₁, hx⟩ := hx d
  obtain ⟨b, d₂, hfa⟩ := hf a d₁
  exact ⟨b, d₂, by rw [bind_of_ok hx, hfa]⟩

theorem succeeds_localVar (raw : String) : Succeeds (localVar raw) := fun _ => ⟨_, _, rfl⟩

theorem succeeds_temporary (type : Ty) : Succeeds (temporary type) := fun _ => ⟨_, _, rfl⟩

theorem succeeds_tell (e : Event) : Succeeds (tell e) := fun _ => ⟨_, _, rfl⟩

end DraftM

/-! ### Locals -/

open DraftM

theorem gives_localVar {raw : String} {D : Draft} {e : Go.Expr} (h : Gives (localVar raw) D e) :
    ∃ x, D.names.local? raw = some x ∧ e = .ident x := by
  obtain ⟨d, d', h, hD⟩ := h
  cases h
  exact ⟨_, hD.local? (d.names.local?_bind raw), rfl⟩

theorem gives_lower_localRef {scope : Scope} {name : String} {type : Ty} {D : Draft} {e : Go.Expr}
    (h : Gives ((Value.localRef name type).lower scope) D e) :
    ∃ x, D.names.local? name = some x ∧ e = .ident x := by
  rw [Value.lower] at h
  exact gives_localVar h

end GoLift
