import GoLift.Proofs.Lower.Forms
import GoLift.Proofs.Lower.Steady

/-!
# Lowering emits the forms

`Emits le P x Q` says that what a step gives has the property `Q` in every state that comes after
the step, provided that `P` holds of that state. Because nothing is ever taken out of the records
or the name table, facts about the parts of an expression can all be stated at the end of the
work, and need not be carried from one draft to the next.

With it, each function of the lowering is shown to emit a form (`Lower.emits_instr` and the others):
the packages and the structs that code needs are recorded when it is lowered, and its identifiers
for values are those of the name table, of temporaries and of the globals that it mentions.
-/

set_option autoImplicit false

namespace GoLift

open Go (Expr Stmt FieldDecl)

/-! ### Steps and the states after them -/

/-- A step grows the state, and what it gives has a property in every state after it in which the
precondition holds. -/
structure Emits {S α : Type} (le : S → S → Prop) (P : S → Prop) (x : ExceptT Fault (StateM S) α)
    (Q : S → α → Prop) : Prop where
  grows : ∀ {s s₁ : S} {a : α}, x s = (.ok a, s₁) → le s s₁
  holds : ∀ {s s₁ D : S} {a : α}, x s = (.ok a, s₁) → le s₁ D → P D → Q D a

namespace Emits

variable {S α β : Type} {le : S → S → Prop} {P P' : S → Prop} {Q : S → α → Prop}
  {R : S → β → Prop}

theorem refuse {f : Fault} : Emits le P (throw f : ExceptT Fault (StateM S) α) Q where
  grows h := by cases h
  holds h := by cases h

theorem imp {x : ExceptT Fault (StateM S) α} {Q' : S → α → Prop} (hx : Emits le P x Q)
    (h : ∀ D a, P D → Q D a → Q' D a) : Emits le P x Q' where
  grows := hx.grows
  holds hx' hD hP := h _ _ hP (hx.holds hx' hD hP)

variable [IsPreorder S le]

theorem pure {a : α} (h : ∀ D, P D → Q D a) : Emits le P (Pure.pure a) Q where
  grows h := by
    cases h
    exact refl_of le _
  holds hx _ hP := by
    cases hx
    exact h _ hP

/-- What follows may rely on what the first part gave. -/
theorem bind {x : ExceptT Fault (StateM S) α} {f : α → ExceptT Fault (StateM S) β}
    (hx : Emits le P x Q) (hf : ∀ a, Emits le (fun D => P D ∧ Q D a) (f a) R) :
    Emits le P (x >>= f) R where
  grows {s s₂ b} h := by
    obtain ⟨a, s₁, h₁, h⟩ := bind_ok h
    exact trans_of le (hx.grows h₁) ((hf a).grows h)
  holds {s s₂ D b} h hD hP := by
    obtain ⟨a, s₁, h₁, h⟩ := bind_ok h
    exact (hf a).holds h hD ⟨hP, hx.holds h₁ (trans_of le ((hf a).grows h) hD) hP⟩

/-- What follows does not rely on what the first part gave. -/
theorem after {x : ExceptT Fault (StateM S) α} {f : α → ExceptT Fault (StateM S) β}
    (hx : Emits le P x Q) (hf : ∀ a, Emits le P (f a) R) : Emits le P (x >>= f) R :=
  hx.bind fun a => ⟨(hf a).grows, fun h hD hP => (hf a).holds h hD hP.1⟩

end Emits

/-! ### Types -/

instance : IsPreorder Records Records.Le where
  refl := .refl
  trans _ _ _ := .trans

namespace TypeM

variable {P : Records → Prop}

theorem emits_useImport (p : String) :
    Emits Records.Le P (useImport p) (fun r _ => p ∈ r.imports) where
  grows h := by
    cases h
    exact Records.le_addImport _ _
  holds h hD _ := by
    cases h
    exact hD.imports (Records.mem_addImport.2 (.inr rfl))

theorem emits_useNamed (n : String) :
    Emits Records.Le P (useNamed n) (fun r _ => n ∈ r.named) where
  grows h := by
    cases h
    exact Records.le_addNamed _ _
  holds h hD _ := by
    cases h
    exact hD.named (Records.mem_addNamed.2 (.inr rfl))

theorem emits_goIntType (unsigned : Bool) (width : Nat) :
    Emits Records.Le P (goIntType unsigned width) TypeForm := by
  unfold goIntType
  split
  · exact .pure fun _ _ => .word (by decide)
  · split
    · next h =>
      refine .pure fun _ _ => .word ?_
      have hwidth : width = 8 ∨ width = 16 ∨ width = 32 ∨ width = 64 := by
        simpa [goWidths] using h
      obtain rfl | rfl | rfl | rfl := hwidth <;> cases unsigned <;> decide
    · exact .refuse

/-- The types of some names. -/
def FieldForms (r : Records) (fs : List FieldDecl) : Prop :=
  ∀ f ∈ fs, TypeForm r (fieldType f)

theorem fieldForms_nameless {r : Records} {ts : List Expr} (h : ∀ t ∈ ts, TypeForm r t) :
    FieldForms r (namelessFields ts) := by
  intro f hf
  obtain ⟨t, ht, rfl⟩ := List.mem_map.1 hf
  exact h t ht

theorem fieldForms_numbered {r : Records} {ts : List Expr} (h : ∀ t ∈ ts, TypeForm r t) :
    FieldForms r (numberedFields ts) := by
  intro f hf
  obtain ⟨⟨t, i⟩, ht, rfl⟩ := List.mem_map.1 hf
  exact h t (List.fst_mem_of_mem_zipIdx ht)

theorem fieldForms_tail {r : Records} {varArg : Bool} {names : List String} :
    FieldForms r (if varArg then [FieldDecl.mk names variadicType] else []) := by
  cases varArg with
  | false => simp [FieldForms]
  | true =>
    intro f hf
    obtain rfl := List.mem_singleton.1 hf
    exact .variadic

theorem FieldForms.append {r : Records} {fs gs : List FieldDecl} (hf : FieldForms r fs)
    (hg : FieldForms r gs) : FieldForms r (fs ++ gs) := by
  intro f h
  exact (List.mem_append.1 h).elim (hf f) (hg f)

theorem emits_goResults {t : Ty}
    (h : Emits Records.Le P (goType false t) TypeForm) :
    Emits Records.Le P (goResults t) FieldForms := by
  have hsome : Emits Records.Le P
      (do return [FieldDecl.mk [] (← goType false t)]) FieldForms := by
    refine h.bind fun x => .pure fun D hD f hf => ?_
    obtain rfl := List.mem_singleton.1 hf
    exact hD.2
  cases t with
  | void => simpa only [goResults] using .pure fun D _ => by simp [FieldForms]
  | _ => simpa only [goResults] using hsome

mutual

theorem emits_goType {P : Records → Prop} (unsigned : Bool) :
    ∀ (t : Ty), Emits Records.Le P (goType unsigned t) TypeForm
  | .int width => by simpa only [goType] using emits_goIntType unsigned width
  | .double | .float => by
      simpa only [goType] using .pure fun _ _ => .word (by decide)
  | .opaquePtr => by
      simpa only [goType] using
        (emits_useImport _).bind fun _ => .pure fun _ h => .unsafePointer h.2
  | .ptr t => by
      simpa only [goType] using (emits_goType false t).bind fun _ => .pure fun _ h => .star h.2
  | .func ret params varArg => by
      simp only [goType]
      refine (emits_goTypes params).bind fun ts =>
        (emits_goResults (emits_goType false ret)).bind fun rs => .pure fun D h => ?_
      exact .func ((fieldForms_nameless h.1.2).append fieldForms_tail) h.2
  | .named name => by
      simpa only [goType] using (emits_useNamed _).bind fun _ => .pure fun _ h => .named h.2
  | .struct ts => by
      simpa only [goType] using
        (emits_goTypes ts).bind fun _ => .pure fun _ h => .struct (fieldForms_numbered h.2)
  | .array count t => by
      simpa only [goType] using (emits_goType false t).bind fun _ => .pure fun _ h => .array h.2
  | .void | .half | .label | .metadata => by simpa only [goType] using .refuse
  | .vector .. => by simpa only [goType] using .refuse

theorem emits_goTypes {P : Records → Prop} :
    ∀ (ts : List Ty), Emits Records.Le P (goTypes ts) (fun r xs => ∀ x ∈ xs, TypeForm r x)
  | [] => by simpa only [goTypes] using .pure fun _ _ => by simp
  | t :: ts => by
      simp only [goTypes]
      refine (emits_goType false t).bind fun _ => (emits_goTypes ts).bind fun _ => .pure fun _ h => ?_
      simpa using ⟨h.1.2, h.2⟩

end

theorem emits_goStruct (body : Option (List Ty)) :
    Emits Records.Le P (goStruct body) TypeForm :=
  (emits_goTypes _).bind fun _ => .pure fun _ h => .struct (fieldForms_numbered h.2)

theorem fieldForms_zipWith {r : Records} {names : List String} {ts : List Expr}
    (h : ∀ t ∈ ts, TypeForm r t) :
    FieldForms r (names.zipWith (fun n t => FieldDecl.mk [n] t) ts) := by
  intro f hf
  rw [← List.map_uncurry_zip_eq_zipWith] at hf
  obtain ⟨⟨n, t⟩, ht, rfl⟩ := List.mem_map.1 hf
  exact h t (List.of_mem_zip ht).2

theorem emits_goSignature (names : List String) (params : List Ty) (ret : Ty) (varArg : Bool) :
    Emits Records.Le P (goSignature names params ret varArg)
      (fun r t => FieldForms r t.params ∧ FieldForms r t.results) := by
  refine (emits_goTypes params).bind fun ts =>
    (emits_goResults (emits_goType false ret)).bind fun rs => .pure fun D h => ?_
  refine ⟨FieldForms.append ?_ fieldForms_tail, h.2⟩
  split
  · exact fieldForms_zipWith h.1.2
  · exact fieldForms_nameless h.1.2

theorem emits_zeroValue (V : String → Prop) (t : Ty) :
    Emits Records.Le P (zeroValue t) (ValueForm V) := by
  have hword {n : String} (h : n ∈ valueWords) :
      Emits Records.Le P (pure (.ident n)) (ValueForm V) := .pure fun _ _ => .word h
  have hcomposite {x : TypeM Expr} (h : Emits Records.Le P x TypeForm) :
      Emits Records.Le P (do return .composite (← x) []) (ValueForm V) :=
    h.bind fun _ => .pure fun _ h => .composite h.2 (by simp)
  cases t with
  | int width =>
    unfold zeroValue
    simp only
    split
    · exact hword (by decide)
    · exact (emits_goIntType _ _).after fun _ => .pure fun _ _ => .lit
  | float | double => exact .pure fun _ _ => .lit
  | opaquePtr | ptr _ | func _ _ _ => exact hword (by decide)
  | named _ | struct _ | array _ _ => exact hcomposite (emits_goType _ _)
  | void | half | label | metadata | vector _ _ => exact .refuse

end TypeM

/-! ### Drafts -/

mutual

/-- The functions and global variables that a value mentions. -/
def Value.globals : Value → List String
  | .localRef .. => []
  | .globalRef name _ => [name]
  | .const _ p => p.globals

/-- The functions and global variables that a payload mentions. -/
def Payload.globals : Payload → List String
  | .ref v => v.globals
  | .elements vs => Value.globalsOf vs
  | .list items => Payload.globalsOf items
  | .null | .undef | .int _ | .float _ => []

/-- The functions and global variables that a list of values mentions. -/
def Value.globalsOf : List Value → List String
  | [] => []
  | v :: vs => v.globals ++ Value.globalsOf vs

/-- The functions and global variables that a list of payloads mentions. -/
def Payload.globalsOf : List Payload → List String
  | [] => []
  | p :: ps => p.globals ++ Payload.globalsOf ps

end

theorem mem_globalsOf {g : String} {vs : List Value} :
    g ∈ Value.globalsOf vs ↔ ∃ v ∈ vs, g ∈ v.globals := by
  induction vs with
  | nil => simp [Value.globalsOf]
  | cons v vs ih => simp [Value.globalsOf, ih]

namespace Draft

/-- The identifiers that stand for values: those of bindings, of the variables to declare, and of
the functions and global variables that are mentioned. -/
def Values (refs : List String) (D : Draft) (n : String) : Prop :=
  (∃ raw, D.names.local? raw = some n) ∨ n ∈ D.declared.map Prod.fst ∨ ∃ g ∈ refs, n = goName g

/-- What a function introduces, its parameters and the variables to declare, are different
identifiers, each that of a binding or a temporary. -/
structure Owns (bindings params : List String) (d : Draft) : Prop where
  sound : d.names.Sound
  /-- The identifier of a binding is made from its name. -/
  variant : ∀ {raw x : String}, d.names.local? raw = some x →
    ∃ k, x = NameTable.variant (goName raw) k
  nodup : (params ++ d.declared.map Prod.fst).Nodup
  bound : ∀ raw ∈ bindings, ∃ x ∈ params ++ d.declared.map Prod.fst, d.names.local? raw = some x
  owned : ∀ x ∈ params ++ d.declared.map Prod.fst,
    (∃ raw ∈ bindings, d.names.local? raw = some x) ∨
      d.names.Reserved x ∧ ∃ k, x = NameTable.temporary "tmp" k

/-- Nothing that a draft holds is given up. -/
structure Extends (d d' : Draft) : Prop where
  names : d ≤ d'
  declared : d.declared <+: d'.declared
  records : d.records.Le d'.records
  owns : ∀ {bindings params : List String}, d.Owns bindings params → d'.Owns bindings params

instance : IsPreorder Draft Extends where
  refl d := ⟨le_refl d, List.prefix_refl _, .refl _, id⟩
  trans _ _ _ h h' :=
    ⟨h.names.trans h'.names, h.declared.trans h'.declared, h.records.trans h'.records,
      h'.owns ∘ h.owns⟩

namespace Owns

variable {bindings params : List String} {d d' : Draft}

/-- What is introduced does not change when only the names grow. -/
theorem mono (h : d.Owns bindings params) (hnames : d ≤ d') (hdeclared : d'.declared = d.declared)
    (hvariant : ∀ {raw x : String}, d'.names.local? raw = some x →
      ∃ k, x = NameTable.variant (goName raw) k) : d'.Owns bindings params where
  sound := hnames.sound h.sound
  variant := hvariant
  nodup := hdeclared ▸ h.nodup
  bound raw hraw := by
    obtain ⟨x, hx, hlocal⟩ := h.bound raw hraw
    exact ⟨x, hdeclared ▸ hx, hnames.local? hlocal⟩
  owned x hx := by
    obtain ⟨raw, hraw, hlocal⟩ | ⟨hreserved, hk⟩ := h.owned x (hdeclared ▸ hx)
    · exact .inl ⟨raw, hraw, hnames.local? hlocal⟩
    · exact .inr ⟨hreserved.mono hnames, hk⟩

theorem used (h : d.Owns bindings params) {x : String}
    (hx : x ∈ params ++ d.declared.map Prod.fst) : x ∈ d.names.used := by
  obtain ⟨raw, -, hlocal⟩ | ⟨hreserved, -⟩ := h.owned x hx
  · exact h.sound.mem_used hlocal
  · exact hreserved.used

/-- Asking for an identifier introduces nothing. -/
theorem bind (h : d.Owns bindings params) (raw : String) :
    { d with names := (d.names.bind raw).2 }.Owns bindings params := by
  refine h.mono (d.names.le_bind raw) rfl fun hx => ?_
  obtain hx | ⟨rfl, rfl⟩ := NameTable.local?_of_bind hx
  · exact h.variant hx
  · exact ⟨_, rfl⟩

/-- A temporary is introduced, which is not introduced yet. -/
theorem fresh (h : d.Owns bindings params) (t : Ty) :
    { d with
      names := (d.names.fresh "tmp").2
      declared := d.declared ++ [((d.names.fresh "tmp").1, t)] }.Owns bindings params := by
  have hle : d.names.Le (d.names.fresh "tmp").2 := d.names.le_fresh "tmp"
  have hnew := d.names.fresh_not_mem "tmp"
  -- The temporary is behind all variables, and each of them is in use already.
  refine ⟨hle.sound h.sound, h.variant, ?_, fun raw hraw => ?_, fun x hx => ?_⟩
  · rw [List.map_append, ← List.append_assoc, List.nodup_append]
    refine ⟨h.nodup, by simp, fun x hx y hy heq => ?_⟩
    obtain rfl : y = (d.names.fresh "tmp").1 := by simpa using hy
    exact hnew (heq ▸ h.used hx)
  · obtain ⟨x, hx, hlocal⟩ := h.bound raw hraw
    refine ⟨x, ?_, hlocal⟩
    rw [List.map_append, ← List.append_assoc]
    exact List.mem_append_left _ hx
  · rw [List.map_append, ← List.append_assoc, List.mem_append] at hx
    obtain hx | hx := hx
    · obtain hx | ⟨hreserved, hk⟩ := h.owned x hx
      · exact .inl hx
      · exact .inr ⟨hreserved.mono hle, hk⟩
    · obtain rfl : x = (d.names.fresh "tmp").1 := by simpa using hx
      exact .inr ⟨NameTable.reserved_fresh h.sound "tmp", _, rfl⟩

end Owns

/-- A draft with other records is one that has grown. -/
theorem Extends.of_records {d d' : Draft} (hnames : d'.names = d.names)
    (hdeclared : d'.declared = d.declared) (hrecords : d.records.Le d'.records) :
    d.Extends d' := by
  have hle : d ≤ d' := by
    show d.names.Le d'.names
    rw [hnames]
    exact .refl _
  refine ⟨hle, hdeclared ▸ List.prefix_refl _, hrecords, fun h => h.mono hle hdeclared ?_⟩
  rw [hnames]
  exact h.variant

/-- An expression is one for a value. -/
abbrev IsValue (refs : List String) (D : Draft) (x : Expr) : Prop :=
  ValueForm (D.Values refs) D.records x

/-- An expression is a type. -/
abbrev IsType (D : Draft) (t : Expr) : Prop := TypeForm D.records t

/-- Statements are code. -/
def AreStmts (refs : List String) (D : Draft) (ss : List Stmt) : Prop :=
  ∀ s ∈ ss, StmtForm (D.Values refs) D.records s

namespace AreStmts

variable {refs : List String} {D : Draft} {s : Stmt} {ss ts : List Stmt}

theorem nil : AreStmts refs D [] := by simp [AreStmts]

theorem cons (hs : StmtForm (D.Values refs) D.records s) (hss : AreStmts refs D ss) :
    AreStmts refs D (s :: ss) :=
  List.forall_mem_cons.2 ⟨hs, hss⟩

theorem single (hs : StmtForm (D.Values refs) D.records s) : AreStmts refs D [s] :=
  cons hs nil

theorem append (hs : AreStmts refs D ss) (ht : AreStmts refs D ts) : AreStmts refs D (ss ++ ts) := by
  intro s h
  exact (List.mem_append.1 h).elim (hs s) (ht s)

end AreStmts

end Draft

open Draft (Extends IsValue IsType AreStmts)

variable {refs : List String} {P : Draft → Prop}

open DraftM in
/-- What follows may rely on what the results of the first part have in common. -/
theorem Emits.bind_ensures {α β : Type} {x : DraftM α} {f : α → DraftM β} {φ : α → Prop}
    {Q : Draft → α → Prop} {R : Draft → β → Prop} (hx : Emits Extends P x Q) (hφ : Ensures x φ)
    (hf : ∀ a, φ a → Emits Extends (fun D => P D ∧ Q D a) (f a) R) :
    Emits Extends P (x >>= f) R where
  grows h := by
    obtain ⟨a, s₁, h₁, h₂⟩ := bind_ok h
    exact trans_of Extends (hx.grows h₁) ((hf a (hφ _ _ _ h₁)).grows h₂)
  holds h hD hP := by
    obtain ⟨a, s₁, h₁, h₂⟩ := bind_ok h
    have hfa := hf a (hφ _ _ _ h₁)
    exact hfa.holds h₂ hD ⟨hP, hx.holds h₁ (trans_of Extends (hfa.grows h₂) hD) hP⟩

namespace DraftM

theorem emits_ofTypeM {α : Type} {x : TypeM α} {Q : Records → α → Prop}
    (h : Emits Records.Le (fun _ => True) x Q) :
    Emits Extends P (ofTypeM x) (fun D a => Q D.records a) where
  grows {d d₁ a} hx := by
    rcases hr : x d.records with ⟨_ | b, r⟩ <;> simp only [ofTypeM, hr] at hx
    · cases hx
    · cases hx
      exact .of_records rfl rfl (h.grows hr)
  holds {d d₁ D a} hx hD _ := by
    rcases hr : x d.records with ⟨_ | b, r⟩ <;> simp only [ofTypeM, hr] at hx
    · cases hx
    · cases hx
      exact h.holds hr hD.records trivial

theorem emits_goType (t : Ty) : Emits Extends P (goType t) IsType :=
  emits_ofTypeM (TypeM.emits_goType false t)

theorem emits_goUnsigned (t : Ty) : Emits Extends P (goUnsigned t) IsType :=
  emits_ofTypeM (TypeM.emits_goType true t)

variable (refs) in
theorem emits_zeroValue (t : Ty) : Emits Extends P (zeroValue t) (IsValue refs) where
  grows := (emits_ofTypeM (P := P) (TypeM.emits_zeroValue (fun _ => True) t)).grows
  holds {_ _ D _} h hD hP :=
    (emits_ofTypeM (TypeM.emits_zeroValue (D.Values refs) t)).holds h hD hP

theorem emits_useImport (p : String) :
    Emits Extends P (useImport p) (fun D _ => p ∈ D.records.imports) :=
  emits_ofTypeM (TypeM.emits_useImport p)

theorem emits_nameOf (raw : String) :
    Emits Extends P (nameOf raw) (fun D n => D.names.local? raw = some n) where
  grows {d d₁ a} h := by
    cases h
    exact ⟨d.names.le_bind raw, List.prefix_refl _, .refl _, fun h => h.bind raw⟩
  holds {d d₁ D a} h hD _ := by
    cases h
    exact hD.names.local? (d.names.local?_bind raw)

variable (refs) in
theorem emits_localVar (raw : String) : Emits Extends P (localVar raw) (IsValue refs) :=
  (emits_nameOf raw).bind fun _ => .pure fun _ h => .name (.inl ⟨_, h.2⟩)

theorem emits_temporary (t : Ty) :
    Emits Extends P (temporary t) (fun D n => (n, t) ∈ D.declared) where
  grows {d d₁ a} h := by
    cases h
    exact ⟨d.names.le_fresh "tmp", List.prefix_append _ _, .refl _, fun h => h.fresh t⟩
  holds {d d₁ D a} h hD _ := by
    cases h
    exact hD.declared.subset (by simp)

theorem emits_tell (e : Event) : Emits Extends P (tell e) (fun _ _ => True) where
  grows {d d₁ a} h := by
    cases h
    exact .of_records rfl rfl (.refl _)
  holds _ _ _ := trivial

theorem emits_ofAbort {α : Type} (r : Except Abort α) :
    Emits Extends P (ofAbort r) (fun _ _ => True) := by
  cases r with
  | ok a => exact .pure fun _ _ => trivial
  | error a => exact .refuse

theorem emits_ofExcept {α : Type} (x : Except Fault α) :
    Emits Extends P (DraftM.ofExcept x) (fun _ a => x = .ok a) := by
  cases x with
  | ok a => exact .pure fun _ _ => rfl
  | error f => exact .refuse

end DraftM

open DraftM

/-! ### Values -/

theorem emits_floatExpr (x : Double) : Emits Extends P (floatExpr x) (IsValue refs) := by
  cases x with
  | nan => exact (emits_useImport _).bind fun _ => .pure fun _ h => .math h.2 (by simp)
  | infinity negative =>
    exact (emits_useImport _).bind fun _ => .pure fun _ h =>
      .math h.2 (by simpa using ValueForm.lit)
  | finite negative m e => exact .pure fun _ _ => .lit

theorem emits_scalarExpr (type : Ty) (p : Payload) :
    Emits Extends P (scalarExpr type p) (IsValue refs) := by
  unfold scalarExpr
  split
  · refine .pure fun _ _ => .word ?_
    split <;> decide
  · exact (emits_goType _).after fun _ => (emits_ofAbort _).after fun _ => .pure fun _ _ => .lit
  · exact (emits_ofAbort _).after fun x => emits_floatExpr x
  · refine (emits_ofAbort _).after fun x => ?_
    split
    · exact emits_floatExpr _
    · exact .refuse
  · exact .refuse
  · exact .refuse
  · exact .refuse
  · exact .refuse

theorem emits_globalExpr (scope : Scope) {name : String} (h : name ∈ refs) :
    Emits Extends P (pure (globalExpr scope name)) (IsValue refs) := by
  have hname (D : Draft) : IsValue refs D (.ident (goName name)) :=
    .name (.inr (.inr ⟨name, h, rfl⟩))
  unfold globalExpr
  split
  · exact .pure fun D _ => .unary (hname D)
  · exact .pure fun D _ => hname D

mutual

theorem emits_lower (scope : Scope) :
    ∀ (v : Value) {P : Draft → Prop}, v.globals ⊆ refs → Emits Extends P (v.lower scope) (IsValue refs)
  | .localRef name _, _, _ => by simpa only [Value.lower] using emits_localVar refs name
  | .globalRef name _, _, h => by
      simpa only [Value.lower] using emits_globalExpr scope (h (by simp [Value.globals]))
  | .const type p, _, h => by
      simpa only [Value.lower] using emits_payload scope type p (by simpa [Value.globals] using h)

theorem emits_payload (scope : Scope) (type : Ty) :
    ∀ (p : Payload) {P : Draft → Prop}, p.globals ⊆ refs →
      Emits Extends P (p.lower scope type) (IsValue refs)
  | .ref (.localRef name _), _, _ => by simpa only [Payload.lower] using emits_localVar refs name
  | .ref (.globalRef name _), _, h => by
      simpa only [Payload.lower] using
        emits_globalExpr scope (h (by simp [Payload.globals, Value.globals]))
  | .ref (.const ..), _, _ => by simpa only [Payload.lower] using emits_scalarExpr _ _
  | .null, _, _ | .undef, _, _ => by simpa only [Payload.lower] using emits_zeroValue refs type
  | .elements vs, _, h => by
      unfold Payload.lower
      split
      · refine (emits_lowerAll scope vs (by simpa [Payload.globals] using h)).bind fun xs =>
          (emits_goType _).bind fun t => .pure fun D hD => ?_
        exact .composite hD.2 hD.1.2
      · exact emits_scalarExpr _ _
  | .int _, _, _ | .float _, _, _ | .list _, _, _ => by
      simpa only [Payload.lower] using emits_scalarExpr _ _

theorem emits_lowerAll (scope : Scope) :
    ∀ (vs : List Value) {P : Draft → Prop}, Value.globalsOf vs ⊆ refs →
      Emits Extends P (Value.lowerAll scope vs) (fun D xs => ∀ x ∈ xs, IsValue refs D x)
  | [], _, _ => by simpa only [Value.lowerAll] using .pure fun _ _ => by simp
  | v :: vs, _, h => by
      simp only [Value.globalsOf, List.append_subset] at h
      simp only [Value.lowerAll]
      refine (emits_lower scope v h.1).bind fun x => (emits_lowerAll scope vs h.2).bind fun xs =>
        .pure fun D hD => ?_
      simpa using ⟨hD.1.2, hD.2⟩

end

theorem emits_location (scope : Scope) (elem : Ty) (ptr : Value) (h : ptr.globals ⊆ refs) :
    Emits Extends P (ptr.location scope elem) (IsValue refs) := by
  have hderef : Emits Extends P (do
      let target ← ptr.lower scope
      if (ptr.declaredType scope).isOpaquePtr then
        return Expr.star (.call (.paren (.star (← DraftM.goType elem))) [target])
      else return .star target) (IsValue refs) := by
    refine (emits_lower scope ptr h).bind fun _ => ?_
    split
    · exact (emits_goType _).bind fun _ => .pure fun _ hD =>
        .star (.convert (.paren (.star hD.2)) hD.1.2)
    · exact .pure fun _ hD => .star hD.2
  cases ptr with
  | globalRef name type =>
    unfold Value.location
    simp only
    split
    · exact .pure fun _ _ => .name (.inr (.inr ⟨name, h (by simp [Value.globals]), rfl⟩))
    · exact hderef
  | localRef name type => exact hderef
  | const type p => exact hderef

end GoLift
