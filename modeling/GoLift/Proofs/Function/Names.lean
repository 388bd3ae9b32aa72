import GoLift.Proofs.Function.Forms

/-!
# The names in the scope of a function

A function introduces the identifiers of its bindings, one for each, and temporaries, and **these are
pairwise different** (`Function.Introduces`). Two things are not kept apart from them, since the name
table of a function starts out empty: the tail of a variadic parameter list, which is always called
`args`, and the identifiers with a meaning outside of the function, which are those of functions, of
global variables and of structs, and the words of the language. `Function.hygienic_iff` says exactly
when nothing is captured, and `Capturing` is a function that captures what it calls.
-/

set_option autoImplicit false

namespace GoLift

open Go (Expr Stmt FieldDecl FuncDecl Decl)
open Draft (Extends AreStmts)
open DraftM

/-! ### Identifiers of bindings -/

/-- Different bindings have different identifiers. -/
theorem NameTable.Sound.nodup {t : NameTable} {raws names : List String} (h : t.Sound)
    (hnames : List.Forall₂ (fun raw x => t.local? raw = some x) raws names) (hraws : raws.Nodup) :
    names.Nodup := by
  induction hnames with
  | nil => exact List.nodup_nil
  | @cons raw x raws names hx hrest ih =>
    obtain ⟨hraw, hraws⟩ := List.nodup_cons.1 hraws
    refine List.nodup_cons.2 ⟨fun hmem => hraw ?_, ih hraws⟩
    obtain ⟨a, ha, hax⟩ := mem_of_forall₂ hrest.flip hmem
    rwa [h.injective hx hax]

namespace Function

variable {f : Function} {globals : List String} {feeds : FeedSource} {r : FunctionResult}
  {results : List (String × Ty)} {su : Setup}

/-- The bindings of a function with some results: its parameters, then the results. -/
abbrev bindings (f : Function) (results : List (String × Ty)) : List String :=
  f.params.map Param.name ++ results.map Prod.fst

/-- Every binding has an identifier when a function is set up, and no other name has one. -/
structure Named (f : Function) (results : List (String × Ty)) (su : Setup) : Prop where
  names : su.draft.names.Names (f.bindings results)
  bound : List.Forall₂ (fun raw x => su.draft.names.local? raw = some x) (f.bindings results)
    (su.params ++ su.draft.declared.map Prod.fst)
  params : su.params.length = f.params.length

theorem named_of_setup (hsetup : f.setup globals = .ok su)
    (hresults : resultsOf f.body = .ok results) : f.Named results su := by
  obtain ⟨_, hresults', h⟩ := except_bind_ok hsetup
  rw [hresults] at hresults'
  cases hresults'
  cases h
  have hparams := NameTable.bindAll_local? {} (f.params.map Param.name)
  have hlocals := NameTable.bindAll_local? (NameTable.bindAll {} (f.params.map Param.name)).2
    (results.map Prod.fst)
  refine ⟨(NameTable.names_empty.bindAll _).bindAll _, List.rel_append ?_ ?_, ?_⟩
  · exact hparams.imp fun _ _ h => (NameTable.le_bindAll _ _).local? h
  · have hlength := hlocals.length_eq
    rw [List.map_fst_zip (by simpa using Nat.le_of_eq hlength.symm)]
    exact hlocals
  · simpa using hparams.length_eq.symm

/-- What is introduced at first are the identifiers of the bindings. -/
theorem Named.owns (h : f.Named results su) (hnodup : (f.bindings results).Nodup) :
    su.draft.Owns (f.bindings results) su.params where
  sound := h.names.sound
  variant hx := (h.names.of_local hx).2.1
  nodup := h.names.sound.nodup h.bound hnodup
  bound _ hraw := mem_of_forall₂ h.bound hraw
  owned _ hx := .inl (mem_of_forall₂ h.bound.flip hx)

end Function

/-! ### Assembly -/

/-- The declaration of variables declares these. -/
theorem varStmts_declares {vars : List (String × Ty)} {ss : List Stmt} {d d' : Draft}
    (h : varStmts vars d = (.ok ss, d')) : ss.flatMap Stmt.declares = vars.map Prod.fst := by
  induction vars generalizing ss d with
  | nil =>
    cases h
    rfl
  | cons v vars ih =>
    obtain ⟨type, d₁, -, h⟩ := bind_ok h
    obtain ⟨rest, d₂, hrest, h⟩ := bind_ok h
    cases h
    rw [List.flatMap_cons, ih hrest]
    rfl

/-- A step adds no variable to declare. -/
def Undeclaring {α : Type} (x : DraftM α) : Prop :=
  ∀ d, (x d).2.declared = d.declared

theorem Undeclaring.apply {α : Type} {x : DraftM α} (h : Undeclaring x) {d d' : Draft}
    {a : Except Fault α} (hx : x d = (a, d')) : d'.declared = d.declared := by
  have := h d
  rwa [hx] at this

theorem undeclaring_ofTypeM {α : Type} (x : TypeM α) : Undeclaring (ofTypeM x) := fun _ => rfl

theorem closed_undeclaring : DraftM.Closed (fun _ x => Undeclaring x) where
  pure _ _ := rfl
  bind {_ _ x f P} hx hP hf d := by
    rw [bind_apply]
    rcases h : x d with ⟨_ | a, d'⟩
    · exact hx.apply h
    · exact (hf a (hP _ _ _ h) d').trans (hx.apply h)
  refuse _ _ := rfl
  stop _ _ := rfl
  ofTypeM _ := undeclaring_ofTypeM _

theorem undeclaring_varStmts (vars : List (String × Ty)) : Undeclaring (varStmts vars) := by
  induction vars with
  | nil => exact closed_undeclaring.pure _
  | cons v vars ih =>
    exact closed_undeclaring.seq (closed_undeclaring.goType v.2) fun _ =>
      closed_undeclaring.seq ih fun _ => closed_undeclaring.pure _

theorem undeclaring_endStmts (scope : Scope) (b : WorkBlock) : Undeclaring (endStmts scope b) := by
  unfold endStmts
  split
  · exact closed_undeclaring.pure _
  · exact closed_undeclaring.exitStmts scope _ fun _ _ _ => rfl

theorem emits_length_goTypes {P : Records → Prop} (ts : List Ty) :
    Emits Records.Le P (goTypes ts) (fun _ xs => xs.length = ts.length) := by
  induction ts generalizing P with
  | nil => simpa only [goTypes] using .pure fun _ _ => rfl
  | cons t ts ih =>
    simp only [goTypes]
    exact (TypeM.emits_goType false t).bind fun _ => ih.bind fun _ =>
      .pure fun _ h => by simp [h.2]

theorem names_zipWith {names : List String} {ts : List Expr} (h : names.length = ts.length) :
    (names.zipWith (fun n t => FieldDecl.mk [n] t) ts).flatMap FieldDecl.names = names := by
  induction names generalizing ts with
  | nil => rfl
  | cons n names ih =>
    cases ts with
    | nil => cases h
    | cons t ts =>
      rw [List.zipWith_cons_cons, List.flatMap_cons, ih (Nat.succ.inj h)]
      rfl

theorem names_nameless (ts : List Expr) :
    (namelessFields ts).flatMap FieldDecl.names = [] := by
  simp [namelessFields, List.flatMap_map, FieldDecl.names]

/-- Code declares nothing. -/
theorem declares_nil {refs : List String} {D : Draft} {ss : List Stmt} (h : AreStmts refs D ss) :
    ss.flatMap Stmt.declares = [] :=
  List.flatMap_eq_nil_iff.2 fun s hs => (h s hs).declares

namespace Function

variable {f : Function} {globals : List String} {feeds : FeedSource} {r : FunctionResult}
  {results : List (String × Ty)} {su : Setup}

/-- The name of the tail of a function's parameters, if it has one. -/
def tailNames (f : Function) : List String :=
  if f.varArg && !f.params.isEmpty then ["args"] else []

/-- **The parameters have the names that they are given**, and the tail has its own. -/
theorem emits_paramNames {names : List String} (h : names.length = f.params.length)
    {P : Records → Prop} : Emits Records.Le P (f.signature names)
      (fun _ t => t.params.flatMap FieldDecl.names = names ++ f.tailNames) := by
  refine (emits_length_goTypes _).bind fun ts =>
    (TypeM.emits_goResults (TypeM.emits_goType false _)).bind fun rs => .pure fun D hD => ?_
  have hts : names.length = ts.length := by rw [h, hD.1.2, List.length_map]
  cases hparams : f.params with
  | nil =>
    have hnames : names = [] := List.eq_nil_of_length_eq_zero (by rw [h, hparams]; rfl)
    cases f.varArg <;> simp [hnames, tailNames, hparams, names_nameless, FieldDecl.names]
  | cons p ps =>
    have hlength : names.length = ps.length + 1 := by rw [h, hparams, List.length_cons]
    cases hv : f.varArg <;>
      simp [hlength, tailNames, hparams, hv, names_zipWith hts, FieldDecl.names]

/-- A block is what the phases before the last leave of a function, in some draft. -/
structure ReducesTo (f : Function) (su : Setup) (b : WorkBlock) (d : Draft) : Prop where
  grown : su.draft.Extends d
  code : ∀ {D : Draft}, d.Extends D → AreStmts f.mentions D b.sequence
  ends : Region.Ends f.mentions b

theorem reducesTo_of_phases {buffers : Table (List Stmt)} {registry : Registry}
    {prims : List Primitive} {b : WorkBlock} {d₁ d₂ d₃ : Draft}
    (hphi : phiBuffers su.scope f.body su.draft = (.ok buffers, d₁))
    (hseed : Registry.seed su.scope buffers f.body d₁ = (.ok registry, d₂))
    (hreduce : registry.reduce su.scope prims d₂ = (.ok b, d₃)) : f.ReducesTo su b d₃ := by
  have hmentions : f.body.flatMap Block.mentions ⊆ f.mentions := List.Subset.refl _
  obtain ⟨hsound, hends⟩ := ensures_seed hmentions _ _ _ hseed
  have hphis : Emits Extends (fun _ => True) (phiBuffers su.scope f.body) _ :=
    emits_phiBuffers hmentions
  have hblocks : Emits Extends (fun _ => True) (Registry.seed su.scope buffers f.body) _ :=
    Registry.emits_seedFrom hmentions
  have hblock : Emits Extends (fun _ => True) (registry.reduce su.scope prims) _ :=
    Registry.emits_reduce hsound hends
  have hseeded := hblocks.grows hseed
  have hreduced := hblock.grows hreduce
  refine ⟨trans_of Extends (hphis.grows hphi) (trans_of Extends hseeded hreduced),
    fun {D} hD => ?_, Registry.ensures_reduce hsound hends _ _ _ hreduce⟩
  have hlater := trans_of Extends hreduced hD
  refine hblock.holds hreduce hD trivial (hblocks.holds hseed hlater trivial ?_ ?_)
  · exact hphis.holds hphi (trans_of Extends hseeded hlater) trivial
  · simp [Registry.AreCode, Registry.live]

/-- A function is assembled from the block that is left. -/
theorem decompileM_assembles {decl : FuncDecl} {D : Draft}
    (h : f.decompileM su feeds su.draft = (.ok decl, D)) :
    ∃ b d d', f.ReducesTo su b d ∧ f.assemble su.scope su.params b d = (.ok decl, d') ∧
      D.names = d'.names ∧ D.declared = d'.declared := by
  obtain ⟨buffers, d₁, registry, d₂, prims, b, d₃, d₄, hphi, hseed, -, hreduce, hassemble, hD⟩ :=
    decompileM_phases h
  exact ⟨b, d₃, d₄, reducesTo_of_phases hphi hseed hreduce, hassemble, by rw [hD], by rw [hD]⟩

/-- **What a function introduces** are its parameters, their tail, and the variables that were to
be declared. -/
theorem assemble_introduces {b : WorkBlock} {d d' : Draft} {decl : FuncDecl}
    (hb : f.ReducesTo su b d) (hparams : su.params.length = f.params.length)
    (h : f.assemble su.scope su.params b d = (.ok decl, d')) :
    d.Extends d' ∧ d'.declared = d.declared ∧ decl.introduces =
      (su.params ++ f.tailNames ++ d.declared.map Prod.fst).filter (· ≠ "_") := by
  have hassemble : Emits Extends (fun _ => True) (f.assemble su.scope su.params b) _ :=
    f.emits_assemble su.params hb.ends
  have hgrows := hassemble.grows h
  obtain ⟨vars, d₁, ending, d₂, type, hvars, hending, htype, rfl⟩ := assemble_parts h
  have hdeclared : d'.declared = d.declared :=
    ((undeclaring_ofTypeM _).apply htype).trans
      (((undeclaring_endStmts su.scope b).apply hending).trans
        ((undeclaring_varStmts _).apply hvars))
  have htypes := emits_ofTypeM (P := fun _ => True) (f.emits_paramNames (P := fun _ => True) hparams)
  have hnames := htypes.holds htype (refl_of Extends _) trivial
  have hended := declares_nil ((emits_endStmts (P := fun _ => True) hb.ends).holds hending
    (refl_of Extends _) trivial)
  refine ⟨hgrows, hdeclared, ?_⟩
  have hbody : Stmt.declaresIn (vars ++ b.sequence ++ ending) = d.declared.map Prod.fst := by
    rw [Go.declaresIn_eq, List.flatMap_append, List.flatMap_append, varStmts_declares hvars,
      declares_nil (hb.code hgrows), hended, List.append_nil, List.append_nil]
  rw [FuncDecl.introduces, hnames, Option.getD_some, hbody]

/-! ### What is introduced -/

/-- The words that may have a meaning in code. -/
def words : List String := typeWords ++ valueWords ++ callWords ++ packageWords

/-- The identifiers that a function uses with a meaning outside of it: those of the functions, global
variables and structs that it mentions, and the words that are in its declaration. -/
def Outer (f : Function) (r : FunctionResult) (n : String) : Prop :=
  (∃ g ∈ f.mentions ++ r.records.named, n = goName g) ∨
    n ∈ words ∧ Expr.ident n ∈ (Decl.func r.decl).parts

/-- What a function introduces: the identifiers of its bindings, temporaries, and the tail of its
parameters. -/
structure Introduces (f : Function) (results : List (String × Ty)) (r : FunctionResult)
    (bound temps : List String) : Prop where
  introduced : r.decl.introduces.Perm ((bound ++ temps ++ f.tailNames).filter (· ≠ "_"))
  nodup : (bound ++ temps).Nodup
  variants : List.Forall₂ (fun raw x => ∃ k, x = NameTable.variant (goName raw) k)
    (f.bindings results) bound
  temporaries : ∀ x ∈ temps, ∃ k, x = NameTable.temporary "tmp" k
  /-- A plain name is the identifier of a binding if one is mapped to it. -/
  plain : ∀ {x : String}, '_' ∉ x.toList → ¬ "tmp".toList <+: x.toList →
    (x ∈ bound ++ temps ↔ ∃ raw ∈ f.bindings results, goName raw = x)
  /-- Every other identifier is that of a local that is no binding, or has a meaning outside. -/
  idents : ∀ {n : String}, Expr.ident n ∈ (Decl.func r.decl).parts → n ∈ bound ++ temps ∨
    (n ∉ bound ++ temps ∧ ∃ raw ∉ f.bindings results, ∃ k, n = NameTable.variant (goName raw) k) ∨
      f.Outer r n

/-- A variant of a name has an underscore unless it is the name itself. -/
theorem eq_of_variant {base x : String} {k : Nat} (h : x = NameTable.variant base k)
    (hx : '_' ∉ x.toList) : x = base := by
  cases k with
  | zero => exact h
  | succ k =>
    refine absurd ?_ hx
    rw [h]
    simp [NameTable.variant, String.toList_append]

namespace Named

variable {d : Draft}

/-- A binding keeps the identifier that it was given at first. -/
theorem mem_of_local? (h : f.Named results su) (hd : su.draft.Extends d) {raw x : String}
    (hraw : raw ∈ f.bindings results) (hx : d.names.local? raw = some x) :
    x ∈ su.params ++ su.draft.declared.map Prod.fst := by
  obtain ⟨y, hy, hlocal⟩ := mem_of_forall₂ h.bound hraw
  obtain rfl := Option.some.inj ((hd.names.local? hlocal).symm.trans hx)
  exact hy

/-- What is introduced besides the identifiers of bindings, are temporaries. -/
theorem declared (h : f.Named results su) (hd : su.draft.Extends d)
    (howns : d.Owns (f.bindings results) su.params) :
    ∃ temps, su.params ++ d.declared.map Prod.fst =
      su.params ++ su.draft.declared.map Prod.fst ++ temps ∧
        ∀ x ∈ temps, ∃ k, x = NameTable.temporary "tmp" k := by
  obtain ⟨more, hmore⟩ := hd.declared
  have hown : su.params ++ d.declared.map Prod.fst =
      su.params ++ su.draft.declared.map Prod.fst ++ more.map Prod.fst := by
    rw [← hmore, List.map_append, List.append_assoc]
  have hnodup := howns.nodup
  rw [hown] at hnodup
  refine ⟨more.map Prod.fst, hown, fun x hx => ?_⟩
  obtain ⟨raw, hraw, hlocal⟩ | ⟨-, hk⟩ := howns.owned x (hown ▸ List.mem_append_right _ hx)
  · exact absurd rfl ((List.nodup_append.1 hnodup).2.2 _ (h.mem_of_local? hd hraw hlocal) _ hx)
  · exact hk

/-- A plain name is introduced exactly if a binding is mapped to it. -/
theorem plain_iff (h : f.Named results su) (hd : su.draft.Extends d)
    (howns : d.Owns (f.bindings results) su.params) {x : String} (hx : '_' ∉ x.toList)
    (htmp : ¬ "tmp".toList <+: x.toList) :
    x ∈ su.params ++ d.declared.map Prod.fst ↔ ∃ raw ∈ f.bindings results, goName raw = x := by
  constructor
  · intro hmem
    obtain ⟨raw, hraw, hlocal⟩ | ⟨-, k, rfl⟩ := howns.owned x hmem
    · obtain ⟨k, hk⟩ := howns.variant hlocal
      exact ⟨raw, hraw, (eq_of_variant hk hx).symm⟩
    · refine absurd ?_ htmp
      simp [NameTable.temporary, String.toList_append]
  · intro hmapped
    obtain ⟨raw, hraw, hmap⟩ := hmapped
    -- What a name is mapped to was taken at first, and only bindings took something then.
    obtain ⟨y, -, hy⟩ := mem_of_forall₂ h.bound hraw
    obtain ⟨a, ha⟩ := h.names.of_used (hmap ▸ (h.names.of_local hy).2.2)
    obtain ⟨z, hz, hlocal⟩ := howns.bound a (h.names.of_local ha).1
    obtain rfl := Option.some.inj ((hd.names.local? ha).symm.trans hlocal)
    exact hz

/-- The identifier of a local that is no binding is not introduced. -/
theorem not_introduced (howns : d.Owns (f.bindings results) su.params) {raw x : String}
    (hraw : raw ∉ f.bindings results) (hx : d.names.local? raw = some x) :
    x ∉ su.params ++ d.declared.map Prod.fst := by
  intro hmem
  obtain ⟨a, ha, hlocal⟩ | ⟨hreserved, -⟩ := howns.owned x hmem
  · exact hraw (howns.sound.injective hx hlocal ▸ ha)
  · exact hreserved.unbound raw hx

/-- An identifier for a value is introduced, is that of a local that is no binding, or that of a
function or global variable. -/
theorem value_cases (howns : d.Owns (f.bindings results) su.params) {n : String}
    (hn : d.Values f.mentions n) :
    n ∈ su.params ++ d.declared.map Prod.fst ∨
      (n ∉ su.params ++ d.declared.map Prod.fst ∧
        ∃ raw ∉ f.bindings results, ∃ k, n = NameTable.variant (goName raw) k) ∨
      ∃ g ∈ f.mentions, n = goName g := by
  obtain ⟨raw, hraw⟩ | hmem | hmention := hn
  · by_cases hbinding : raw ∈ f.bindings results
    · obtain ⟨x, hx, hlocal⟩ := howns.bound raw hbinding
      obtain rfl := Option.some.inj (hlocal.symm.trans hraw)
      exact .inl hx
    · exact .inr (.inl ⟨not_introduced howns hbinding hraw, raw, hbinding, howns.variant hraw⟩)
  · exact .inl (List.mem_append_right _ hmem)
  · exact .inr (.inr hmention)

end Named

/-- **A function introduces an identifier for each binding, and temporaries.** -/
theorem introduces_of_decompile (hblocks : f.blocks ≠ none)
    (hresults : resultsOf f.body = .ok results) (hnodup : (f.bindings results).Nodup)
    (h : (f.decompile globals feeds).1 = .ok r) :
    ∃ bound temps, f.Introduces results r bound temps := by
  have hform := decompile_form h
  cases makes_of_decompile h with
  | declared hnone => exact absurd hnone hblocks
  | @defined su decl D _ hsetup hdecl =>
    have hnamed := named_of_setup hsetup hresults
    obtain ⟨b, d, d', hb, hassemble, hnames, hdeclared⟩ := decompileM_assembles hdecl
    obtain ⟨hgrown, hsame, hintroduces⟩ := assemble_introduces hb hnamed.params hassemble
    have hall : su.draft.Extends d' := trans_of Extends hb.grown hgrown
    have howns := hall.owns (hnamed.owns hnodup)
    obtain ⟨temps, hown, htemps⟩ := hnamed.declared hall howns
    refine ⟨su.params ++ su.draft.declared.map Prod.fst, temps, ?_, hown ▸ howns.nodup, ?_, htemps,
      fun hx htmp => ?_, fun {n} hn => ?_⟩
    -- The variables are declared behind the tail, but are listed before it.
    · rw [hintroduces, ← hown, hsame]
      refine List.Perm.filter _ ?_
      rw [List.append_assoc, List.append_assoc]
      exact List.perm_append_comm.append_left _
    · exact hnamed.bound.imp fun raw x hx => (hnamed.names.of_local hx).2.1
    · rw [← hown]
      exact hnamed.plain_iff hall howns hx htmp
    -- An identifier is one for a value, or that of a struct, or a word.
    · rw [← hown]
      obtain ⟨su', hsetup', hvalue⟩ | ⟨s, hs, rfl⟩ | hword | ⟨hword, -⟩ := (hform.part hn).ident
      · obtain rfl := Except.ok.inj (hsetup.symm.trans hsetup')
        rw [hdecl, Draft.Values, hnames, hdeclared] at hvalue
        obtain hmem | hlocal | ⟨g, hg, rfl⟩ := Named.value_cases howns hvalue
        · exact .inl hmem
        · exact .inr (.inl hlocal)
        · exact .inr (.inr (.inl ⟨g, List.mem_append_left _ hg, rfl⟩))
      · exact .inr (.inr (.inl ⟨s, List.mem_append_right _ hs, rfl⟩))
      · exact .inr (.inr (.inr ⟨List.mem_append_left _ hword, hn⟩))
      · exact .inr (.inr (.inr ⟨List.mem_append_right _ hword, hn⟩))

/-! ### What is captured -/

/-- Nothing is captured: all that a function introduces is different, also from what it uses with a
meaning outside of it. -/
def Hygienic (f : Function) (r : FunctionResult) : Prop :=
  r.decl.introduces.Nodup ∧ ∀ n, f.Outer r n → n ∉ r.decl.introduces

/-- The words of the language, and the name of a tail, are plain. -/
theorem plain_words : ∀ w ∈ words ++ ["args"], '_' ∉ w.toList ∧ ¬ "tmp".toList <+: w.toList := by
  decide

theorem eq_of_mem_tailNames {x : String} (h : x ∈ f.tailNames) : x = "args" := by
  unfold tailNames at h
  split at h
  · exact List.mem_singleton.1 h
  · cases h

namespace Introduces

variable {bound temps : List String} (h : f.Introduces results r bound temps)

include h

theorem mem_iff {n : String} :
    n ∈ r.decl.introduces ↔ (n ∈ bound ++ temps ∨ n ∈ f.tailNames) ∧ n ≠ "_" := by
  rw [h.introduced.mem_iff, List.mem_filter, List.mem_append]
  simp

/-- A word is introduced exactly if a binding is mapped to it. -/
theorem word_iff {w : String} (hw : w ∈ words) :
    w ∈ r.decl.introduces ↔ ∃ raw ∈ f.bindings results, goName raw = w := by
  obtain ⟨hplain, htmp⟩ := plain_words w (List.mem_append_left _ hw)
  have htail : w ∉ f.tailNames := by
    intro hmem
    rw [eq_of_mem_tailNames hmem] at hw
    exact absurd hw (by decide)
  have hblank : w ≠ "_" := by
    rintro rfl
    exact absurd hw (by decide)
  rw [h.mem_iff, h.plain hplain htmp, or_iff_left htail, and_iff_left hblank]

/-- What is introduced is different exactly if no binding is mapped to the name of the tail. -/
theorem nodup_iff : r.decl.introduces.Nodup ↔
    ∀ x ∈ f.tailNames, ∀ raw ∈ f.bindings results, goName raw ≠ x := by
  have htail : f.tailNames.Nodup := by
    unfold tailNames
    split <;> simp
  have hmet : ∀ x ∈ f.tailNames,
      x ∈ bound ++ temps ↔ ∃ raw ∈ f.bindings results, goName raw = x := by
    intro x hx
    rw [eq_of_mem_tailNames hx]
    obtain ⟨hplain, htmp⟩ := plain_words "args" (by decide)
    exact h.plain hplain htmp
  rw [h.introduced.nodup_iff, List.filter_append, List.nodup_append]
  constructor
  · intro hall x hx raw hraw hmap
    obtain ⟨-, -, hapart⟩ := hall
    have hblank : x ≠ "_" := by simp [eq_of_mem_tailNames hx]
    have hmem := (hmet x hx).2 ⟨raw, hraw, hmap⟩
    exact hapart x (by simpa [hblank] using hmem) x (by simpa [hblank] using hx) rfl
  · intro hne
    refine ⟨h.nodup.filter _, htail.filter _, fun x hx y hy hxy => ?_⟩
    subst hxy
    have hy := (List.mem_filter.1 hy).1
    obtain ⟨raw, hraw, hmap⟩ := (hmet x hy).1 (List.mem_filter.1 hx).1
    exact hne x hy raw hraw hmap

end Introduces

/-- **Nothing is captured exactly if no binding is mapped to the name of the tail or to a word that
is used, and no function, global variable or struct that is used has an identifier that is
introduced.** What a function introduces for its bindings and as temporaries is always
different. -/
theorem hygienic_iff (hblocks : f.blocks ≠ none) (hresults : resultsOf f.body = .ok results)
    (hnodup : (f.bindings results).Nodup) (h : (f.decompile globals feeds).1 = .ok r) :
    ∃ bound temps, f.Introduces results r bound temps ∧
      (r.decl.introduces.Nodup ↔
        ∀ x ∈ f.tailNames, ∀ raw ∈ f.bindings results, goName raw ≠ x) ∧
      (f.Hygienic r ↔
        (∀ x ∈ f.tailNames, ∀ raw ∈ f.bindings results, goName raw ≠ x) ∧
        (∀ w ∈ words, Expr.ident w ∈ (Decl.func r.decl).parts →
          ∀ raw ∈ f.bindings results, goName raw ≠ w) ∧
        ∀ g ∈ f.mentions ++ r.records.named, goName g ∉ r.decl.introduces) := by
  obtain ⟨bound, temps, hall⟩ := introduces_of_decompile hblocks hresults hnodup h
  refine ⟨bound, temps, hall, hall.nodup_iff, ?_⟩
  rw [Hygienic, hall.nodup_iff]
  refine and_congr_right fun _ => ⟨fun hfree => ⟨?_, ?_⟩, ?_⟩
  · intro w hw hused raw hraw hmap
    exact hfree w (.inr ⟨hw, hused⟩) ((hall.word_iff hw).2 ⟨raw, hraw, hmap⟩)
  · exact fun g hg => hfree (goName g) (.inl ⟨g, hg, rfl⟩)
  · intro hfree n hn hmem
    obtain ⟨hwords, hothers⟩ := hfree
    obtain ⟨g, hg, rfl⟩ | ⟨hw, hused⟩ := hn
    · exact hothers g hg hmem
    · obtain ⟨raw, hraw, hmap⟩ := (hall.word_iff hw).1 hmem
      exact hwords n hw hused raw hraw hmap

end Function

/-! ### A function that captures what it calls -/

namespace Capturing

/-- The function panics. A parameter has the name of that, and another one the name of the tail. -/
def function : Function where
  name := "f"
  ret := .void
  params := [⟨"panic", .int 32⟩, ⟨"args", .int 32⟩]
  varArg := true
  blocks := some [{ name := "entry", terminator := some .unreachable }]

def named : Setup where
  scope := { bindings := ⟨[("panic", .int 32), ("args", .int 32)]⟩ }
  draft := { names := {
    locals := ⟨[("panic", "panic"), ("args", "args")]⟩
    used := ["args", "panic"] } }
  params := ["panic", "args"]

def result : FunctionResult where
  name := "f"
  decl :=
    { name := "f"
      type :=
        { params := [.mk ["panic"] (.ident "int32"), .mk ["args"] (.ident "int32"),
            .mk ["args"] variadicType] }
      body := some [.expr (callNamed "panic" [.lit .string "\"unreachable\""])] }
  records := {}

/-- There is nothing to reduce. -/
def feeds : FeedSource := fun _ => .ok []

theorem signature_eq : function.signature ["panic", "args"] = pure result.decl.type := by
  simp only [Function.signature, function, goSignature, List.map_cons, List.map_nil, goTypes, goType,
    goResults]
  rfl

theorem decompile_eq : (function.decompile [] feeds).1 = .ok result := by
  have hblocks : function.blocks = some [{ name := "entry", terminator := some .unreachable }] := rfl
  have hsetup : function.setup [] = .ok named := rfl
  have hdecl : function.decompileM named feeds named.draft =
      (.ok result.decl, { named.draft with trace := [.finished "f" 0] }) := by
    unfold Function.decompileM Function.assemble
    simp only [signature_eq, named]
    rfl
  simp only [Function.decompile, hblocks, hsetup, hdecl]
  rfl

/-- A parameter captures what is called, and the tail has the name of another. -/
theorem names_captured :
    ∃ results, resultsOf function.body = .ok results ∧ (function.bindings results).Nodup ∧
      (function.decompile [] feeds).1 = .ok result ∧
      result.decl.introduces = ["panic", "args", "args"] ∧
      function.Outer result "panic" ∧ ¬ result.decl.introduces.Nodup ∧
      ¬ function.Hygienic result := by
  have hnodup : (function.bindings []).Nodup := by decide
  have hblocks : function.blocks ≠ none := Option.some_ne_none _
  obtain ⟨bound, temps, -, hdistinct, hiff⟩ := Function.hygienic_iff hblocks rfl hnodup decompile_eq
  have hcalled : Expr.ident "panic" ∈ (Decl.func result.decl).parts := by
    simp [result, Decl.parts, FuncDecl.parts, Stmt.partsOf, Stmt.parts, Expr.parts, callNamed]
  refine ⟨[], rfl, hnodup, decompile_eq, by decide, .inr ⟨by decide, hcalled⟩, fun h => ?_, fun h => ?_⟩
  · exact hdistinct.1 h "args" (by decide) "args" (by decide) (by decide)
  · exact (hiff.1 h).2.1 "panic" (by decide) hcalled "panic" (by decide) (by decide)

end Capturing

end GoLift
