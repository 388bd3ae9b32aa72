import GoLift.Proofs.Module.Closed

/-!
# The names at the top of a file

A file declares its structs, the global variables and the functions that are kept, each by the
identifier of its name (`Module.Closes.names`). Identifiers are made name by name, so **what the
source tells apart stays apart exactly if no two identifiers meet**
(`Module.toplevel_nodup_iff`). Names that are identifiers as they are never meet within a kind, but
types have names of their own in the source and share those of everything else in the file.
`Merging` is a file that declares one name twice.
-/

set_option autoImplicit false

namespace GoLift

open Go (Expr Spec GenDecl Decl FuncDecl File)
open DraftM

/-! ### Names that are kept as they are -/

/-- Is a name an identifier as it is? -/
def isPlainName (name : String) : Bool :=
  match name.toList with
  | [] => false
  | c :: cs => (c :: cs).all isIdentChar && !c.isDigit && !goKeywords.contains name

theorem goName_of_isPlainName {name : String} (h : isPlainName name = true) : goName name = name := by
  unfold isPlainName at h
  cases hchars : name.toList with
  | nil => simp [hchars] at h
  | cons c cs =>
    simp only [hchars, Bool.and_eq_true, Bool.not_eq_true', List.all_eq_true] at h
    obtain ⟨⟨hall, hdigit⟩, hkeyword⟩ := h
    have hident : identChars name = c :: cs := by
      rw [identChars, hchars]
      refine (List.map_congr_left fun d hd => ?_).trans (List.map_id _)
      simp [hall d hd]
    have hself : String.ofList (c :: cs) = name := by rw [← hchars, String.ofList_toList]
    have hfree : name ∉ goKeywords := by simpa using hkeyword
    unfold goName
    simp [hident, hdigit, hself, hfree]

/-! ### Each part of a file -/

theorem structDecl_names {bodies : Bodies} {n : String} {r : Records} {d : Decl}
    (h : (structDecl bodies n r).1 = .ok d) : d.names = [goName n] := by
  unfold structDecl at h
  rw [bind_apply] at h
  rcases hx : goStruct (bodies.get? n) r with ⟨_ | t, r₁⟩ <;> rw [hx] at h <;> cases h
  rfl

theorem structDecls_names {bodies : Bodies} {ns : List String} {r : Records} {ds : List Decl}
    (h : List.Forall₂ (fun n d => (structDecl bodies n r).1 = .ok d) ns ds) :
    ds.flatMap Decl.names = ns.map goName := by
  induction h with
  | nil => rfl
  | cons hd _ ih =>
    rw [List.flatMap_cons, List.map_cons, structDecl_names hd, ih]
    rfl

theorem globalDecls_names {scope : Scope} {gs : List GlobalVar} {d d' : Draft} {ds : List Decl}
    (h : globalDecls scope gs d = (.ok ds, d')) :
    ds.flatMap Decl.names = gs.map fun g => goName g.name := by
  induction gs generalizing d ds with
  | nil =>
    cases h
    rfl
  | cons g gs ih =>
    obtain ⟨x, d₁, hx, h⟩ := bind_ok h
    obtain ⟨xs, d₂, hxs, h⟩ := bind_ok h
    cases h
    obtain ⟨values, d₃, -, hx⟩ := bind_ok hx
    obtain ⟨type, d₄, -, hx⟩ := bind_ok hx
    cases hx
    rw [List.flatMap_cons, List.map_cons, ih hxs]
    rfl

theorem Function.ensures_name (f : Function) (setup : Setup) (feeds : FeedSource) :
    Ensures (f.decompileM setup feeds) (fun decl => decl.name = goName f.name) := by
  have hassemble (b : WorkBlock) :
      Ensures (f.assemble setup.scope setup.params b) (fun decl => decl.name = goName f.name) :=
    .after fun _ => .after fun _ => .after fun _ => .after fun _ => .pure rfl
  exact .after fun _ => .after fun _ => .after fun _ => .after fun b =>
    (Ensures.inPhase _ _ (hassemble b)).bind fun _ h => .after fun _ => .pure h

/-- A function is declared by the identifier of its name. -/
theorem Function.decompile_name {f : Function} {globals : List String} {feeds : FeedSource}
    {r : FunctionResult} (h : (f.decompile globals feeds).1 = .ok r) :
    r.name = f.name ∧ r.decl.name = goName f.name := by
  cases Function.makes_of_decompile h with
  | declared hblocks hdecl =>
    refine ⟨rfl, ?_⟩
    unfold Function.declaration at hdecl
    rw [bind_apply] at hdecl
    rcases hx : f.signature f.paramNames {} with ⟨_ | t, r₁⟩ <;> rw [hx] at hdecl <;> cases hdecl
    rfl
  | defined hblocks hsetup hdecl => exact ⟨rfl, f.ensures_name _ feeds _ _ _ hdecl⟩

/-! ### The whole file -/

namespace Module

variable {m : Module} {feeds : FeedSource} {policy : Policy} {result : ModuleResult}
  {kept : List FunctionResult} {file : File} {structs : List String}

/-- **The names of a file are the identifiers of its structs, of the global variables and of the
functions that are kept.** -/
theorem Closes.names (h : m.Closes feeds kept file structs) :
    file.names = (structs ++ (m.globalNames ++ kept.map FunctionResult.name)).map goName := by
  obtain ⟨types, vars, hdecls, hvars, htypes, -⟩ := h.layout
  have hstructs : types.flatMap Decl.names = structs.map goName :=
    structDecls_names (htypes.imp fun n d hd => hd.1)
  have hfuncs : (kept.map fun r => Decl.func r.decl).flatMap Decl.names =
      (kept.map FunctionResult.name).map goName := by
    rw [List.flatMap_map, List.map_map, List.map_eq_flatMap]
    refine List.flatMap_congr fun r hr => ?_
    obtain ⟨f, -, hres, -⟩ := h.funcs r hr
    obtain ⟨hname, hdecl⟩ := Function.decompile_name hres
    simp [Decl.names, hname, hdecl]
  rw [File.names, hdecls, List.flatMap_append, List.flatMap_append, hstructs, hfuncs,
    globalDecls_names hvars]
  simp [globalNames]

/-- The functions that are kept have names of functions of the module, each as often at most. -/
theorem kept_names (h : (m.decompile feeds policy).1 = .ok result) :
    (result.kept.map FunctionResult.name).Sublist (m.functions.map Function.name) := by
  obtain ⟨fs, hfs, hkept⟩ := kept_eq h
  rw [hkept]
  -- A function that fails leaves its name out.
  refine List.Sublist.trans ?_ (hfs.map Function.name)
  clear hfs hkept
  induction fs with
  | nil => exact .slnil
  | cons f fs ih =>
    cases hres : f.result? m.globalNames feeds with
    | none => simpa [List.filterMap_cons, hres] using ih.cons f.name
    | some r =>
      have hname := (Function.decompile_name (Function.result?_eq_some.1 hres)).1
      simpa [List.filterMap_cons, hres, hname] using ih

/-- No two of some names have one identifier. -/
def Apart (names : List String) : Prop :=
  ∀ a ∈ names, ∀ b ∈ names, goName a = goName b → a = b

theorem apart_of_isPlainName {names : List String} (h : ∀ n ∈ names, isPlainName n = true) :
    Apart names := by
  intro a ha b hb hab
  rwa [goName_of_isPlainName (h a ha), goName_of_isPlainName (h b hb)] at hab

/-- **The names of a file are different exactly if no two identifiers meet**: neither of its structs,
nor of its global variables and functions, nor of a struct and one of these. Names that are
identifiers as they are meet only in the last way. -/
theorem toplevel_nodup_iff (h : (m.decompile feeds policy).1 = .ok result)
    (hfile : result.file = some file)
    (hnames : (m.globalNames ++ m.functions.map Function.name).Nodup) :
    ∃ structs others, m.Closes feeds result.kept file structs ∧
      others = m.globalNames ++ result.kept.map FunctionResult.name ∧
      file.names = (structs ++ others).map goName ∧
      (file.names.Nodup ↔ Apart structs ∧ Apart others ∧
        ∀ s ∈ structs, ∀ n ∈ others, goName s ≠ goName n) ∧
      ((∀ n ∈ structs ++ others, isPlainName n = true) →
        (file.names.Nodup ↔ ∀ s ∈ structs, s ∉ others)) := by
  obtain ⟨structs, hcloses⟩ := closes_of_decompile h hfile
  obtain ⟨others, hothers⟩ : ∃ others, others =
      m.globalNames ++ result.kept.map FunctionResult.name := ⟨_, rfl⟩
  have hdistinct : others.Nodup := by
    rw [hothers]
    exact hnames.sublist ((List.Sublist.refl _).append (kept_names h))
  have hfilenames := hothers ▸ hcloses.names
  have hiff : file.names.Nodup ↔ Apart structs ∧ Apart others ∧
      ∀ s ∈ structs, ∀ n ∈ others, goName s ≠ goName n := by
    rw [hfilenames, List.map_append, List.nodup_append,
      List.nodup_map_iff_inj_on hcloses.once, List.nodup_map_iff_inj_on hdistinct]
    simp only [Apart, List.forall_mem_map]
  refine ⟨structs, others, hcloses, hothers, hfilenames, hiff, fun hplain => hiff.trans ?_⟩
  obtain ⟨hs, ho⟩ := List.forall_mem_append.1 hplain
  rw [and_iff_right (apart_of_isPlainName hs), and_iff_right (apart_of_isPlainName ho)]
  constructor
  · intro hne s hmem hother
    exact hne s hmem s hother rfl
  · intro hnot s hmem n hn heq
    rw [goName_of_isPlainName (hs s hmem), goName_of_isPlainName (ho n hn)] at heq
    exact hnot s hmem (heq ▸ hn)

end Module

/-! ### Two variables with one identifier -/

namespace Merging

/-- Two global variables, the names of which differ in punctuation. -/
def program : Module :=
  { name := "merging", globals := [{ name := "a.b", type := .int 32 },
    { name := "a_b", type := .int 32 }] }

/-- The declaration that is made for each. -/
def decl : Decl := .gen (varDecl "a_b" (.ident "int32") [])

def file : File := { package := "merging", decls := [decl, decl] }

theorem decompile_eq (feeds : FeedSource) :
    (program.decompile feeds {}).1 = .ok { file := some file, kept := [], errors := [] } := by
  have hvars : globalDecls { globals := program.globalNames } program.globals {} =
      (.ok [decl, decl], {}) := by
    have hdecl : globalDecl { globals := program.globalNames } { name := "a.b", type := .int 32 } =
        pure decl := by
      simp only [globalDecl, Option.toList_none, Value.lowerAll, DraftM.goType, goType]
      rfl
    have hdecl' : globalDecl { globals := program.globalNames }
        { name := "a_b", type := .int 32 } = pure decl := by
      simp only [globalDecl, Option.toList_none, Value.lowerAll, DraftM.goType, goType]
      rfl
    simp only [program, globalDecls] at hdecl hdecl' ⊢
    rw [hdecl, hdecl']
    rfl
  have hstructs : allStructDecls program.bodies (Records.addAllNamed {} (program.types ++ [])) =
      (.ok [], {}) := declaring_iff.1 (.finish rfl)
  have hfile : program.file [] {} = .ok file := by
    refine (Module.file_eq [] {} hvars hstructs).trans ?_
    rw [sorted, List.mergeSort_nil]
    rfl
  rw [Module.decompile_eq]
  show program.conclude {} [] [] = _
  simp [Module.conclude, (Module.keptFile_ok []).2 hfile]

/-- Both variables are declared by one name. -/
theorem names_merged :
    ∃ result file, (program.decompile (FeedSource.ofTable {}) {}).1 = .ok result ∧
      result.file = some file ∧
      (program.globalNames ++ program.functions.map Function.name).Nodup ∧
      file.names = ["a_b", "a_b"] ∧ ¬ file.names.Nodup := by
  have hnames : (program.globalNames ++ program.functions.map Function.name).Nodup := by decide
  obtain ⟨structs, others, hcloses, rfl, -, hiff, -⟩ :=
    Module.toplevel_nodup_iff (decompile_eq (FeedSource.ofTable {})) rfl hnames
  refine ⟨_, file, decompile_eq _, rfl, hnames, by decide, fun hnodup => ?_⟩
  have hapart := (hiff.1 hnodup).2.1
  exact absurd (hapart "a.b" (by decide) "a_b" (by decide) (by decide)) (by decide)

end Merging

end GoLift
