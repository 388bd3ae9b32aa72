import GoLift.Proofs.Function.Forms
import GoLift.Proofs.Module.Outcomes
import GoLift.Proofs.Module.Structs

/-!
# A file is closed under packages and types

What the declarations of a file mention has been recorded when they were made, and the records are
what the file's head is made from. So **a package that something is selected from is imported, and a
struct that is mentioned is declared** (`Module.file_closed`). The structs that are declared are the
least set that contains those of the module and those recorded for its functions and globals, and
that is closed under mention.
-/

set_option autoImplicit false

namespace GoLift

open Go (Expr Decl FuncDecl File)
open Draft (Extends)
open DraftM

/-! ### Functions of a file -/

theorem Function.result?_eq_some {f : Function} {globals : List String} {feeds : FeedSource}
    {r : FunctionResult} :
    f.result? globals feeds = some r ↔ (f.decompile globals feeds).1 = .ok r := by
  unfold Function.result?
  cases (f.decompile globals feeds).1 <;> simp [Except.toOption]

/-- The outcomes that the work comes to are those of the functions up to some point. -/
theorem comeTo_of_runFunctions {globals : List String} {feeds : FeedSource} {stopEarly : Bool}
    {fs : List Function} {os : List Outcome}
    (h : (runFunctions globals feeds stopEarly fs).1 = .ok os) :
    ∃ gs, gs <+: fs ∧ ComeTo globals feeds gs os := by
  induction fs generalizing os with
  | nil =>
    cases h
    exact ⟨[], List.prefix_refl _, .nil⟩
  | cons f fs ih =>
    rw [runFunctions_cons] at h
    obtain ⟨o, ho, h⟩ := except_bind_ok h
    split at h
    · cases h
      exact ⟨[f], ⟨fs, rfl⟩, .cons ho .nil⟩
    · obtain ⟨rest, hrest, h⟩ := except_bind_ok h
      cases h
      obtain ⟨gs, hgs, hos⟩ := ih hrest
      exact ⟨f :: gs, (List.prefix_cons_inj f).2 hgs, .cons ho hos⟩

namespace Module

variable {m : Module} {feeds : FeedSource} {policy : Policy} {result : ModuleResult}

/-- **The functions that are kept are some of the module's, in their order.** -/
theorem kept_eq (h : (m.decompile feeds policy).1 = .ok result) :
    ∃ fs : List Function, fs.Sublist m.functions ∧
      result.kept = fs.filterMap (·.result? m.globalNames feeds) := by
  rw [decompile_eq] at h
  split at h
  · cases h
  · next os hos =>
    obtain ⟨gs, hgs, hcome⟩ := comeTo_of_runFunctions hos
    rw [(conclude_ok h).1, (policy.settle_eq hcome).1, Policy.results]
    split
    · exact ⟨gs, hgs.sublist, rfl⟩
    · exact ⟨_, (List.takeWhile_sublist _).trans hgs.sublist, rfl⟩

/-- The file is made from the results that are kept. -/
theorem keptFile_of_decompile {file : File} (h : (m.decompile feeds policy).1 = .ok result)
    (hfile : result.file = some file) : m.keptFile result.kept = .ok file := by
  rw [decompile_eq] at h
  split at h
  · cases h
  · obtain ⟨hkept, -, hmade⟩ := conclude_ok h
    rw [hkept]
    exact hmade file hfile

/-! ### The head of a file -/

end Module

/-- What is recorded when several structs are mentioned. -/
def Records.addAllNamed (r : Records) (names : List String) : Records :=
  names.foldl Records.addNamed r

namespace Records

variable {r : Records} {names : List String} {n : String}

theorem mem_addAllNamed : n ∈ (r.addAllNamed names).named ↔ n ∈ r.named ∨ n ∈ names := by
  induction names generalizing r with
  | nil => simp [addAllNamed]
  | cons k names ih =>
    have hih := ih (r := r.addNamed k)
    unfold addAllNamed at hih ⊢
    rw [List.foldl_cons, hih, mem_addNamed, List.mem_cons, or_assoc]

theorem le_addAllNamed : r.Le (r.addAllNamed names) := by
  induction names generalizing r with
  | nil => exact .refl r
  | cons k names ih => exact (r.le_addNamed k).trans ih

end Records

theorem DraftM.ofTypeM_ok {α : Type} {x : TypeM α} {d d' : Draft} {a : α}
    (h : DraftM.ofTypeM x d = (.ok a, d')) :
    ∃ r, x d.records = (.ok a, r) ∧ d' = { d with records := r } := by
  obtain ⟨hx, hd⟩ := Prod.mk.inj h
  exact ⟨_, Prod.ext hx rfl, hd.symm⟩

theorem recordNamed_apply (names : List String) (d : Draft) :
    (forIn names PUnit.unit (fun name _ => do
      DraftM.ofTypeM (TypeM.useNamed name)
      pure (ForInStep.yield PUnit.unit)) : DraftM PUnit) d =
      (.ok PUnit.unit, { d with records := d.records.addAllNamed names }) := by
  induction names generalizing d with
  | nil => rfl
  | cons k names ih =>
    rw [List.forIn_cons]
    exact ih { d with records := d.records.addNamed k }

namespace Module

/-- The draft in which the declarations of the global variables were made, in a file of functions
with some records. -/
def globalsDraft (m : Module) (used : Records) : Draft :=
  (globalDecls { globals := m.globalNames } m.globals { records := { imports := used.imports } }).2

/-- The identifiers for values in the declarations of the global variables. -/
def GlobalName (m : Module) (used : Records) : String → Prop :=
  (m.globalsDraft used).Values (GlobalVar.mentionsOf m.globals)

/-- How a file is put together. -/
structure Made (m : Module) (funcs : List FuncDecl) (used : Records) (file : File)
    (types vars : List Decl) (r : Records) : Prop where
  globals : globalDecls { globals := m.globalNames } m.globals
    { records := { imports := used.imports } } = (.ok vars, m.globalsDraft used)
  structs : allStructDecls m.bodies
    ((m.globalsDraft used).records.addAllNamed (m.types ++ used.named)) = (.ok types, r)
  imports : file.imports = sorted r.imports
  decls : file.decls = types ++ vars ++ funcs.map Decl.func

theorem file_ok {m : Module} {funcs : List FuncDecl} {used : Records} {file : File}
    (h : m.file funcs used = .ok file) : ∃ types vars r, m.Made funcs used file types vars r := by
  unfold Module.file at h
  rcases hrun : m.fileM funcs used { records := { imports := used.imports } } with ⟨_ | _, D⟩ <;>
    rw [hrun] at h <;> cases h
  obtain ⟨vars, d₁, hvars, h⟩ := bind_ok hrun
  obtain ⟨_, d₂, hnamed, h⟩ := bind_ok h
  rw [recordNamed_apply] at hnamed
  cases hnamed
  obtain ⟨types, d₃, htypes, h⟩ := bind_ok h
  obtain ⟨d₄, d₅, hget, h⟩ := bind_ok h
  cases hget
  obtain rfl := Except.ok.inj (Prod.mk.inj h).1
  obtain ⟨r, hds, rfl⟩ := DraftM.ofTypeM_ok htypes
  have hd₁ : m.globalsDraft used = d₁ := by
    unfold globalsDraft
    rw [hvars]
  exact ⟨types, vars, r, by rw [hd₁, hvars], by rw [hd₁, hds], rfl, rfl⟩

theorem file_eq {m : Module} (funcs : List FuncDecl) (used : Records) {r : Records}
    {vars types : List Decl} {d : Draft} (hvars : globalDecls { globals := m.globalNames } m.globals
      { records := { imports := used.imports } } = (.ok vars, d))
    (htypes : allStructDecls m.bodies (d.records.addAllNamed (m.types ++ used.named)) =
      (.ok types, r)) :
    m.file funcs used = .ok
      { package := packageName m.name
        imports := sorted r.imports
        decls := types ++ vars ++ funcs.map Decl.func } := by
  have hofTypeM : DraftM.ofTypeM (allStructDecls m.bodies)
      { d with records := d.records.addAllNamed (m.types ++ used.named) } =
        (.ok types, { d with records := r }) := by
    unfold DraftM.ofTypeM
    simp only [htypes]
  unfold Module.file Module.fileM
  simp only [bind_of_ok hvars, bind_of_ok (recordNamed_apply _ _), bind_of_ok hofTypeM]
  rfl

/-- What functions need together. -/
abbrev used (kept : List FunctionResult) : Records :=
  Records.merge (kept.map FunctionResult.records)

/-- The structs that a file of some functions declares in any case: those of the module, and those
that were recorded for the functions and for the global variables. -/
def Seed (m : Module) (kept : List FunctionResult) (n : String) : Prop :=
  n ∈ m.types ∨ (∃ r ∈ kept, n ∈ r.records.named) ∨ n ∈ (m.globalsDraft (used kept)).records.named

/-- What the head of a file provides: the packages that it imports, and the structs that it
declares. -/
abbrev head (file : File) (structs : List String) : Records :=
  { imports := file.imports, named := structs }

/-- A file of some functions is closed under packages and types, and these are the structs that
it declares. -/
structure Closes (m : Module) (feeds : FeedSource) (kept : List FunctionResult) (file : File)
    (structs : List String) : Prop where
  /-- Each struct is declared once. -/
  once : structs.Nodup
  /-- The structs are the least set with the seeds that is closed under mention. -/
  least : ∀ n, n ∈ structs ↔ Needed m.bodies (m.Seed kept) n
  /-- First come the structs, then the global variables, then the functions. All that the first two
  need is in the head of the file. -/
  layout : ∃ types vars, file.decls = types ++ vars ++ kept.map (fun r => Decl.func r.decl) ∧
    globalDecls { globals := m.globalNames } m.globals
      { records := { imports := (used kept).imports } } = (.ok vars, m.globalsDraft (used kept)) ∧
    List.Forall₂ (fun n d => (structDecl m.bodies n {}).1 = .ok d ∧
      DeclForm (fun _ => False) (head file structs) d) structs types ∧
    ∀ d ∈ vars, DeclForm (m.GlobalName (used kept)) (head file structs) d
  /-- All that the functions need is in the head of the file. -/
  funcs : ∀ r ∈ kept, ∃ f ∈ m.functions, (f.decompile m.globalNames feeds).1 = .ok r ∧
    DeclForm (f.ValueName m.globalNames feeds) (head file structs) (.func r.decl)

variable {m : Module} {feeds : FeedSource} {policy : Policy} {result : ModuleResult}
  {kept : List FunctionResult} {file : File} {structs : List String}

/-- Every declaration has a form that the head of the file allows. -/
theorem Closes.form (h : m.Closes feeds kept file structs) {d : Decl} (hd : d ∈ file.decls) :
    ∃ V, DeclForm V (head file structs) d := by
  obtain ⟨types, vars, hdecls, -, htypes, hvars⟩ := h.layout
  rw [hdecls, List.mem_append, List.mem_append] at hd
  obtain (hd | hd) | hd := hd
  · obtain ⟨n, -, -, hform⟩ := mem_of_forall₂ htypes.flip hd
    exact ⟨_, hform⟩
  · exact ⟨_, hvars d hd⟩
  · obtain ⟨r, hr, rfl⟩ := List.mem_map.1 hd
    obtain ⟨f, -, -, hform⟩ := h.funcs r hr
    exact ⟨_, hform⟩

/-- What something is selected from, is imported. -/
theorem Closes.imported (h : m.Closes feeds kept file structs) {d : Decl} (hd : d ∈ file.decls)
    {p sel : String} (hp : Expr.selector (.ident p) sel ∈ d.parts) : p ∈ file.imports := by
  obtain ⟨V, hform⟩ := h.form hd
  exact (hform.part hp).selector_imported

theorem keptFile_ok (kept : List FunctionResult) :
    m.keptFile kept = .ok file ↔ m.file (kept.map FunctionResult.decl) (used kept) = .ok file := by
  unfold keptFile
  split
  · next file' hfile => rw [hfile]
  · next f hfile => simp [hfile]

theorem mem_imports_used {p : String} :
    p ∈ (used kept).imports ↔ ∃ r ∈ kept, p ∈ r.records.imports := by
  simp [Records.merge, mem_firsts]

theorem mem_named_used {n : String} :
    n ∈ (used kept).named ↔ ∃ r ∈ kept, n ∈ r.records.named := by
  simp [Records.merge, mem_firsts]

theorem mem_seeds {n : String} :
    n ∈ ((m.globalsDraft (used kept)).records.addAllNamed (m.types ++ (used kept).named)).named ↔
      m.Seed kept n := by
  rw [Records.mem_addAllNamed, List.mem_append, mem_named_used]
  exact or_comm.trans or_assoc

/-- **A file that is made is closed.** -/
theorem closes_of_keptFile (h : m.keptFile kept = .ok file)
    (hkept : ∀ r ∈ kept, ∃ f ∈ m.functions, (f.decompile m.globalNames feeds).1 = .ok r) :
    ∃ structs, m.Closes feeds kept file structs := by
  obtain ⟨types, vars, r, hmade⟩ := file_ok ((keptFile_ok kept).1 h)
  obtain ⟨hle, hstructs, hneeded⟩ := allStructDecls_ok hmade.structs
  have hglobals : Emits Extends (fun _ => True)
      (globalDecls { globals := m.globalNames } m.globals) _ :=
    emits_globalDecls (List.Subset.refl _)
  -- What is recorded at first is recorded at each later time, up to the head of the file.
  have hfirst : Records.Le { imports := (used kept).imports } (m.globalsDraft (used kept)).records :=
    (hglobals.grows hmade.globals).records
  have hthen : (m.globalsDraft (used kept)).records.Le r := Records.le_addAllNamed.trans hle
  have hlast : r.Le (head file r.named) := by
    refine ⟨fun p hp => ?_, List.Subset.refl _, id⟩
    show p ∈ file.imports
    rw [hmade.imports]
    exact mem_sorted.2 hp
  have hnodup : r.named.Nodup := (hfirst.trans hthen).nodup List.nodup_nil
  refine ⟨r.named, hnodup, fun n => ?_, ⟨types, vars, ?_, hmade.globals, ?_, ?_⟩, fun f hf => ?_⟩
  · rw [hneeded]
    simp only [mem_seeds]
  · rw [hmade.decls, List.map_map]
    rfl
  · exact hstructs.imp fun n d hd => ⟨(steady_structDecl m.bodies n _ _).trans hd.1,
      hd.2.mono (fun _ => id) hlast⟩
  · intro d hd
    exact (hglobals.holds hmade.globals (refl_of Extends _) trivial d hd).mono (fun _ => id)
      (hthen.trans hlast)
  · obtain ⟨g, hg, hres⟩ := hkept f hf
    refine ⟨g, hg, hres, (Function.decompile_form hres).mono (fun _ => id) ⟨fun p hp => ?_, ?_, ?_⟩⟩
    · exact hlast.imports ((hfirst.trans hthen).imports (mem_imports_used.2 ⟨f, hf, hp⟩))
    · intro n hn
      exact (hneeded n).2 (.seed (mem_seeds.2 (.inr (.inl ⟨f, hf, hn⟩))))
    · exact fun _ => hnodup

theorem closes_of_decompile (h : (m.decompile feeds policy).1 = .ok result)
    (hfile : result.file = some file) : ∃ structs, m.Closes feeds result.kept file structs := by
  obtain ⟨fs, hfs, hkept⟩ := kept_eq h
  refine closes_of_keptFile (keptFile_of_decompile h hfile) fun r hr => ?_
  rw [hkept] at hr
  obtain ⟨f, hf, hr⟩ := List.mem_filterMap.1 hr
  exact ⟨f, hfs.subset hf, Function.result?_eq_some.1 hr⟩

/-- **A file is closed under packages and types.** Its structs are the least set with the module's
and those recorded on the way that is closed under mention, and to declare them comes to an end for
all bodies and whatever is recorded. All packages and structs that any declaration needs are those
of the head of the file. -/
theorem file_closed (m : Module) (feeds : FeedSource) (policy : Policy) :
    (∀ r x r', Declaring m.bodies 0 r x r' ↔ allStructDecls m.bodies r = (x, r')) ∧
    ∀ result file, (m.decompile feeds policy).1 = .ok result → result.file = some file →
      ∃ structs, m.Closes feeds result.kept file structs ∧
        ∀ d ∈ file.decls, ∀ p sel, Expr.selector (.ident p) sel ∈ d.parts → p ∈ file.imports := by
  refine ⟨fun r x r' => declaring_iff, fun result file h hfile => ?_⟩
  obtain ⟨structs, hcloses⟩ := closes_of_decompile h hfile
  exact ⟨structs, hcloses, fun d hd p sel hp => hcloses.imported hd hp⟩

end Module

/-! ### Structs that mention each other -/

namespace Linked

/-- A node has a pointer to a node and a leaf, and a leaf has a pointer to a node and another one
that does not say what it points to. -/
def bodies : Bodies :=
  ⟨[("node", [.ptr (.named "node"), .named "leaf"]), ("leaf", [.ptr (.named "node"), .opaquePtr])]⟩

/-- A module that names only nodes. -/
def program : Module := { name := "linked", types := ["node"], bodies }

/-- The declarations of both. -/
def types : List Decl :=
  [.gen { tok := "type", specs := [.typeDef "node"
    (.struct (numberedFields [.star (.ident "node"), .ident "leaf"]))] },
  .gen { tok := "type", specs := [.typeDef "leaf"
    (.struct (numberedFields [.star (.ident "node"), unsafePointer]))] }]

def file : File := { package := "linked", imports := ["unsafe"], decls := types }

theorem allStructDecls_eq :
    allStructDecls bodies { named := ["node"] } =
      (.ok types, { imports := ["unsafe"], named := ["node", "leaf"] }) := by
  have hnode : structDecl bodies "node" { named := ["node"] } =
      (.ok (types.head (by decide)), { named := ["node", "leaf"] }) := by
    have hbody : (bodies.get? "node").getD [] = [.ptr (.named "node"), .named "leaf"] := rfl
    simp only [structDecl, goStruct, hbody, goTypes, goType]
    rfl
  have hleaf : structDecl bodies "leaf" { named := ["node", "leaf"] } =
      (.ok (types.getLast (by decide)), { imports := ["unsafe"], named := ["node", "leaf"] }) := by
    have hbody : (bodies.get? "leaf").getD [] = [.ptr (.named "node"), .opaquePtr] := rfl
    simp only [structDecl, goStruct, hbody, goTypes, goType]
    rfl
  exact declaring_iff.1 (.step rfl hnode (.step rfl hleaf (.finish rfl)))

theorem decompile_eq (feeds : FeedSource) :
    (program.decompile feeds {}).1 = .ok { file := some file, kept := [], errors := [] } := by
  have hsorted : sorted ["unsafe"] = ["unsafe"] := List.mergeSort_singleton _
  have hstructs : allStructDecls program.bodies (Records.addAllNamed {} (program.types ++ [])) =
      (.ok types, { imports := ["unsafe"], named := ["node", "leaf"] }) := by
    have hseeds : Records.addAllNamed {} (program.types ++ []) = { named := ["node"] } := rfl
    rw [hseeds]
    exact allStructDecls_eq
  have hvars : globalDecls { globals := program.globalNames } program.globals {} = (.ok [], {}) :=
    rfl
  have hfile : program.file [] {} = .ok file := by
    refine (Module.file_eq [] {} hvars hstructs).trans ?_
    rw [hsorted]
    rfl
  rw [Module.decompile_eq]
  show program.conclude {} [] [] = _
  simp [Module.conclude, (Module.keptFile_ok []).2 hfile]

/-- Leaves are declared, once, though only nodes are named, and what their pointer is selected from
is imported. -/
theorem linked_closed :
    ∃ result file, (program.decompile (FeedSource.ofTable {}) {}).1 = .ok result ∧
      result.file = some file ∧ ∃ structs,
        program.Closes (FeedSource.ofTable {}) result.kept file structs ∧
        structs.count "leaf" = 1 ∧ "unsafe" ∈ file.imports := by
  obtain ⟨structs, hcloses, himported⟩ := (Module.file_closed program (FeedSource.ofTable {}) {}).2
    _ file (decompile_eq _) rfl
  refine ⟨_, file, decompile_eq _, rfl, structs, hcloses, ?_, ?_⟩
  · refine List.count_eq_one_of_mem hcloses.once ((hcloses.least "leaf").2 ?_)
    exact .mention (n := "node") (.seed (.inl List.mem_cons_self)) (by decide)
  · refine himported _ (List.mem_cons_of_mem _ List.mem_cons_self) "unsafe" "Pointer" ?_
    simp [Go.Decl.parts, Go.GenDecl.parts, Go.Spec.parts, Expr.parts, numberedFields,
      Go.mem_partsOf_fields, unsafePointer, Go.FieldDecl.parts]

end Linked

end GoLift
