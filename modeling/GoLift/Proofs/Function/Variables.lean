import GoLift.Proofs.Function.Names
import GoLift.Proofs.Lower.Types
import GoLift.Proofs.Phi.Temporaries
import GoLift.Proofs.Region.Assigned
import Mathlib

/-!
# The variables of a function

The body of a function begins with the declarations of its variables: one for each instruction
with a result, in their order, and one for each phi copy that goes through a temporary, in the
order in which they are made. **They are all that the body assigns, except for the global
variables that the function stores to** (`Function.variables_declared`): a global variable is its
own storage, so a store to it assigns it, and it is declared at the top of the file. `Storing` is a
function that does.

Identifiers, temporaries and assignments are made in different phases. What they have in common is
the draft: a binding keeps its identifier, and no phase but that of the phi copies declares a
variable.
-/

set_option autoImplicit false

namespace GoLift

open Go (Expr Stmt FieldDecl FuncDecl AssignsOnly)
open Draft (Extends)
open DraftM

/-! ### Results -/

theorem Instr.dest?_of_result {i : Instr} {v : Option (String × Ty)} (h : i.result = .ok v) :
    i.dest? = v.map Prod.fst := by
  cases i with
  | alloca dest t count =>
    by_cases hmetadata : t = .metadata
    · subst hmetadata
      cases h
    · rw [Instr.result] at h
      · split at h <;> cases h
        rfl
      · exact hmetadata
  | call dest ret callee args =>
    cases h
    cases dest <;> rfl
  | unknown => cases h
  | _ =>
    cases h
    rfl

theorem dests_of_results {is : List Instr} {vs : List (Option (String × Ty))}
    (h : List.Forall₂ (fun i v => i.result = .ok v) is vs) :
    (vs.filterMap id).map Prod.fst = is.filterMap Instr.dest? := by
  induction h with
  | nil => rfl
  | cons hi _ ih =>
    rw [List.filterMap_cons, List.filterMap_cons, Instr.dest?_of_result hi]
    split <;> simp_all

/-- The results of a body are the bindings that its instructions make. -/
theorem names_resultsOf {blocks : List Block} {results : List (String × Ty)}
    (h : resultsOf blocks = .ok results) :
    results.map Prod.fst = (blocks.flatMap Block.instrs).filterMap Instr.dest? := by
  obtain ⟨vs, hvs, h⟩ := except_bind_ok h
  cases h
  exact dests_of_results (forall₂_of_mapM hvs)

/-- A phi of a body makes one of its results. -/
theorem dest_mem_results {blocks : List Block} {results : List (String × Ty)}
    (h : resultsOf blocks = .ok results) {φ : Phi} (hφ : φ ∈ blocks.flatMap Block.phis) :
    φ.dest ∈ results.map Prod.fst := by
  rw [phis_eq_filterMap] at hφ
  obtain ⟨i, hi, hφ⟩ := List.mem_filterMap.1 hφ
  rw [names_resultsOf h]
  refine List.mem_filterMap.2 ⟨i, hi, ?_⟩
  cases i with
  | phi =>
    cases hφ
    rfl
  | _ => cases hφ

/-! ### Steps that declare nothing -/

theorem undeclaring_localVar (raw : String) : Undeclaring (localVar raw) := fun _ => rfl

theorem undeclaring_ofExcept {α : Type} (x : Except Fault α) : Undeclaring (DraftM.ofExcept x) := by
  intro d
  rw [ofExcept_apply]

namespace Registry

variable {r : Registry} {scope : Scope} {buffers : Table (List Stmt)} {blocks : List Block}

theorem undeclaring_seedFrom : Undeclaring (seedFrom scope buffers r blocks) := by
  induction blocks generalizing r with
  | nil => exact closed_undeclaring.pure _
  | cons b blocks ih =>
    refine closed_undeclaring.seq
      (closed_undeclaring.instrs undeclaring_localVar scope b.instrs) fun stmts => ?_
    dsimp only
    split
    · exact fun _ => rfl
    · exact ih

theorem undeclaring_apply (p : Primitive) : Undeclaring (r.apply scope p) :=
  closed_undeclaring.seq (undeclaring_ofExcept _) fun _ =>
    closed_undeclaring.seq (undeclaring_ofExcept _) fun _ =>
      closed_undeclaring.seq (undeclaring_ofExcept _) fun _ =>
        closed_undeclaring.seq (Region.closed_build closed_undeclaring scope p
          fun _ _ name _ => undeclaring_localVar name) fun _ =>
            closed_undeclaring.seq (fun _ => rfl) fun _ => closed_undeclaring.pure _

/-- Reducing declares no variable. -/
theorem undeclaring_reduce (prims : List Primitive) : Undeclaring (r.reduce scope prims) := by
  have hall : Undeclaring (r.applyAll scope prims) := by
    induction prims generalizing r with
    | nil => exact closed_undeclaring.pure _
    | cons p ps ih => exact closed_undeclaring.seq (undeclaring_apply p) fun _ => ih
  exact closed_undeclaring.seq hall fun _ => undeclaring_ofExcept _

end Registry

/-! ### Declarations -/

/-- A statement declares a variable with the Go type of its type, and gives it no value. -/
def Declares (v : String × Ty) (s : Stmt) : Prop :=
  ∃ T, goType? v.2 = some T ∧ s = .decl (varDecl v.1 T [])

theorem varStmts_ok {vars : List (String × Ty)} {d d' : Draft} {ss : List Stmt}
    (h : varStmts vars d = (.ok ss, d')) : List.Forall₂ Declares vars ss := by
  induction vars generalizing d ss with
  | nil =>
    cases h
    exact .nil
  | cons v vars ih =>
    obtain ⟨T, d₁, hT, h⟩ := bind_ok h
    obtain ⟨rest, d₂, hrest, h⟩ := bind_ok h
    cases h
    exact .cons ⟨T, goType?_of_ok hT, rfl⟩ (ih hrest)

/-- The statement with which control leaves a function, assigns nothing. -/
theorem assignsOnly_endStmts {X : String → Prop} {scope : Scope} {b : WorkBlock} :
    Ensures (endStmts scope b) (AssignsOnly X) := by
  unfold endStmts
  split
  · exact .pure Go.assignsOnly_nil
  · exact Lower.assignsOnly_exitStmts _

/-- Partners of names are partners of the names with something beside them. -/
theorem forall₂_zip_snd {R : String → String → Prop} {results : List (String × Ty)}
    {names : List String} (h : List.Forall₂ R (results.map Prod.fst) names) :
    List.Forall₂ (fun result v => R result.1 v.1 ∧ v.2 = result.2) results
      (names.zip (results.map Prod.snd)) := by
  induction results generalizing names with
  | nil =>
    cases h
    exact .nil
  | cons result results ih =>
    cases h with
    | cons hname hrest => exact .cons ⟨hname, rfl⟩ (ih hrest)

namespace Function

variable {f : Function} {globals : List String} {feeds : FeedSource} {r : FunctionResult}
  {results : List (String × Ty)} {su : Setup}

/-- A function is set up with a variable for each result, of its type. -/
theorem locals_of_setup (hsetup : f.setup globals = .ok su)
    (hresults : resultsOf f.body = .ok results) :
    List.Forall₂ (fun result v => su.draft.names.local? result.1 = some v.1 ∧ v.2 = result.2)
      results su.draft.declared := by
  obtain ⟨_, hresults', h⟩ := except_bind_ok hsetup
  rw [hresults] at hresults'
  cases hresults'
  cases h
  exact forall₂_zip_snd (NameTable.bindAll_local? _ (results.map Prod.fst))

theorem globals_of_setup (hsetup : f.setup globals = .ok su) : su.scope.globals = globals := by
  obtain ⟨_, -, h⟩ := except_bind_ok hsetup
  cases h
  rfl

/-- The identifier of a result, whenever it is asked for, is that of a declared variable. -/
theorem mem_declared_of_local? (hsetup : f.setup globals = .ok su)
    (hresults : resultsOf f.body = .ok results) {d : Draft} (hd : su.draft ≤ d) {raw x : String}
    (hraw : raw ∈ results.map Prod.fst) (hx : d.names.local? raw = some x) :
    x ∈ su.draft.declared.map Prod.fst := by
  obtain ⟨result, hresult, rfl⟩ := List.mem_map.1 hraw
  obtain ⟨v, hv, hlocal, -⟩ := mem_of_forall₂ (locals_of_setup hsetup hresults) hresult
  obtain rfl := Option.some.inj ((hd.local? hlocal).symm.trans hx)
  exact List.mem_map_of_mem hv

/-- The global variables that a function stores to. -/
def storedTo (f : Function) (globals : List String) : List String :=
  (f.body.flatMap Block.instrs).filterMap (Instr.storedTo? globals)

/-- What the body of a function declares and assigns. -/
structure Variables (f : Function) (globals : List String) (results : List (String × Ty))
    (decl : FuncDecl) (params : List String) (locals temps : List (String × Ty))
    (vars code : List Stmt) : Prop where
  /-- The body begins with a declaration of each variable. -/
  body : decl.body = some (vars ++ code)
  declares : List.Forall₂ Declares (locals ++ temps) vars
  /-- Nothing is declared behind them. -/
  rest : Stmt.declaresIn code = []
  /-- There is one variable for each result, of its type. -/
  ofResults : List.Forall₂ (fun result v =>
    (∃ k, v.1 = NameTable.variant (goName result.1) k) ∧ v.2 = result.2) results locals
  /-- There is one variable for each copy that goes through one, of the type of the phi. -/
  ofCopies : List.Forall₂ (fun (c : Copy) v =>
    ∃ φ ∈ f.body.flatMap Block.phis, c.dest = φ.dest ∧ v.2 = φ.type) (Copy.capturedIn f.body) temps
  numbered : ∃ ks : List Nat, ks.Pairwise (· < ·) ∧
    temps.map Prod.fst = ks.map (NameTable.temporary "tmp")
  parameters : decl.type.params.flatMap FieldDecl.names = params ++ f.tailNames
  count : params.length = f.params.length
  /-- All these are different, also from the parameters. -/
  apart : (params ++ (locals ++ temps).map Prod.fst).Nodup
  /-- Nothing else is assigned but global variables that the function stores to. -/
  assigns : AssignsOnly (fun x => x ∈ (locals ++ temps).map Prod.fst ∨
    ∃ g ∈ f.storedTo globals, x = goName g) code

/-- What the blocks of a function assign when they are entered: temporaries, results, and global
variables that the function stores to. -/
theorem seed_assigns (hsetup : f.setup globals = .ok su) (hresults : resultsOf f.body = .ok results)
    {buffers : Table (List Stmt)} {registry : Registry} {temps : List (String × Ty)} {d d' : Draft}
    (hd : su.draft ≤ d) (hd' : d ≤ d')
    (hbuffers : ∀ e ∈ buffers.entries, AssignsOnly (fun x => x ∈ temps.map Prod.fst ∨
      ∃ φ ∈ f.body.flatMap Block.phis, d.names.local? φ.dest = some x) e.2)
    (hseeded : List.Forall₂ (Registry.Seeded su.scope buffers d') f.body registry.live) :
    ∀ w ∈ registry.live, AssignsOnly (fun x => x ∈ (su.draft.declared ++ temps).map Prod.fst ∨
      ∃ g ∈ f.storedTo globals, x = goName g) w.sequence := by
  intro w hw
  obtain ⟨b, hb, hwb⟩ := mem_of_forall₂ hseeded.flip hw
  rw [List.map_append]
  refine hwb.assignsOnly (fun i hi x hx => ?_) fun e he => (hbuffers e he).imp fun x hx => ?_
  · have hinstr : i ∈ f.body.flatMap Block.instrs := List.mem_flatMap.2 ⟨b, hb, hi⟩
    obtain ⟨raw, hdest, hx⟩ | ⟨g, hg, rfl⟩ := hx
    · have hraw : raw ∈ results.map Prod.fst := by
        rw [names_resultsOf hresults]
        exact List.mem_filterMap.2 ⟨i, hinstr, hdest⟩
      have hmem := mem_declared_of_local? hsetup hresults (hd.trans hd') hraw hx
      exact .inl (List.mem_append_left _ hmem)
    · rw [globals_of_setup hsetup] at hg
      exact .inr ⟨g, List.mem_filterMap.2 ⟨i, hinstr, hg⟩, rfl⟩
  · obtain hx | ⟨φ, hφ, hx⟩ := hx
    · exact .inl (List.mem_append_right _ hx)
    · have hmem := mem_declared_of_local? hsetup hresults hd (dest_mem_results hresults hφ) hx
      exact .inl (List.mem_append_left _ hmem)

/-- **Every variable that the body of a function assigns is declared once, before everything
else**: one for each result and one for each phi copy that goes through one, in their orders, with
the Go types of their types, and different from each other and from the parameters. A global
variable that the function stores to is its own storage, and is the only other thing that is
assigned. -/
theorem variables_declared (hblocks : f.blocks ≠ none) (hresults : resultsOf f.body = .ok results)
    (hnodup : (f.bindings results).Nodup) (h : (f.decompile globals feeds).1 = .ok r) :
    ∃ params locals temps vars code,
      f.Variables globals results r.decl params locals temps vars code := by
  cases makes_of_decompile h with
  | declared hnone => exact absurd hnone hblocks
  | @defined su decl D _ hsetup hdecl =>
    obtain ⟨buffers, d₁, registry, d₂, prims, b, d₃, d₄, hphi, hseed, -, hreduce, hassemble, -⟩ :=
      decompileM_phases hdecl
    have hnamed := named_of_setup hsetup hresults
    have hlocals := locals_of_setup hsetup hresults
    have hb := reducesTo_of_phases hphi hseed hreduce
    obtain ⟨hsound, hseeded, -⟩ := Registry.seed_ok hseed
    obtain ⟨temps, hallocates, htypes, hbuffers⟩ :=
      phiBuffers_allocates (Registry.nodup_names_of_seeded hsound hseeded) hphi
    have hdeclared : d₃.declared = su.draft.declared ++ temps :=
      ((Registry.undeclaring_reduce prims).apply hreduce).trans
        ((Registry.undeclaring_seedFrom.apply hseed).trans hallocates.declared)
    obtain ⟨vars, d₅, ending, d₆, type, hvars, hending, htype, rfl⟩ := assemble_parts hassemble
    have hgrown : su.draft ≤ d₁ := (grows_phiBuffers su.scope f.body).apply hphi
    have hseeding : d₁ ≤ d₂ := (Registry.grows_seedFrom su.scope buffers f.body {}).apply hseed
    have hrest : Stmt.declaresIn (b.sequence ++ ending) = [] := by
      have hended := (emits_endStmts (P := fun _ => True) hb.ends).holds hending
        (refl_of Extends _) trivial
      rw [Go.declaresIn_eq, List.flatMap_append, declares_nil (hb.code (refl_of Extends d₃)),
        declares_nil hended, List.append_nil]
    have hassigns := Registry.handsOn_assignsOnly.reduce hsound
      (seed_assigns hsetup hresults hgrown hseeding hbuffers hseeded) _ _ _ hreduce
    obtain ⟨ks, hks, hrise, -⟩ := hallocates.numbered
    exact ⟨su.params, su.draft.declared, temps, vars, b.sequence ++ ending,
      { body := by rw [List.append_assoc]
        declares := hdeclared ▸ varStmts_ok hvars
        rest := hrest
        ofResults := hlocals.imp fun result v hv => ⟨(hnamed.names.of_local hv.1).2.1, hv.2⟩
        ofCopies := forall₂_capturedIn htypes
        numbered := ⟨ks, hrise, hks⟩
        parameters := (emits_ofTypeM (P := fun _ => True) (f.emits_paramNames
          (P := fun _ => True) hnamed.params)).holds htype (refl_of Extends _) trivial
        count := hnamed.params
        apart := hdeclared ▸ (hb.grown.owns (hnamed.owns hnodup)).nodup
        assigns := Go.assignsOnly_append.2 ⟨hassigns, assignsOnly_endStmts _ _ _ hending⟩ }⟩

end Function

/-! ### A function that stores to a global variable -/

namespace Storing

/-- The type of the bindings. -/
def bit : Ty := .int 1

/-- The function swaps two variables around a loop, and stores one of them each time. -/
def function : Function where
  name := "f"
  ret := .void
  params := [⟨"x", bit⟩, ⟨"y", bit⟩]
  blocks := some
    [{ name := "entry", terminator := some (.br "loop") },
      { name := "loop"
        instrs :=
          [.phi "a" bit [("entry", .localRef "x" bit), ("loop", .localRef "b" bit)],
            .phi "b" bit [("entry", .localRef "y" bit), ("loop", .localRef "a" bit)],
            .store bit (.localRef "a" bit) (.globalRef "last" (.ptr bit))]
        terminator := some (.condBr (.localRef "a" bit) "loop" "exit") },
      { name := "exit", terminator := some (.ret none) }]

def feeds : FeedSource := fun _ => .ok
  [{ kind := .postLoop, node := some "turns", roles := ⟨[("cond", "loop"), ("exit", "exit")]⟩ },
    { kind := .seq, sequence := ["entry", "turns"] }]

def code : List Stmt :=
  [.set (.ident "a") (.ident "x"), .set (.ident "b") (.ident "y"),
    .loop none
      [.set (.ident "last") (.ident "a"),
        .set (.ident "tmp0") (.ident "b"), .set (.ident "tmp1") (.ident "a"),
        .set (.ident "a") (.ident "tmp0"), .set (.ident "b") (.ident "tmp1"),
        Region.breakUnless (.ident "a")],
    .ret []]

def result : FunctionResult where
  name := "f"
  decl :=
    { name := "f"
      type := { params := [.mk ["x"] (.ident "bool"), .mk ["y"] (.ident "bool")] }
      body := some ((["a", "b", "tmp0", "tmp1"].map fun x =>
        .decl (varDecl x (.ident "bool") [])) ++ code) }
  records := {}

theorem decompile_eq : (function.decompile ["last"] feeds).1 = .ok result := by
  cbv

/-- The variables of the function: two for the phis, and two temporaries. -/
theorem loop_variables :
    ∃ results, resultsOf function.body = .ok results ∧ (function.bindings results).Nodup ∧
      (function.decompile ["last"] feeds).1 = .ok result ∧
      ∃ params locals temps vars code,
        function.Variables ["last"] results result.decl params locals temps vars code := by
  have hresults : resultsOf function.body = .ok [("a", bit), ("b", bit)] := rfl
  have hnodup : (function.bindings [("a", bit), ("b", bit)]).Nodup := by decide
  exact ⟨_, hresults, hnodup, decompile_eq,
    Function.variables_declared (Option.some_ne_none _) hresults hnodup decompile_eq⟩

/-- The function assigns a global variable that its body does not declare. -/
theorem global_not_declared :
    ∃ results body, resultsOf function.body = .ok results ∧ (function.bindings results).Nodup ∧
      (function.body.map Block.name).Nodup ∧ (function.decompile ["last"] feeds).1 = .ok result ∧
      result.decl.body = some body ∧ "last" ∈ Stmt.assignsIn body ∧
      "last" ∉ Stmt.declaresIn body :=
  ⟨_, _, rfl, by decide, by decide, decompile_eq, rfl, by decide, by decide⟩

end Storing

end GoLift
