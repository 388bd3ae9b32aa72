import GoLift.Proofs.Function.Forms
import GoLift.Proofs.Lower.Components
import GoLift.Proofs.Phi.Validation

/-!
# Faults that a complete function cannot have

Later phases look out for things that no function that was read has: blocks without an end, two
blocks of one label, and instructions and terminators of unknown kinds. What is complained about
then is a *prevented* fault (`Fault.isPrevented`).

**A function all of whose blocks are complete has none of them, whatever becomes of it**
(`Function.Complete.decompile_error`). `Clear` says so of a step, and is taken along the definitions
through the phases; only instructions, the ends of blocks and labels need that the function is
complete.
-/

set_option autoImplicit false

namespace GoLift

open Go (Expr Stmt FuncDecl)

/-! ### Complete functions -/

/-- Is an instruction of a kind that there is a lowering for? -/
def Instr.isKnown : Instr → Bool
  | .unknown _ => false
  | _ => true

/-- Is a terminator of a known kind? -/
def Terminator.isKnown : Terminator → Bool
  | .unknown _ => false
  | _ => true

/-- A block has an end, and all in it is of known kinds. -/
structure Block.Complete (b : Block) : Prop where
  ends : ∃ t, b.terminator = some t ∧ t.isKnown = true
  known : ∀ i ∈ b.instrs, i.isKnown = true

/-- The blocks of a function are complete, and no two have one label. -/
structure Function.Complete (f : Function) : Prop where
  blocks : ∀ b ∈ f.body, b.Complete
  labels : (f.body.map Block.name).Nodup

/-- Is a cause one that no complete function has? There is a lowering of address computations that
refuses them, and a switch is refused where control leaves. -/
def Cause.isPrevented : Cause → Bool
  | .openBlock _ | .duplicateLabel _ => true
  | .unsupported (.instruction kind) => kind != "GetElementPtr"
  | .unsupported (.terminator kind) => kind != "Switch"
  | _ => false

/-- Is a fault one that no complete function has? -/
def Fault.isPrevented : Fault → Bool
  | .report c _ => c.isPrevented
  | .abort (.terminator _) | .abort (.resultless _) => true
  | .abort _ => false

theorem Cause.isPrevented_of_reason {c : Cause} (h : c.reason = .unsupportedType) :
    c.isPrevented = false := by
  cases c <;> first | rfl | cases h

theorem Fault.isPrevented_within (f : Fault) (function phase : String) :
    (f.within function phase).isPrevented = f.isPrevented := by
  cases f <;> rfl

/-! ### Steps without such faults -/

section

variable {S α β : Type}

/-- A step never fails with a prevented fault. -/
def Clear (x : ExceptT Fault (StateM S) α) : Prop :=
  ∀ s e s', x s = (.error e, s') → e.isPrevented = false

namespace Clear

variable {x : ExceptT Fault (StateM S) α} {f : α → ExceptT Fault (StateM S) β}

theorem pure (a : α) : Clear (Pure.pure a : ExceptT Fault (StateM S) α) := by
  intro s e s' h
  cases h

theorem throw {e : Fault} (he : e.isPrevented = false) :
    Clear (MonadExcept.throw e : ExceptT Fault (StateM S) α) := by
  intro s e' s' h
  cases h
  exact he

theorem bind (hx : Clear x) (hf : ∀ a, Clear (f a)) : Clear (x >>= f) := by
  intro s e s' h
  rw [bind_apply] at h
  rcases hs : x s with ⟨_ | a, s₁⟩
  · rw [hs] at h
    cases h
    exact hx _ _ _ hs
  · rw [hs] at h
    exact hf a _ _ _ h

end Clear

end

/-- What follows need be clear only for the results that the first part has. -/
theorem Clear.bind_ensures {α β : Type} {x : DraftM α} {f : α → DraftM β} {P : α → Prop}
    (hx : Clear x) (hP : DraftM.Ensures x P) (hf : ∀ a, P a → Clear (f a)) : Clear (x >>= f) := by
  intro d e d' h
  rw [bind_apply] at h
  rcases hd : x d with ⟨_ | a, d₁⟩
  · rw [hd] at h
    cases h
    exact hx _ _ _ hd
  · rw [hd] at h
    exact hf a (hP _ _ _ hd) _ _ _ h

namespace TypeM

theorem Takes.clear {α : Type} {x : TypeM α} {cs : List Component} (h : x.Takes cs) : Clear x := by
  intro r e r' hx
  obtain ⟨⟨cause, rfl, hcause⟩, -⟩ := h.refuses hx
  exact Cause.isPrevented_of_reason hcause

theorem clear_goType (unsigned : Bool) (t : Ty) : Clear (goType unsigned t) :=
  (takes_goType unsigned false t fun _ => rfl).clear

theorem clear_zeroValue (t : Ty) : Clear (zeroValue t) := by
  cases t with
  | int width =>
    unfold zeroValue
    dsimp only
    split
    · exact .pure _
    · exact (takes_goIntType false false width).clear.bind fun _ => .pure _
  | named _ | struct _ | array _ _ => exact (clear_goType false _).bind fun _ => .pure _
  | float | double | opaquePtr | ptr _ | func _ _ _ => exact .pure _
  | void | half | label | metadata | vector _ _ => exact .throw rfl

theorem clear_goSignature (names : List String) (params : List Ty) (ret : Ty) (varArg : Bool) :
    Clear (goSignature names params ret varArg) :=
  (takes_goTypes params).clear.bind fun _ =>
    (takes_goResults fun h => takes_goType false true ret fun hvoid => absurd hvoid h).clear.bind
      fun _ => .pure _

end TypeM

namespace DraftM

variable {α : Type} {scope : Scope}

theorem clear_refuse {c : Cause} (h : c.isPrevented = false) :
    Clear (DraftM.refuse c : DraftM α) :=
  .throw h

theorem clear_ofTypeM {x : TypeM α} (hx : Clear x) : Clear (DraftM.ofTypeM x) := by
  intro d e d' h
  rcases hr : x d.records with ⟨res, r⟩
  rw [ofTypeM, hr] at h
  cases h
  exact hx _ _ _ hr

theorem clear_ofExcept {r : Except Fault α} (h : ∀ e, r = .error e → e.isPrevented = false) :
    Clear (DraftM.ofExcept r) := by
  cases r with
  | ok a => exact .pure a
  | error e => exact .throw (h e rfl)

theorem clear_goType (t : Ty) : Clear (goType t) := clear_ofTypeM (TypeM.clear_goType _ t)

theorem clear_goUnsigned (t : Ty) : Clear (goUnsigned t) := clear_ofTypeM (TypeM.clear_goType _ t)

theorem clear_zeroValue (t : Ty) : Clear (zeroValue t) := clear_ofTypeM (TypeM.clear_zeroValue t)

theorem clear_useImport (package : String) : Clear (useImport package) :=
  clear_ofTypeM fun _ _ _ h => by cases h

theorem clear_localVar (raw : String) : Clear (localVar raw) := fun _ _ _ h => by cases h

theorem clear_temporary (t : Ty) : Clear (temporary t) := fun _ _ _ h => by cases h

theorem clear_tell (e : Event) : Clear (tell e) := fun _ _ _ h => by cases h

/-! ### Values -/

theorem clear_integer (p : Payload) : Clear (DraftM.ofAbort p.integer) := by
  unfold Payload.integer
  split
  · exact .pure _
  · split
    · exact .pure _
    · split <;> exact .throw rfl
  · exact .throw rfl

theorem clear_number (p : Payload) : Clear (DraftM.ofAbort p.number) := by
  unfold Payload.number
  split
  · split
    · exact .pure _
    · exact .throw rfl
  · exact .pure _
  · exact .throw rfl

theorem clear_floatExpr (x : Double) : Clear (floatExpr x) := by
  cases x with
  | nan | infinity _ => exact (clear_useImport _).bind fun _ => .pure _
  | finite _ _ _ => exact .pure _

theorem clear_scalarExpr (t : Ty) (p : Payload) : Clear (scalarExpr t p) := by
  unfold scalarExpr
  split
  · exact .pure _
  · exact (clear_goType _).bind fun _ => (clear_integer p).bind fun _ => .pure _
  · exact (clear_number p).bind clear_floatExpr
  · refine (clear_number p).bind fun x => ?_
    split
    · exact clear_floatExpr _
    · exact .throw rfl
  · exact .throw rfl
  · exact .throw rfl
  · exact .throw rfl
  · exact .throw rfl

mutual

theorem clear_lower (scope : Scope) : ∀ v : Value, Clear (v.lower scope)
  | .localRef name _ => by simpa only [Value.lower] using clear_localVar name
  | .globalRef .. => by simpa only [Value.lower] using .pure _
  | .const t p => by simpa only [Value.lower] using clear_payload scope t p

theorem clear_payload (scope : Scope) (t : Ty) : ∀ p : Payload, Clear (p.lower scope t)
  | .ref (.localRef name _) => by simpa only [Payload.lower] using clear_localVar name
  | .ref (.globalRef ..) => by simpa only [Payload.lower] using .pure _
  | .ref (.const ..) => by simpa only [Payload.lower] using clear_scalarExpr _ _
  | .null | .undef => by simpa only [Payload.lower] using clear_zeroValue t
  | .elements vs => by
      unfold Payload.lower
      split
      · exact (clear_lowerAll scope vs).bind fun _ => (clear_goType _).bind fun _ => .pure _
      · exact clear_scalarExpr _ _
  | .int _ | .float _ | .list _ => by simpa only [Payload.lower] using clear_scalarExpr _ _

theorem clear_lowerAll (scope : Scope) : ∀ vs : List Value, Clear (Value.lowerAll scope vs)
  | [] => by simpa only [Value.lowerAll] using .pure _
  | v :: vs => by
      simpa only [Value.lowerAll] using
        (clear_lower scope v).bind fun _ => (clear_lowerAll scope vs).bind fun _ => .pure _

end

theorem clear_location (t : Ty) (ptr : Value) : Clear (ptr.location scope t) := by
  have hderef : Clear (do
      let target ← ptr.lower scope
      if (ptr.declaredType scope).isOpaquePtr then
        return Expr.star (.call (.paren (.star (← DraftM.goType t))) [target])
      else return .star target) := by
    refine (clear_lower scope ptr).bind fun _ => ?_
    split
    · exact (clear_goType _).bind fun _ => .pure _
    · exact .pure _
  cases ptr with
  | globalRef name type =>
    unfold Value.location
    simp only
    split
    · exact .pure _
    · exact hderef
  | localRef _ _ | const _ _ => exact hderef

end DraftM

/-! ### Instructions and terminators -/

namespace Lower

open DraftM

variable (scope : Scope)

theorem clear_unsignedValue (t : Ty) (v : Value) : Clear (unsignedValue scope t v) :=
  (clear_goUnsigned _).bind fun _ => (clear_lower scope v).bind fun _ => .pure _

theorem clear_assignTo (dest : String) (rhs : Expr) : Clear (assignTo dest rhs) :=
  (clear_localVar _).bind fun _ => .pure _

theorem clear_binaryExpr (op : String) (t : Ty) (left right : Value) :
    Clear (binaryExpr scope op t left right) := by
  refine (clear_lower scope left).bind fun l => (clear_lower scope right).bind fun r => ?_
  split
  · exact .pure _
  · exact (clear_unsignedValue scope _ _).bind fun _ =>
      (clear_unsignedValue scope _ _).bind fun _ => (clear_goType _).bind fun _ => .pure _
  · split
    · refine (clear_useImport _).bind fun _ => ?_
      dsimp only
      split <;> exact .pure _
    · exact clear_refuse rfl

theorem clear_icmpExpr (pred : String) (t : Ty) (left right : Value) :
    Clear (icmpExpr scope pred t left right) := by
  unfold icmpExpr
  split
  · exact (clear_lower scope _).bind fun _ => (clear_lower scope _).bind fun _ => .pure _
  · exact (clear_unsignedValue scope _ _).bind fun _ =>
      (clear_unsignedValue scope _ _).bind fun _ => .pure _
  · exact clear_refuse rfl

theorem clear_fcmpExpr (pred : String) (left right : Value) :
    Clear (fcmpExpr scope pred left right) := by
  refine (clear_lower scope left).bind fun l => (clear_lower scope right).bind fun r => ?_
  split
  · exact .pure _
  · exact clear_refuse rfl

theorem clear_asUnsafePointer (source : Value) (value : Expr) :
    Clear (asUnsafePointer scope source value) := by
  refine (clear_useImport _).bind fun _ => ?_
  split <;> exact .pure _

theorem clear_castExpr (op : String) (source : Value) (target : Ty) (value goTarget : Expr) :
    Clear (castExpr scope op source target value goTarget) := by
  unfold castExpr
  split
  · exact (clear_goUnsigned _).bind fun _ => .pure _
  · exact (clear_goUnsigned _).bind fun _ => .pure _
  · exact (clear_goUnsigned _).bind fun _ => .pure _
  · exact .pure _
  · exact .pure _
  · exact .pure _
  · exact .pure _
  · exact .pure _
  · exact .pure _
  · split
    · exact (clear_asUnsafePointer scope _ _).bind fun _ => .pure _
    · exact .pure _
  · exact (clear_asUnsafePointer scope _ _).bind fun _ => .pure _
  · exact (clear_useImport _).bind fun _ => .pure _
  · exact clear_refuse rfl

theorem clear_castStmts (dest op : String) (source : Value) (target : Ty) :
    Clear (castStmts scope dest op source target) := by
  refine (clear_localVar dest).bind fun d => (clear_lower scope source).bind fun value => ?_
  split
  · exact (clear_zeroValue _).bind fun _ => .pure _
  · split
    · exact .pure _
    · exact (clear_goType _).bind fun _ => (clear_castExpr scope _ _ _ _ _).bind fun _ => .pure _

/-- An instruction of a known kind has a lowering. -/
theorem clear_instr {i : Instr} (h : i.isKnown = true) : Clear (instr scope i) := by
  cases i with
  | binary => exact (clear_binaryExpr scope _ _ _ _).bind fun _ => clear_assignTo _ _
  | icmp => exact (clear_icmpExpr scope _ _ _ _).bind fun _ => clear_assignTo _ _
  | fcmp => exact (clear_fcmpExpr scope _ _ _).bind fun _ => clear_assignTo _ _
  | alloca =>
    simp only [instr]
    split
    · exact (clear_localVar _).bind fun _ => (clear_goType _).bind fun _ => .pure _
    · exact clear_refuse rfl
  | load => exact (clear_localVar _).bind fun _ => (clear_location _ _).bind fun _ => .pure _
  | store => exact (clear_location _ _).bind fun _ => (clear_lower scope _).bind fun _ => .pure _
  | cast => exact clear_castStmts scope _ _ _ _
  | call =>
    refine (clear_lower scope _).bind fun _ => (clear_lowerAll scope _).bind fun _ => ?_
    dsimp only
    split
    · exact clear_assignTo _ _
    · exact .pure _
  | select =>
    exact (clear_lower scope _).bind fun _ => (clear_localVar _).bind fun _ =>
      (clear_lower scope _).bind fun _ => (clear_lower scope _).bind fun _ => .pure _
  | gep => exact clear_refuse rfl
  | phi => exact .pure _
  | unknown => cases h

theorem clear_instrs : ∀ {is : List Instr}, (∀ i ∈ is, i.isKnown = true) → Clear (instrs scope is)
  | [], _ => .pure _
  | _ :: _, h =>
    (clear_instr scope (h _ List.mem_cons_self)).bind fun _ =>
      (clear_instrs fun i hi => h i (List.mem_cons_of_mem _ hi)).bind fun _ => .pure _

/-- Where control leaves, a terminator of a known kind is expected. -/
theorem clear_exitStmts {t : Terminator} (h : t.isKnown = true) :
    Clear (exitStmts scope (some t)) := by
  cases t with
  | br | condBr => exact clear_refuse rfl
  | ret value =>
    cases value with
    | none => exact .pure _
    | some v => exact (clear_lower scope v).bind fun _ => .pure _
  | switch => exact clear_refuse rfl
  | unreachable => exact .pure _
  | unknown => cases h

end Lower

/-! ### Copies -/

open DraftM

variable {scope : Scope} {blocks : List Block}

theorem clear_directCopies (scope : Scope) : ∀ cs : List Copy, Clear (directCopies scope cs)
  | [] => .pure _
  | c :: cs =>
    (clear_localVar c.dest).bind fun _ => (clear_lower scope c.value).bind fun _ =>
      (clear_directCopies scope cs).bind fun _ => .pure _

theorem clear_captures (scope : Scope) : ∀ cs : List Copy, Clear (captures scope cs)
  | [] => .pure _
  | c :: cs =>
    (clear_temporary c.type).bind fun _ => (clear_lower scope c.value).bind fun _ =>
      (clear_captures scope cs).bind fun _ => .pure _

theorem clear_releases : ∀ cs : List (Copy × String × Stmt), Clear (releases cs)
  | [] => .pure _
  | (c, _, _) :: cs =>
    (clear_localVar c.dest).bind fun _ => (clear_releases cs).bind fun _ => .pure _

theorem clear_bufferOf (label : String) (copies : List Copy) :
    Clear (bufferOf scope label copies) := by
  unfold bufferOf
  split
  · exact (clear_tell _).bind fun _ => (clear_captures scope copies).bind fun _ =>
      (clear_releases _).bind fun _ => .pure _
  · exact clear_directCopies scope copies

theorem clear_buffersOf (scope : Scope) :
    ∀ entries : List (String × List Copy), Clear (buffersOf scope entries)
  | [] => .pure _
  | (label, copies) :: rest =>
    (clear_bufferOf label copies).bind fun _ => (clear_buffersOf scope rest).bind fun _ => .pure _

/-- **The predecessors of complete blocks can only fail for a label that no block carries.** -/
theorem predecessors_of_complete (h : ∀ b ∈ blocks, b.Complete) {e : Fault}
    (he : Flow.predecessors blocks = .error e) :
    ∃ b ∈ blocks, ∃ l ∈ b.targets, l ∉ blocks.map Block.name ∧
      e = (Cause.unknownTarget b.name l).fault := by
  rcases except_bind_error he with hgraph | ⟨graph, -, he⟩
  · obtain ⟨b, hb, hedges⟩ := exists_of_mapM_error hgraph
    obtain ⟨t, ht, hknown⟩ := (h b hb).ends
    have hs : t.successors = .ok (firsts t.targets) := by
      cases t with
      | unknown => cases hknown
      | _ => rfl
    rw [Flow.edges, ht] at hedges
    simp only [hs] at hedges
    split at hedges
    · next l hl =>
      cases hedges
      have hmem := mem_firsts.1 (List.mem_of_find?_eq_some hl)
      have hout := List.find?_some hl
      exact ⟨b, hb, l, Block.targets_of ht ▸ hmem, by simpa using hout, rfl⟩
    · cases hedges
  · cases he

theorem clear_phiBuffers (h : ∀ b ∈ blocks, b.Complete) : Clear (phiBuffers scope blocks) := by
  unfold phiBuffers
  split
  · next e he =>
    refine .throw ?_
    rcases except_bind_error he with hpreds | ⟨preds, -, he⟩
    · obtain ⟨b, -, l, -, -, rfl⟩ := predecessors_of_complete h hpreds
      rfl
    rcases except_bind_error he with hcheck | ⟨u, -, he⟩
    · obtain ⟨s, -, hphis⟩ := exists_of_forM_error hcheck
      obtain ⟨φ, -, hφ⟩ := exists_of_forM_error hphis
      unfold Phi.check at hφ
      dsimp only at hφ
      split at hφ
      · cases hφ
        rfl
      · split at hφ <;> cases hφ
        rfl
    · cases he
  · exact (clear_buffersOf scope _).bind fun _ => .pure _

/-! ### Regions -/

namespace Region

variable {p : Primitive} {ms : Members}

/-- A block leaves by a terminator of a known kind. -/
theorem clear_member (b : WorkBlock) : Clear (member scope b) := by
  unfold member
  split
  · next hleaves =>
    obtain ⟨t, ht, hleaves⟩ := (Option.any_eq_true _ _).1 hleaves
    have hknown : t.isKnown = true := by
      cases t with
      | unknown => cases hleaves
      | _ => rfl
    rw [ht]
    exact (Lower.clear_exitStmts scope hknown).bind fun _ => .pure _
  · exact .pure _

theorem clear_membersOf : ∀ bs : List WorkBlock, Clear (membersOf scope bs)
  | [] => .pure _
  | b :: bs => (clear_member b).bind fun _ => (clear_membersOf bs).bind fun _ => .pure _

theorem clear_condBranch (cond : WorkBlock) : Clear (condBranch p cond) := by
  unfold condBranch
  split
  · exact .pure _
  · exact clear_refuse rfl
  · exact clear_refuse rfl

theorem clear_branchTowards (cond target : WorkBlock) :
    Clear (branchTowards scope p cond target) := by
  refine (clear_condBranch cond).bind fun (c, t, f) => (clear_lower scope c).bind fun _ => ?_
  split
  · exact .pure _
  · split
    · exact .pure _
    · exact clear_refuse rfl

theorem clear_ifThen : Clear (ifThen scope p ms) := by
  unfold ifThen
  split
  · exact (clear_branchTowards _ _).bind fun _ => (clear_member _).bind fun _ =>
      (clear_member _).bind fun _ => .pure _
  · exact clear_refuse rfl

theorem clear_ifElse : Clear (ifElse scope p ms) := by
  unfold ifElse
  split
  · refine (clear_condBranch _).bind fun (c, t, f) => ?_
    dsimp only
    split
    · split
      · exact clear_refuse rfl
      · exact (clear_lower scope c).bind fun _ => (clear_member _).bind fun _ =>
          (clear_member _).bind fun _ => (clear_member _).bind fun _ => .pure _
    · exact clear_refuse rfl
  · exact clear_refuse rfl

theorem clear_build : Clear (build scope p ms) := by
  unfold build
  split
  · unfold seq
    split
    · exact clear_refuse rfl
    · exact (clear_membersOf _).bind fun _ => .pure _
  · exact clear_ifThen
  · unfold ifReturn
    split
    · split
      · exact clear_ifThen
      · exact clear_refuse rfl
    · exact clear_refuse rfl
  · exact clear_ifElse
  · unfold preLoop
    split
    · exact (clear_branchTowards _ _).bind fun _ => (clear_member _).bind fun _ =>
        (clear_member _).bind fun _ => .pure _
    · exact clear_refuse rfl
  · unfold postLoop
    split
    · exact (clear_branchTowards _ _).bind fun _ => (clear_membersOf _).bind fun _ =>
        (clear_member _).bind fun _ => .pure _
    · exact clear_refuse rfl
  · unfold compound
    split
    · exact .pure _
    · exact clear_refuse rfl
  · exact clear_refuse rfl

end Region

/-! ### Registries -/

namespace Registry

variable {r : Registry} {p : Primitive} {buffers : Table (List Stmt)}

/-- Blocks with labels of their own are all entered. -/
theorem clear_seedFrom (hr : r.Sound) (h : ∀ b ∈ blocks, b.Complete)
    (hlabels : (r.live.map WorkBlock.label ++ blocks.map Block.name).Nodup) :
    Clear (seedFrom scope buffers r blocks) := by
  induction blocks generalizing r with
  | nil => exact .pure _
  | cons b blocks ih =>
    obtain ⟨hb, hblocks⟩ := List.forall_mem_cons.1 h
    refine (Lower.clear_instrs scope hb.known).bind fun stmts => ?_
    have hfree : r.contains b.name = false := by
      rw [Bool.eq_false_iff, ne_eq, hr.contains_iff]
      rintro ⟨w, hw, hname⟩
      refine (List.nodup_append.1 hlabels).2.2 _ (List.mem_map_of_mem hw) _ ?_ hname
      exact List.mem_cons_self
    dsimp only
    rw [insert_of_not_contains hfree]
    show Clear (seedFrom scope buffers (r.enter _).2 blocks)
    refine ih (hr.enter hfree) hblocks ?_
    rw [live_enter]
    simpa [enter, ofNew] using hlabels

theorem clear_seed (h : ∀ b ∈ blocks, b.Complete) (hlabels : (blocks.map Block.name).Nodup) :
    Clear (seed scope buffers blocks) :=
  clear_seedFrom sound_empty h (by simpa [live] using hlabels)

theorem clear_resolveFrom {desc : String} {seen : List String} :
    ∀ {named : List (String × String)} {e : Fault},
      r.resolveFrom desc seen named = .error e → e.isPrevented = false := by
  intro named
  induction named generalizing seen with
  | nil =>
    intro e h
    cases h
  | cons m named ih =>
    intro e h
    rw [resolveFrom] at h
    split at h
    · cases h
      rfl
    · split at h
      · cases h
        rfl
      · cases hrest : r.resolveFrom desc (m.2 :: seen) named with
        | ok ms =>
          rw [hrest] at h
          cases h
        | error f =>
          rw [hrest] at h
          cases h
          exact ih hrest

theorem clear_apply : Clear (r.apply scope p) := by
  have hroles : ∀ e, checkRoles p = .error e → e.isPrevented = false := by
    intro e h
    unfold checkRoles at h
    split at h
    · cases h
      rfl
    · split at h <;> cases h
      rfl
  have hnode : ∀ ms e, r.checkNode p ms = .error e → e.isPrevented = false := by
    intro ms e h
    unfold checkNode at h
    split at h
    · cases h
    · split at h <;> cases h
      rfl
  exact (clear_ofExcept hroles).bind fun _ =>
    (clear_ofExcept fun _ h => clear_resolveFrom h).bind fun ms =>
      (clear_ofExcept (hnode ms)).bind fun _ => Region.clear_build.bind fun _ =>
        (clear_tell _).bind fun _ => .pure _

theorem clear_reduce (ps : List Primitive) : Clear (r.reduce scope ps) := by
  have hall : Clear (r.applyAll scope ps) := by
    induction ps generalizing r with
    | nil => exact .pure _
    | cons p ps ih => exact clear_apply.bind fun x => ih
  refine hall.bind fun r' => clear_ofExcept fun e h => ?_
  unfold survivor at h
  split at h <;> cases h
  rfl

/-- A property of ends that branches have is handed on. -/
theorem handsOn_terminator {E : Option Terminator → Prop} (hnone : E none)
    (hbr : ∀ l, E (some (.br l))) : HandsOn scope (fun b => E b.terminator) := by
  intro r r' p D ms region b happlied hms
  rw [happlied.collapsed.terminator]
  obtain ⟨m, hm, heq⟩ | heq | ⟨l, heq⟩ := happlied.built.vetted.terminator
  · exact heq ▸ hms m hm
  · exact heq ▸ hnone
  · exact heq ▸ hbr l

end Registry

/-! ### Functions -/

/-- Instructions of known kinds have results, unless it is memory that cannot be. -/
theorem Instr.result_error {i : Instr} {a : Abort} (hknown : i.isKnown = true)
    (h : i.result = .error a) : a = .metadataMemory ∨ a = .voidPointer := by
  cases i with
  | unknown => cases hknown
  | alloca dest t count =>
    by_cases hmetadata : t = .metadata
    · subst hmetadata
      cases h
      exact .inl rfl
    · rw [Instr.result] at h
      · split at h <;> cases h
        exact .inr rfl
      · exact hmetadata
  | _ => cases h

namespace Function

variable {f : Function} {globals : List String} {feeds : FeedSource}

theorem clear_varStmts (vars : List (String × Ty)) : Clear (varStmts vars) := by
  induction vars with
  | nil => exact .pure _
  | cons v vars ih => exact (clear_goType v.2).bind fun _ => ih.bind fun _ => .pure _

theorem clear_assemble (params : List String) {b : WorkBlock}
    (hb : ∀ t, b.terminator = some t → t.isKnown = true) :
    Clear (f.assemble scope params b) := by
  have hget : Clear (get : DraftM Draft) := fun _ _ _ h => by cases h
  have hend : Clear (endStmts scope b) := by
    unfold endStmts
    split
    · exact .pure _
    · next t ht => exact Lower.clear_exitStmts scope (hb t ht)
  exact hget.bind fun _ => (clear_varStmts _).bind fun _ => hend.bind fun _ =>
    (clear_ofTypeM (TypeM.clear_goSignature _ _ _ _)).bind fun _ => .pure _

theorem clear_inPhase {α : Type} {x : DraftM α} (function phase : String) (hx : Clear x) :
    Clear (inPhase function phase x) := by
  intro d e d' h
  unfold inPhase at h
  split at h
  · next f d₁ hf =>
    cases h
    rw [Fault.isPrevented_within]
    exact hx _ _ _ hf
  · cases h

theorem Complete.setup_error (h : f.Complete) {a : Abort} (ha : f.setup globals = .error a) :
    (Fault.abort a).isPrevented = false := by
  rcases except_bind_error ha with hresults | ⟨_, -, ha⟩
  · rcases except_bind_error hresults with hmap | ⟨_, -, hresults⟩
    · obtain ⟨i, hi, hresult⟩ := exists_of_mapM_error hmap
      obtain ⟨b, hb, hi⟩ := List.mem_flatMap.1 hi
      rcases Instr.result_error ((h.blocks b hb).known i hi) hresult with rfl | rfl <;> rfl
    · cases hresults
  · cases ha

/-- The phases of a complete function meet no prevented fault, if its feed does not. -/
theorem Complete.clear_decompileM (h : f.Complete) {su : Setup}
    (hfeed : ∀ e, feeds f.name = .error e → e.isPrevented = false) :
    Clear (f.decompileM su feeds) := by
  refine (clear_inPhase _ _ (clear_phiBuffers h.blocks)).bind fun buffers => ?_
  have hseed : Ensures (Registry.seed su.scope buffers f.body) (fun r => r.Sound ∧
      ∀ b ∈ r.live, ∀ t, b.terminator = some t → t.isKnown = true) := by
    intro d d' r hr
    obtain ⟨hsound, hseeded, -⟩ := Registry.seed_ok hr
    refine ⟨hsound, fun w hw t ht => ?_⟩
    obtain ⟨b, hb, hwb⟩ := mem_of_forall₂ hseeded.flip hw
    obtain ⟨t', ht', hknown⟩ := (h.blocks b hb).ends
    rw [hwb.terminator, ht'] at ht
    exact Option.some.inj ht ▸ hknown
  refine (clear_inPhase _ _ (Registry.clear_seed h.blocks h.labels)).bind_ensures
    (Ensures.inPhase _ _ hseed) fun r hr => ?_
  refine (clear_inPhase _ _ (clear_ofExcept hfeed)).bind fun prims => ?_
  have hends : Registry.HandsOn su.scope fun b => ∀ t, b.terminator = some t → t.isKnown = true :=
    Registry.handsOn_terminator (E := fun t => ∀ t', t = some t' → t'.isKnown = true) nofun
      fun l t ht => Option.some.inj ht ▸ rfl
  refine (clear_inPhase _ _ (Registry.clear_reduce prims)).bind_ensures
    (Ensures.inPhase _ _ (hends.reduce hr.1 hr.2)) fun b hb => ?_
  exact (clear_inPhase _ _ (clear_assemble _ hb)).bind fun decl =>
    (clear_tell _).bind fun _ => .pure _

/-- **A complete function has no prevented fault**, whatever its primitives are. -/
theorem Complete.decompile_error (h : f.Complete)
    (hfeed : ∀ e, feeds f.name = .error e → e.isPrevented = false) {e : Fault}
    (he : (f.decompile globals feeds).1 = .error e) : e.isPrevented = false := by
  unfold decompile at he
  split at he
  · split at he
    · cases he
    · next fault r hdecl =>
      cases he
      rw [Fault.isPrevented_within]
      have hclear : Clear f.declaration :=
        (TypeM.clear_goSignature _ _ _ _).bind fun _ => .pure _
      exact hclear _ _ _ hdecl
  · split at he
    · next a ha =>
      cases he
      exact h.setup_error ha
    · split at he
      · cases he
      · next fault d hdecl =>
        cases he
        exact h.clear_decompileM hfeed _ _ _ hdecl

end Function

end GoLift
