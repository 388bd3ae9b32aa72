import GoLift.Proofs.Go.Plain
import GoLift.Proofs.IR.Uses
import GoLift.Proofs.Lower.Steady

/-!
# Lowered code

The lowering of values, instructions and leaving terminators has every property that
`DraftM.Closed` names, step by step along the definitions; above all it is steady. The
statements of instructions are plain, and all statements are contained: no `break` and no
`continue` leads out of them.

The copies out of a block are made with temporaries, so making them only grows
the draft.
-/

set_option autoImplicit false

namespace GoLift

open Go (Expr Stmt)
open DraftM

/-! ### Values -/

namespace DraftM.Closed

variable {C : (α : Type) → DraftM α → Prop} (hC : Closed C)

include hC

theorem floatExpr (x : Double) : C Expr (GoLift.floatExpr x) := by
  cases x with
  | nan => exact hC.seq (hC.useImport _) fun _ => hC.pure _
  | infinity negative => exact hC.seq (hC.useImport _) fun _ => hC.pure _
  | finite negative m e => exact hC.pure _

theorem scalarExpr (type : Ty) (p : Payload) : C Expr (GoLift.scalarExpr type p) := by
  unfold GoLift.scalarExpr
  split
  · exact hC.pure _
  · exact hC.seq (hC.goType _) fun _ => hC.seq (hC.ofAbort _) fun _ => hC.pure _
  · exact hC.seq (hC.ofAbort _) fun x => hC.floatExpr x
  · refine hC.seq (hC.ofAbort _) fun x => ?_
    split
    · exact hC.floatExpr _
    · exact hC.stop _
  · exact hC.stop _
  · exact hC.stop _
  · exact hC.stop _
  · exact hC.refuse _

mutual

theorem lower (scope : Scope) :
    ∀ (v : Value), (∀ name ∈ v.locals, C Expr (localVar name)) → C Expr (v.lower scope)
  | .localRef name _, h => by
      simpa only [Value.lower] using h name (by simp [Value.locals])
  | .globalRef .., _ => by simpa only [Value.lower] using hC.pure _
  | .const type p, h => by
      simpa only [Value.lower] using payload scope type p (by simpa only [Value.locals] using h)

theorem payload (scope : Scope) (type : Ty) :
    ∀ (p : Payload), (∀ name ∈ p.locals, C Expr (localVar name)) → C Expr (p.lower scope type)
  | .ref (.localRef name _), h => by
      simpa only [Payload.lower] using h name (by simp [Payload.locals, Value.locals])
  | .ref (.globalRef ..), _ => by simpa only [Payload.lower] using hC.pure _
  | .ref (.const ..), _ => by simpa only [Payload.lower] using hC.scalarExpr _ _
  | .null, _ | .undef, _ => by simpa only [Payload.lower] using hC.zeroValue type
  | .elements vs, h => by
      unfold Payload.lower
      split
      · refine hC.seq (lowerAll scope vs (by simpa only [Payload.locals] using h)) fun _ => ?_
        exact hC.seq (hC.goType _) fun _ => hC.pure _
      · exact hC.scalarExpr _ _
  | .int _, _ | .float _, _ | .list _, _ => by
      simpa only [Payload.lower] using hC.scalarExpr _ _

theorem lowerAll (scope : Scope) :
    ∀ (vs : List Value), (∀ name ∈ Value.localsOf vs, C Expr (localVar name)) →
      C (List Expr) (Value.lowerAll scope vs)
  | [], _ => by simpa only [Value.lowerAll] using hC.pure _
  | v :: vs, h => by
      simp only [Value.localsOf, List.mem_append] at h
      have hv := lower scope v fun name hname => h name (.inl hname)
      have hvs := lowerAll scope vs fun name hname => h name (.inr hname)
      simpa only [Value.lowerAll] using hC.seq hv fun _ => hC.seq hvs fun _ => hC.pure _

end

theorem exitStmts (scope : Scope) (t : Option Terminator)
    (h : ∀ name ∈ Terminator.reads t, C Expr (localVar name)) :
    C (List Stmt) (Lower.exitStmts scope t) := by
  unfold Lower.exitStmts
  split
  · exact hC.pure _
  · next v =>
    refine hC.seq (hC.lower scope v fun name hname => h name ?_) fun _ => hC.pure _
    simpa [Terminator.reads, Terminator.operands] using hname
  · exact hC.pure _
  · exact hC.refuse _
  · exact hC.refuse _
  · exact hC.refuse _
  · exact hC.refuse _

end DraftM.Closed

/-- **A value is lowered to the same expression ever after.** -/
theorem steady_lower (scope : Scope) (v : Value) : Steady (v.lower scope) :=
  closed_steady.lower scope v fun name _ => steady_localVar name

theorem steady_lowerAll (scope : Scope) (vs : List Value) : Steady (Value.lowerAll scope vs) :=
  closed_steady.lowerAll scope vs fun name _ => steady_localVar name

/-! ### Instructions -/

namespace DraftM.Closed

variable {C : (α : Type) → DraftM α → Prop} (hC : Closed C)
  (hnames : ∀ name, C Expr (localVar name)) (scope : Scope)

include hC hnames

theorem location (elem : Ty) (ptr : Value) : C Expr (ptr.location scope elem) := by
  have hderef : C Expr (do
      let target ← ptr.lower scope
      if (ptr.declaredType scope).isOpaquePtr then
        return Expr.star (.call (.paren (.star (← DraftM.goType elem))) [target])
      else return .star target) := by
    refine hC.seq (hC.lower scope ptr fun name _ => hnames name) fun _ => ?_
    split
    · exact hC.seq (hC.goType _) fun _ => hC.pure _
    · exact hC.pure _
  cases ptr with
  | globalRef name type =>
    unfold Value.location
    simp only
    split
    · exact hC.pure _
    · exact hderef
  | localRef name type => exact hderef
  | const type p => exact hderef

theorem unsignedValue (type : Ty) (v : Value) : C Expr (Lower.unsignedValue scope type v) :=
  hC.seq (hC.goUnsigned _) fun _ =>
    hC.seq (hC.lower scope v fun name _ => hnames name) fun _ => hC.pure _

theorem assignTo (dest : String) (rhs : Expr) : C (List Stmt) (Lower.assignTo dest rhs) :=
  hC.seq (hnames dest) fun _ => hC.pure _

theorem binaryExpr (op : String) (type : Ty) (left right : Value) :
    C Expr (Lower.binaryExpr scope op type left right) := by
  refine hC.seq (hC.lower scope left fun name _ => hnames name) fun l =>
    hC.seq (hC.lower scope right fun name _ => hnames name) fun r => ?_
  split
  · exact hC.pure _
  · exact hC.seq (hC.unsignedValue hnames scope _ _) fun _ =>
      hC.seq (hC.unsignedValue hnames scope _ _) fun _ => hC.seq (hC.goType _) fun _ => hC.pure _
  · split
    · refine hC.seq (hC.useImport _) fun _ => ?_
      dsimp only
      split <;> exact hC.pure _
    · exact hC.refuse _

theorem icmpExpr (pred : String) (type : Ty) (left right : Value) :
    C Expr (Lower.icmpExpr scope pred type left right) := by
  unfold Lower.icmpExpr
  split
  · exact hC.seq (hC.lower scope _ fun name _ => hnames name) fun _ =>
      hC.seq (hC.lower scope _ fun name _ => hnames name) fun _ => hC.pure _
  · exact hC.seq (hC.unsignedValue hnames scope _ _) fun _ =>
      hC.seq (hC.unsignedValue hnames scope _ _) fun _ => hC.pure _
  · exact hC.refuse _

theorem fcmpExpr (pred : String) (left right : Value) :
    C Expr (Lower.fcmpExpr scope pred left right) := by
  refine hC.seq (hC.lower scope left fun name _ => hnames name) fun l =>
    hC.seq (hC.lower scope right fun name _ => hnames name) fun r => ?_
  split
  · exact hC.pure _
  · exact hC.refuse _

omit hnames in
theorem asUnsafePointer (source : Value) (value : Expr) :
    C Expr (Lower.asUnsafePointer scope source value) := by
  refine hC.seq (hC.useImport _) fun _ => ?_
  split <;> exact hC.pure _

omit hnames in
theorem castExpr (op : String) (source : Value) (target : Ty) (value goTarget : Expr) :
    C Expr (Lower.castExpr scope op source target value goTarget) := by
  unfold Lower.castExpr
  split
  · exact hC.seq (hC.goUnsigned _) fun _ => hC.pure _
  · exact hC.seq (hC.goUnsigned _) fun _ => hC.pure _
  · exact hC.seq (hC.goUnsigned _) fun _ => hC.pure _
  · exact hC.pure _
  · exact hC.pure _
  · exact hC.pure _
  · exact hC.pure _
  · exact hC.pure _
  · exact hC.pure _
  · split
    · exact hC.seq (hC.asUnsafePointer scope _ _) fun _ => hC.pure _
    · exact hC.pure _
  · exact hC.seq (hC.asUnsafePointer scope _ _) fun _ => hC.pure _
  · exact hC.seq (hC.useImport _) fun _ => hC.pure _
  · exact hC.refuse _

theorem castStmts (dest op : String) (source : Value) (target : Ty) :
    C (List Stmt) (Lower.castStmts scope dest op source target) := by
  refine hC.seq (hnames dest) fun d =>
    hC.seq (hC.lower scope source fun name _ => hnames name) fun value => ?_
  split
  · exact hC.seq (hC.zeroValue _) fun _ => hC.pure _
  · split
    · exact hC.pure _
    · exact hC.seq (hC.goType _) fun _ =>
        hC.seq (hC.castExpr scope _ _ _ _ _) fun _ => hC.pure _

theorem instr (i : Instr) : C (List Stmt) (Lower.instr scope i) := by
  have hlower (v : Value) : C Expr (v.lower scope) := hC.lower scope v fun name _ => hnames name
  cases i with
  | binary dest op type left right =>
    exact hC.seq (hC.binaryExpr hnames scope _ _ _ _) fun _ => hC.assignTo hnames _ _
  | icmp dest pred type left right =>
    exact hC.seq (hC.icmpExpr hnames scope _ _ _ _) fun _ => hC.assignTo hnames _ _
  | fcmp dest pred type left right =>
    exact hC.seq (hC.fcmpExpr hnames scope _ _ _) fun _ => hC.assignTo hnames _ _
  | alloca dest type count =>
    simp only [Lower.instr]
    split
    · exact hC.seq (hnames dest) fun _ => hC.seq (hC.goType _) fun _ => hC.pure _
    · exact hC.refuse _
  | load dest type ptr =>
    exact hC.seq (hnames dest) fun _ =>
      hC.seq (hC.location hnames scope _ _) fun _ => hC.pure _
  | store type value ptr =>
    exact hC.seq (hC.location hnames scope _ _) fun _ => hC.seq (hlower value) fun _ => hC.pure _
  | cast dest op value target => exact hC.castStmts hnames scope _ _ _ _
  | call dest ret callee args =>
    refine hC.seq (hlower callee) fun _ =>
      hC.seq (hC.lowerAll scope args fun name _ => hnames name) fun _ => ?_
    dsimp only
    split
    · exact hC.assignTo hnames _ _
    · exact hC.pure _
  | select dest cond ifTrue ifFalse =>
    exact hC.seq (hlower cond) fun _ => hC.seq (hnames dest) fun _ =>
      hC.seq (hlower ifTrue) fun _ => hC.seq (hlower ifFalse) fun _ => hC.pure _
  | gep dest source ptr indices => exact hC.refuse _
  | phi dest type incoming => exact hC.pure _
  | unknown kind => exact hC.refuse _

/-- **Lowering instructions does nothing but ask for identifiers and record types.** -/
theorem instrs (is : List Instr) : C (List Stmt) (Lower.instrs scope is) := by
  induction is with
  | nil => exact hC.pure _
  | cons i is ih => exact hC.seq (hC.instr hnames scope i) fun _ => hC.seq ih fun _ => hC.pure _

end DraftM.Closed

namespace Lower

variable (scope : Scope)

theorem steady_instrs (is : List Instr) : Steady (instrs scope is) :=
  closed_steady.instrs steady_localVar scope is

theorem steady_exitStmts (t : Option Terminator) : Steady (exitStmts scope t) :=
  closed_steady.exitStmts scope t fun name _ => steady_localVar name

end Lower

/-! ### Copies -/

theorem grows_directCopies (scope : Scope) : ∀ (cs : List Copy), Grows (directCopies scope cs)
  | [] => .pure _
  | c :: cs =>
    (steady_localVar c.dest).grows.bind fun _ => (steady_lower scope c.value).grows.bind fun _ =>
      (grows_directCopies scope cs).bind fun _ => .pure _

theorem grows_captures (scope : Scope) : ∀ (cs : List Copy), Grows (captures scope cs)
  | [] => .pure _
  | c :: cs =>
    (grows_temporary c.type).bind fun _ => (steady_lower scope c.value).grows.bind fun _ =>
      (grows_captures scope cs).bind fun _ => .pure _

theorem grows_releases : ∀ (cs : List (Copy × String × Stmt)), Grows (releases cs)
  | [] => .pure _
  | (c, _, _) :: cs =>
    (steady_localVar c.dest).grows.bind fun _ => (grows_releases cs).bind fun _ => .pure _

theorem grows_bufferOf (scope : Scope) (label : String) (copies : List Copy) :
    Grows (bufferOf scope label copies) := by
  unfold bufferOf
  split
  · exact (grows_tell _).bind fun _ => (grows_captures scope copies).bind fun _ =>
      (grows_releases _).bind fun _ => .pure _
  · exact grows_directCopies scope copies

theorem grows_buffersOf (scope : Scope) :
    ∀ (cs : List (String × List Copy)), Grows (buffersOf scope cs)
  | [] => .pure _
  | (label, copies) :: rest =>
    (grows_bufferOf scope label copies).bind fun _ => (grows_buffersOf scope rest).bind fun _ =>
      .pure _

theorem grows_phiBuffers (scope : Scope) (blocks : List Block) :
    Grows (phiBuffers scope blocks) := by
  unfold phiBuffers
  split
  · exact grows_throw _
  · exact (grows_buffersOf scope _).bind fun _ => .pure _

/-! ### Plainness and containment -/

namespace Lower

variable (scope : Scope)

theorem plain_assignTo (dest : String) (rhs : Expr) :
    Ensures (assignTo dest rhs) (Stmt.allPlain · = true) :=
  .after fun _ => .pure rfl

theorem plain_instr (i : Instr) : Ensures (instr scope i) (Stmt.allPlain · = true) := by
  cases i with
  | binary dest op type left right => exact .after fun _ => plain_assignTo _ _
  | icmp dest pred type left right => exact .after fun _ => plain_assignTo _ _
  | fcmp dest pred type left right => exact .after fun _ => plain_assignTo _ _
  | alloca dest type count =>
    simp only [instr]
    split
    · exact .after fun _ => .after fun _ => .pure rfl
    · exact .refuse _ _
  | load dest type ptr => exact .after fun _ => .after fun _ => .pure rfl
  | store type value ptr => exact .after fun _ => .after fun _ => .pure rfl
  | cast dest op value target =>
    refine .after fun _ => .after fun _ => ?_
    split
    · exact .after fun _ => .pure rfl
    · split
      · exact .pure rfl
      · exact .after fun _ => .after fun _ => .pure rfl
  | call dest ret callee args =>
    refine .after fun _ => .after fun _ => ?_
    dsimp only
    split
    · exact plain_assignTo _ _
    · exact .pure rfl
  | select dest cond ifTrue ifFalse =>
    exact .after fun _ => .after fun _ => .after fun _ => .after fun _ => .pure rfl
  | gep dest source ptr indices => exact .refuse _ _
  | phi dest type incoming => exact .pure rfl
  | unknown kind => exact .refuse _ _

/-- **Lowered instructions are plain.** -/
theorem plain_instrs (is : List Instr) :
    Ensures (instrs scope is) (Stmt.allPlain · = true) := by
  induction is with
  | nil => exact .pure rfl
  | cons i is ih =>
    exact (plain_instr scope i).bind fun ss hss => ih.bind fun ts hts =>
      .pure (by simp [hss, hts])

/-- No `break` or `continue` leads out of lowered instructions. -/
theorem contained_instrs (is : List Instr) :
    Ensures (instrs scope is) (Stmt.allContained · = true) :=
  fun _ _ _ h => Go.allContained_of_allPlain (plain_instrs scope is _ _ _ h)

theorem contained_exitStmts (t : Option Terminator) :
    Ensures (exitStmts scope t) (Stmt.allContained · = true) := by
  unfold exitStmts
  split
  · exact .pure rfl
  · exact .after fun _ => .pure rfl
  · exact .pure rfl
  · exact .refuse _ _
  · exact .refuse _ _
  · exact .refuse _ _
  · exact .refuse _ _

end Lower

theorem contained_directCopies (scope : Scope) (cs : List Copy) :
    Ensures (directCopies scope cs) (Stmt.allContained · = true) := by
  induction cs with
  | nil => exact .pure rfl
  | cons c cs ih =>
    exact .after fun _ => .after fun _ => ih.bind fun ss hss =>
      .pure (by simpa [Stmt.allContained, Stmt.contained, Stmt.set] using hss)

theorem contained_captures (scope : Scope) (cs : List Copy) :
    Ensures (captures scope cs) (fun captured =>
      Stmt.allContained (captured.map (·.2.2)) = true) := by
  induction cs with
  | nil => exact .pure rfl
  | cons c cs ih =>
    exact .after fun _ => .after fun _ => ih.bind fun ss hss =>
      .pure (by simpa [Stmt.allContained, Stmt.contained, Stmt.set] using hss)

theorem contained_releases (captured : List (Copy × String × Stmt)) :
    Ensures (releases captured) (Stmt.allContained · = true) := by
  induction captured with
  | nil => exact .pure rfl
  | cons c cs ih =>
    exact .after fun _ => ih.bind fun ss hss =>
      .pure (by simpa [Stmt.allContained, Stmt.contained, Stmt.set] using hss)

theorem contained_bufferOf (scope : Scope) (label : String) (copies : List Copy) :
    Ensures (bufferOf scope label copies) (Stmt.allContained · = true) := by
  unfold bufferOf
  split
  · exact .after fun _ => (contained_captures scope copies).bind fun captured hc =>
      (contained_releases captured).bind fun ss hss => .pure (by simp [hc, hss])
  · exact contained_directCopies scope copies

theorem contained_buffersOf (scope : Scope) (cs : List (String × List Copy)) :
    Ensures (buffersOf scope cs) (fun buffers =>
      ∀ e ∈ buffers, Stmt.allContained e.2 = true) := by
  induction cs with
  | nil => exact .pure (by simp)
  | cons c cs ih =>
    exact (contained_bufferOf scope _ _).bind fun buffer hb => ih.bind fun buffers hbs =>
      .pure (by simpa [hb] using hbs)

/-- No `break` or `continue` leads out of the copies of a block. -/
theorem contained_phiBuffers (scope : Scope) (blocks : List Block) :
    Ensures (phiBuffers scope blocks) (fun buffers =>
      ∀ e ∈ buffers.entries, Stmt.allContained e.2 = true) := by
  unfold phiBuffers
  split
  · intro d d' a h
    cases h
  · exact (contained_buffersOf scope _).bind fun buffers hb => .pure hb

end GoLift
