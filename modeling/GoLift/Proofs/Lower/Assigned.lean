import GoLift.Proofs.Go.Parallel
import GoLift.Proofs.Go.Parts
import GoLift.Proofs.Lower.Code
import GoLift.Proofs.Lower.Emits

/-!
# What code assigns

`Stmt.assignsIn` lists the variables that statements assign, also in the statements in them.
An instruction assigns the variable of its result and no other, **unless it is a store to a
global variable**, which is its own storage: there is no pointer to write through, so the global
variable itself is assigned (`Lower.lasts_instr`). Any other store assigns memory.
-/

set_option autoImplicit false

namespace GoLift

namespace Go

/-- The variable that an assignment to an expression assigns, in whole or in part. What a pointer
leads to is no variable. -/
def Expr.assigned? : Expr → Option String
  | .ident name => some name
  | .paren x | .selector x _ => x.assigned?
  | _ => none

mutual

/-- The variables that a statement assigns, also in the statements in it. -/
def Stmt.assigns : Stmt → List String
  | .assign lhs _ _ => lhs.filterMap Expr.assigned?
  | .block body => Stmt.assignsIn body
  | .ifElse _ body orElse => Stmt.assignsIn body ++ Stmt.elseAssigns orElse
  | .loop _ body => Stmt.assignsIn body
  | .expr _ | .branch _ | .ret _ | .decl _ | .foreign _ => []

/-- The variables that a list of statements assigns. -/
def Stmt.assignsIn : List Stmt → List String
  | [] => []
  | s :: ss => s.assigns ++ Stmt.assignsIn ss

/-- The variables that an else-branch assigns. -/
def Stmt.elseAssigns : Option Stmt → List String
  | none => []
  | some s => s.assigns

end

/-- Statements assign no other variables than some. -/
def AssignsOnly (X : String → Prop) (ss : List Stmt) : Prop :=
  ∀ x ∈ Stmt.assignsIn ss, X x

section

variable {X Y : String → Prop} {x : String} {e cond : Expr} {s : Stmt} {ss ts : List Stmt}

theorem AssignsOnly.imp (h : AssignsOnly X ss) (hXY : ∀ x, X x → Y x) : AssignsOnly Y ss :=
  fun x hx => hXY x (h x hx)

@[simp] theorem assignsOnly_nil : AssignsOnly X [] := by
  intro x hx
  cases hx

theorem assignsOnly_cons :
    AssignsOnly X (s :: ss) ↔ (∀ x ∈ s.assigns, X x) ∧ AssignsOnly X ss :=
  List.forall_mem_append

@[simp] theorem assignsOnly_append :
    AssignsOnly X (ss ++ ts) ↔ AssignsOnly X ss ∧ AssignsOnly X ts := by
  induction ss with
  | nil => simp
  | cons s ss ih => simp only [List.cons_append, assignsOnly_cons, ih, and_assoc]

@[simp] theorem assignsOnly_set :
    AssignsOnly X (.set (.ident x) e :: ss) ↔ X x ∧ AssignsOnly X ss := by
  simp [assignsOnly_cons, Stmt.set, Stmt.assigns, Expr.assigned?]

@[simp] theorem assignsOnly_star {y : Expr} :
    AssignsOnly X (.set (.star y) e :: ss) ↔ AssignsOnly X ss := by
  simp [assignsOnly_cons, Stmt.set, Stmt.assigns, Expr.assigned?]

@[simp] theorem assignsOnly_expr : AssignsOnly X (.expr e :: ss) ↔ AssignsOnly X ss := by
  simp [assignsOnly_cons, Stmt.assigns]

@[simp] theorem assignsOnly_branch {tok : String} :
    AssignsOnly X (.branch tok :: ss) ↔ AssignsOnly X ss := by
  simp [assignsOnly_cons, Stmt.assigns]

@[simp] theorem assignsOnly_ret {es : List Expr} :
    AssignsOnly X (.ret es :: ss) ↔ AssignsOnly X ss := by
  simp [assignsOnly_cons, Stmt.assigns]

@[simp] theorem assignsOnly_ifThen :
    AssignsOnly X (.ifElse cond ss none :: ts) ↔ AssignsOnly X ss ∧ AssignsOnly X ts := by
  simp only [assignsOnly_cons, Stmt.assigns, Stmt.elseAssigns, List.append_nil]
  rfl

@[simp] theorem assignsOnly_ifElse {ss' : List Stmt} :
    AssignsOnly X (.ifElse cond ss (some (.block ss')) :: ts) ↔
      (AssignsOnly X ss ∧ AssignsOnly X ss') ∧ AssignsOnly X ts := by
  simp only [assignsOnly_cons, Stmt.assigns, Stmt.elseAssigns, List.forall_mem_append]
  rfl

@[simp] theorem assignsOnly_loop {test : Option Expr} :
    AssignsOnly X (.loop test ss :: ts) ↔ AssignsOnly X ss ∧ AssignsOnly X ts :=
  assignsOnly_cons

/-- Assignments assign their destinations. -/
theorem assignsOnly_sets {as : List (String × Expr)} :
    AssignsOnly X (sets as) ↔ ∀ a ∈ as, X a.1 := by
  induction as with
  | nil => simp [sets]
  | cons a as ih => simpa [sets] using fun _ => ih

end

end Go

open Go (Expr Stmt AssignsOnly)
open DraftM

variable {scope : Scope} {P : Draft → Prop}

/-! ### Results that stay what they are -/

instance : IsPreorder Draft (· ≤ ·) where
  refl := le_refl
  trans _ _ _ := le_trans

/-- What a step gives, has a property in every draft that has grown since. -/
abbrev DraftM.Lasts {α : Type} (P : Draft → Prop) (x : DraftM α) (Q : Draft → α → Prop) : Prop :=
  Emits (· ≤ ·) P x Q

theorem DraftM.Grows.lasts {α : Type} {x : DraftM α} (h : Grows x) :
    Lasts P x (fun _ _ => True) where
  grows := h.apply
  holds _ _ _ := trivial

theorem lasts_localVar (raw : String) :
    Lasts P (localVar raw) (fun D e => ∃ x, D.names.local? raw = some x ∧ e = .ident x) where
  grows := (steady_localVar raw).grows.apply
  holds h hD _ := gives_localVar ((Gives.of_apply h).mono hD)

theorem lasts_lower (v : Value) : Lasts P (v.lower scope) (fun _ _ => True) :=
  (steady_lower scope v).grows.lasts

theorem lasts_goType (t : Ty) : Lasts P (DraftM.goType t) (fun _ _ => True) :=
  (steady_goType t).grows.lasts

/-- Where a value is stored, is a global variable or what a pointer leads to. -/
theorem lasts_location (elem : Ty) (ptr : Value) :
    Lasts P (ptr.location scope elem) (fun _ e => (∃ g type, ptr = .globalRef g type ∧
      scope.globals.contains g = true ∧ e = .ident (goName g)) ∨ ∃ y, e = .star y) := by
  have hderef : Lasts P (do
      let target ← ptr.lower scope
      if (ptr.declaredType scope).isOpaquePtr then
        return Expr.star (.call (.paren (.star (← DraftM.goType elem))) [target])
      else return .star target) (fun _ e => (∃ g type, ptr = .globalRef g type ∧
        scope.globals.contains g = true ∧ e = .ident (goName g)) ∨ ∃ y, e = .star y) := by
    refine (lasts_lower ptr).after fun _ => ?_
    split
    · exact (lasts_goType elem).after fun _ => .pure fun _ _ => .inr ⟨_, rfl⟩
    · exact .pure fun _ _ => .inr ⟨_, rfl⟩
  cases ptr with
  | globalRef name type =>
    unfold Value.location
    simp only
    split
    · next hin => exact .pure fun _ _ => .inl ⟨name, type, rfl, hin, rfl⟩
    · exact hderef
  | localRef name type => exact hderef
  | const type p => exact hderef

/-! ### Instructions -/

/-- The global variable that an instruction stores to, if it does. -/
def Instr.storedTo? (globals : List String) : Instr → Option String
  | .store _ _ (.globalRef name _) => if globals.contains name then some name else none
  | _ => none

/-- What an instruction may assign: the variable of its result, or a global variable that it
stores to. -/
def Instr.MayAssign (scope : Scope) (D : Draft) (i : Instr) (x : String) : Prop :=
  (∃ raw, i.dest? = some raw ∧ D.names.local? raw = some x) ∨
    ∃ g, i.storedTo? scope.globals = some g ∧ x = goName g

namespace Lower

/-- Statements assign the variable of a binding only. -/
abbrev SetsOnly (dest : String) (D : Draft) (ss : List Stmt) : Prop :=
  AssignsOnly (fun x => D.names.local? dest = some x) ss

theorem lasts_assignTo (dest : String) (rhs : Expr) :
    Lasts P (assignTo dest rhs) (SetsOnly dest) := by
  refine (lasts_localVar dest).bind fun e => .pure fun D hD => ?_
  obtain ⟨-, x, hx, rfl⟩ := hD
  simpa [SetsOnly] using hx

theorem lasts_castStmts (dest op : String) (source : Value) (target : Ty) :
    Lasts P (castStmts scope dest op source target) (SetsOnly dest) := by
  refine (lasts_localVar dest).bind fun e => (lasts_lower source).after fun value => ?_
  split
  · refine (steady_zeroValue target).grows.lasts.after fun _ => .pure fun D hD => ?_
    obtain ⟨-, x, hx, rfl⟩ := hD
    simpa [SetsOnly] using hx
  · split
    · refine .pure fun D hD => ?_
      obtain ⟨-, x, hx, rfl⟩ := hD
      simpa [SetsOnly] using hx
    · refine (lasts_goType target).after fun _ =>
        (closed_steady.castExpr scope _ _ _ _ _).grows.lasts.after fun _ => .pure fun D hD => ?_
      obtain ⟨-, x, hx, rfl⟩ := hD
      simpa [SetsOnly] using hx

/-- **An instruction assigns the variable of its result, or a global variable that it stores
to**, and nothing else. -/
theorem lasts_instr (i : Instr) :
    Lasts P (instr scope i) (fun D => AssignsOnly (i.MayAssign scope D)) := by
  -- Most instructions assign their results only.
  have hdest {dest : String} (hi : i.dest? = some dest) {x : DraftM (List Stmt)}
      (h : Lasts P x (SetsOnly dest)) : Lasts P x (fun D => AssignsOnly (i.MayAssign scope D)) :=
    h.imp fun D ss _ hss => hss.imp fun x hx => .inl ⟨dest, hi, hx⟩
  cases i with
  | binary dest op type left right =>
    exact hdest rfl ((closed_steady.binaryExpr steady_localVar scope _ _ _ _).grows.lasts.after
      fun _ => lasts_assignTo _ _)
  | icmp dest pred type left right =>
    exact hdest rfl ((closed_steady.icmpExpr steady_localVar scope _ _ _ _).grows.lasts.after
      fun _ => lasts_assignTo _ _)
  | fcmp dest pred type left right =>
    exact hdest rfl ((closed_steady.fcmpExpr steady_localVar scope _ _ _).grows.lasts.after
      fun _ => lasts_assignTo _ _)
  | alloca dest type count =>
    simp only [instr]
    split
    · refine hdest rfl ((lasts_localVar dest).bind fun e => (lasts_goType type).after fun _ =>
        .pure fun D hD => ?_)
      obtain ⟨-, x, hx, rfl⟩ := hD
      simpa [SetsOnly] using hx
    · exact .refuse
  | load dest type ptr =>
    refine hdest rfl ((lasts_localVar dest).bind fun e => (lasts_location type ptr).after fun _ =>
      .pure fun D hD => ?_)
    obtain ⟨-, x, hx, rfl⟩ := hD
    simpa [SetsOnly] using hx
  | store type value ptr =>
    refine (lasts_location type ptr).bind fun place => (lasts_lower value).after fun _ =>
      .pure fun D hD => ?_
    obtain ⟨-, ⟨g, t, rfl, hin, rfl⟩ | ⟨y, rfl⟩⟩ := hD
    · have hg : g ∈ scope.globals := by simpa using hin
      simp [Instr.MayAssign, Instr.storedTo?, hg]
    · simp
  | cast dest op value target => exact hdest rfl (lasts_castStmts _ _ _ _)
  | call dest ret callee args =>
    refine (lasts_lower callee).after fun _ =>
      (steady_lowerAll scope args).grows.lasts.after fun _ => ?_
    dsimp only
    split
    · exact hdest rfl (lasts_assignTo _ _)
    · exact .pure fun D _ => by simp
  | select dest cond ifTrue ifFalse =>
    refine hdest rfl ((lasts_lower cond).after fun _ => (lasts_localVar dest).bind fun e =>
      (lasts_lower ifTrue).after fun _ => (lasts_lower ifFalse).after fun _ => .pure fun D hD => ?_)
    obtain ⟨-, x, hx, rfl⟩ := hD
    simpa [SetsOnly] using hx
  | gep => exact .refuse
  | phi => exact .pure fun _ _ => Go.assignsOnly_nil
  | unknown => exact .refuse

/-- Instructions assign what one of them does. -/
theorem lasts_instrs (is : List Instr) :
    Lasts P (instrs scope is) (fun D => AssignsOnly fun x => ∃ i ∈ is, i.MayAssign scope D x) := by
  induction is generalizing P with
  | nil => exact .pure fun _ _ => Go.assignsOnly_nil
  | cons i is ih =>
    refine (lasts_instr i).bind fun ss => ih.bind fun ts => .pure fun D hD => ?_
    obtain ⟨⟨-, hss⟩, hts⟩ := hD
    refine Go.assignsOnly_append.2 ⟨hss.imp fun x hx => ?_, hts.imp fun x hx => ?_⟩
    · exact ⟨i, List.mem_cons_self, hx⟩
    · obtain ⟨i', hi', hx⟩ := hx
      exact ⟨i', List.mem_cons_of_mem _ hi', hx⟩

/-- The statement with which control leaves, assigns nothing. -/
theorem assignsOnly_exitStmts {X : String → Prop} (t : Option Terminator) :
    Ensures (exitStmts scope t) (AssignsOnly X) := by
  unfold exitStmts
  split
  · exact .pure (by simp)
  · exact .after fun _ => .pure (by simp)
  · exact .pure (by simp)
  · exact .refuse _ _
  · exact .refuse _ _
  · exact .refuse _ _
  · exact .refuse _ _

end Lower

end GoLift
