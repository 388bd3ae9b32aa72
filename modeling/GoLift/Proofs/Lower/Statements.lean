import GoLift.Phi
import GoLift.Proofs.IR.Uses
import GoLift.Proofs.Lower.Emits

/-!
# Statements emit the forms

The lowering of instructions, of the statements with which control leaves, and of phi copies, step
by step along the definitions. Which functions and global variables may be named is what the
instruction, the terminator or the copy mentions (`Instr.mentions` and the others).
-/

set_option autoImplicit false

namespace GoLift

open Go (Expr Stmt)
open Draft (Extends IsValue IsType AreStmts)
open DraftM

/-! ### What is mentioned -/

/-- The functions and global variables that an instruction mentions. -/
def Instr.mentions : Instr → List String
  | .phi _ _ incoming => incoming.flatMap (·.2.globals)
  | i => i.operands.flatMap Value.globals

/-- The functions and global variables that the end of a block mentions, if it has one. -/
def Terminator.mentions (t : Option Terminator) : List String :=
  ((t.map Terminator.operands).getD []).flatMap Value.globals

/-- The functions and global variables that a block mentions. -/
def Block.mentions (b : Block) : List String :=
  b.instrs.flatMap Instr.mentions ++ Terminator.mentions b.terminator

/-- The functions and global variables that a function mentions. -/
def Function.mentions (f : Function) : List String :=
  f.body.flatMap Block.mentions

/-- An assignment is a statement. -/
theorem StmtForm.set {V : String → Prop} {r : Records} {lhs rhs : Expr} (hl : ValueForm V r lhs)
    (hr : ValueForm V r rhs) : StmtForm V r (.set lhs rhs) :=
  .assign (by simpa using hl) (by simpa using hr)

variable {refs : List String} {P : Draft → Prop} {scope : Scope}

namespace Lower

/-! ### Binary operations and comparisons -/

theorem emits_unsignedValue (type : Ty) {v : Value} (h : v.globals ⊆ refs) :
    Emits Extends P (unsignedValue scope type v) (IsValue refs) :=
  (emits_goUnsigned _).bind fun _ => (emits_lower scope v h).bind fun _ => .pure fun _ hD =>
    .convert hD.1.2 hD.2

theorem emits_assignTo (dest : String) {rhs : Expr} (h : ∀ D, P D → IsValue refs D rhs) :
    Emits Extends P (assignTo dest rhs) (AreStmts refs) := by
  exact (emits_localVar refs dest).bind fun x => .pure fun D hD => .single (.set hD.2 (h D hD.1))

theorem emits_binaryExpr (op : String) (type : Ty) {left right : Value}
    (hl : left.globals ⊆ refs) (hr : right.globals ⊆ refs) :
    Emits Extends P (binaryExpr scope op type left right) (IsValue refs) := by
  refine (emits_lower scope left hl).bind fun l => (emits_lower scope right hr).bind fun r => ?_
  split
  · exact .pure fun D hD => .binary hD.1.2 hD.2
  · exact (emits_unsignedValue type hl).bind fun _ => (emits_unsignedValue type hr).bind fun _ =>
      (emits_goType type).bind fun _ => .pure fun D hD => .convert hD.2 (.binary hD.1.1.2 hD.1.2)
  · split
    · refine (emits_useImport "math").bind fun _ => ?_
      dsimp only
      split
      · refine .pure fun D hD => .convert (.word (by decide)) (.math hD.2 ?_)
        simpa using ⟨ValueForm.convert (.word (by decide)) hD.1.1.2,
          ValueForm.convert (.word (by decide)) hD.1.2⟩
      · refine .pure fun D hD => .math hD.2 ?_
        simpa using ⟨hD.1.1.2, hD.1.2⟩
    · exact .refuse

theorem emits_icmpExpr (pred : String) (type : Ty) {left right : Value}
    (hl : left.globals ⊆ refs) (hr : right.globals ⊆ refs) :
    Emits Extends P (icmpExpr scope pred type left right) (IsValue refs) := by
  unfold icmpExpr
  split
  · exact (emits_lower scope left hl).bind fun _ => (emits_lower scope right hr).bind fun _ =>
      .pure fun D hD => .binary hD.1.2 hD.2
  · exact (emits_unsignedValue type hl).bind fun _ => (emits_unsignedValue type hr).bind fun _ =>
      .pure fun D hD => .binary hD.1.2 hD.2
  · exact .refuse

theorem fcmpOf_form {V : String → Prop} {r : Records} {pred : String} {x y e : Expr}
    (hx : ValueForm V r x) (hy : ValueForm V r y) (h : fcmpOf pred x y = some e) :
    ValueForm V r e := by
  have hcompare (op : Go.BinaryOp) : ValueForm V r (.binary x op y) := .binary hx hy
  have hdiffer : ValueForm V r (.binary (.binary x .lt y) .lor (.binary x .gt y)) :=
    .binary (hcompare _) (hcompare _)
  unfold fcmpOf at h
  split at h
  · cases h
    exact hcompare _
  · cases h
    exact (hcompare _).negate
  · split at h <;> cases h
    · exact hcompare _
    · exact hdiffer
    · exact hdiffer.negate
    · exact .binary (.binary hx hx) (.binary hy hy)
    · exact .binary (.binary hx hx) (.binary hy hy)

theorem emits_fcmpExpr (pred : String) {left right : Value} (hl : left.globals ⊆ refs)
    (hr : right.globals ⊆ refs) :
    Emits Extends P (fcmpExpr scope pred left right) (IsValue refs) := by
  refine (emits_lower scope left hl).bind fun l => (emits_lower scope right hr).bind fun r => ?_
  split
  · next e he => exact .pure fun D hD => fcmpOf_form hD.1.2 hD.2 he
  · exact .refuse

/-! ### Casts -/

theorem emits_asUnsafePointer (source : Value) {x : Expr} (h : ∀ D, P D → IsValue refs D x) :
    Emits Extends P (asUnsafePointer scope source x) (IsValue refs) := by
  refine (emits_useImport "unsafe").bind fun _ => ?_
  split
  · exact .pure fun D hD => h D hD.1
  · exact .pure fun D hD => .convert (.unsafePointer hD.2) (h D hD.1)

theorem emits_castExpr (op : String) (source : Value) (target : Ty) {x t : Expr}
    (hx : ∀ D, P D → IsValue refs D x) (ht : ∀ D, P D → IsType D t) :
    Emits Extends P (castExpr scope op source target x t) (IsValue refs) := by
  have hplain : Emits Extends P (pure (convert t x)) (IsValue refs) :=
    .pure fun D hD => .convert (ht D hD) (hx D hD)
  have hunsigned (type : Ty) : Emits Extends P (do
      let u ← DraftM.goUnsigned type
      return convert t (convert u x)) (IsValue refs) :=
    (emits_goUnsigned type).bind fun _ => .pure fun D hD =>
      .convert (ht D hD.1) (.convert hD.2 (hx D hD.1))
  unfold castExpr
  split
  · exact hunsigned _
  · exact hunsigned _
  · exact hunsigned _
  · exact hplain
  · exact hplain
  · exact hplain
  · exact hplain
  · exact hplain
  · exact hplain
  · split
    · exact (emits_asUnsafePointer source hx).bind fun _ => .pure fun D hD =>
        .convert (ht D hD.1) hD.2
    · exact hplain
  · exact (emits_asUnsafePointer source hx).bind fun _ => .pure fun D hD =>
      .convert (ht D hD.1) (.convert (.word (by decide)) hD.2)
  · refine (emits_useImport "unsafe").bind fun _ => .pure fun D hD => ?_
    have hp : IsValue refs D (convert unsafePointer (callNamed "uintptr" [x])) :=
      .convert (.unsafePointer hD.2) (.convert (.word (by decide)) (hx D hD.1))
    split
    · exact hp
    · exact .convert (ht D hD.1) hp
  · exact .refuse

theorem boolCastUnit?_form {V : String → Prop} {r : Records} {op : String} {unit : Expr}
    (h : boolCastUnit? op = some unit) : ValueForm V r unit := by
  unfold boolCastUnit? at h
  split at h <;> cases h <;> exact .lit

theorem emits_castStmts (dest op : String) {source : Value} (target : Ty)
    (h : source.globals ⊆ refs) :
    Emits Extends P (castStmts scope dest op source target) (AreStmts refs) := by
  refine (emits_localVar refs dest).bind fun d =>
    (emits_lower scope source h).bind fun x => ?_
  split
  · next unit hunit _ =>
    refine (emits_zeroValue refs target).bind fun zero => .pure fun D hD => ?_
    have hset : AreStmts refs D [.set d unit] := .single (.set hD.1.1.2 (boolCastUnit?_form hunit))
    exact .cons (.set hD.1.1.2 hD.2) (.single (.ifElse hD.1.2 hset (by simp)))
  · split
    · exact .pure fun D hD =>
        .single (.set hD.1.2 (.binary (.paren (.binary hD.2 .lit)) .lit))
    · exact (emits_goType target).bind fun t =>
        (emits_castExpr op source target (fun D hD => hD.1.2) (fun D hD => hD.2)).bind fun e =>
          .pure fun D hD => .single (.set hD.1.1.1.2 hD.2)

/-! ### Instructions -/

/-- **An instruction is lowered to statements.** -/
theorem emits_instr {i : Instr} (h : i.mentions ⊆ refs) :
    Emits Extends P (instr scope i) (AreStmts refs) := by
  cases i with
  | binary dest op type left right =>
    obtain ⟨hl, hr⟩ : left.globals ⊆ refs ∧ right.globals ⊆ refs := by
      simpa [Instr.mentions, Instr.operands] using h
    exact (emits_binaryExpr op type hl hr).bind fun _ => emits_assignTo dest fun D hD => hD.2
  | icmp dest pred type left right =>
    obtain ⟨hl, hr⟩ : left.globals ⊆ refs ∧ right.globals ⊆ refs := by
      simpa [Instr.mentions, Instr.operands] using h
    exact (emits_icmpExpr pred type hl hr).bind fun _ => emits_assignTo dest fun D hD => hD.2
  | fcmp dest pred type left right =>
    obtain ⟨hl, hr⟩ : left.globals ⊆ refs ∧ right.globals ⊆ refs := by
      simpa [Instr.mentions, Instr.operands] using h
    exact (emits_fcmpExpr pred hl hr).bind fun _ => emits_assignTo dest fun D hD => hD.2
  | alloca dest type count =>
    simp only [instr]
    split
    · exact (emits_localVar refs dest).bind fun _ => (emits_goType type).bind fun _ =>
        .pure fun D hD => .single (.set hD.1.2 (.new hD.2))
    · exact .refuse
  | load dest type ptr =>
    have hp : ptr.globals ⊆ refs := by simpa [Instr.mentions, Instr.operands] using h
    exact (emits_localVar refs dest).bind fun _ =>
      (emits_location scope type ptr hp).bind fun _ => .pure fun D hD =>
        .single (.set hD.1.2 hD.2)
  | store type value ptr =>
    obtain ⟨hv, hp⟩ : value.globals ⊆ refs ∧ ptr.globals ⊆ refs := by
      simpa [Instr.mentions, Instr.operands] using h
    exact (emits_location scope type ptr hp).bind fun _ => (emits_lower scope value hv).bind fun _ =>
      .pure fun D hD => .single (.set hD.1.2 hD.2)
  | cast dest op value target =>
    exact emits_castStmts dest op target (by simpa [Instr.mentions, Instr.operands] using h)
  | call dest ret callee args =>
    obtain ⟨hc, ha⟩ : callee.globals ⊆ refs ∧ args.flatMap Value.globals ⊆ refs := by
      simpa [Instr.mentions, Instr.operands] using h
    have hargs : Value.globalsOf args ⊆ refs := by
      intro g hg
      exact ha (List.mem_flatMap.2 (mem_globalsOf.1 hg))
    refine (emits_lower scope callee hc).bind fun _ => (emits_lowerAll scope args hargs).bind
      fun _ => ?_
    dsimp only
    split
    · exact emits_assignTo _ fun D hD => .call hD.1.2 hD.2
    · exact .pure fun D hD => .single (.expr (.call hD.1.2 hD.2))
  | select dest cond ifTrue ifFalse =>
    obtain ⟨hc, ht, hf⟩ : cond.globals ⊆ refs ∧ ifTrue.globals ⊆ refs ∧ ifFalse.globals ⊆ refs := by
      simpa [Instr.mentions, Instr.operands] using h
    refine (emits_lower scope cond hc).bind fun _ => (emits_localVar refs dest).bind
      fun _ => (emits_lower scope ifTrue ht).bind fun _ => (emits_lower scope ifFalse hf).bind
        fun _ => .pure fun D hD => ?_
    have hset {x : Expr} (hx : IsValue refs D x) : AreStmts refs D [.set _ x] :=
      .single (.set hD.1.1.2 hx)
    refine .single (.ifElse hD.1.1.1.2 (hset hD.1.2) fun s hs => ?_)
    cases hs
    exact .block (hset hD.2)
  | gep => exact .refuse
  | phi => exact .pure fun _ _ => .nil
  | unknown => exact .refuse

theorem emits_instrs {is : List Instr} (h : is.flatMap Instr.mentions ⊆ refs) :
    Emits Extends P (instrs scope is) (AreStmts refs) := by
  induction is generalizing P with
  | nil => exact .pure fun _ _ => .nil
  | cons i is ih =>
    obtain ⟨hi, his⟩ : i.mentions ⊆ refs ∧ is.flatMap Instr.mentions ⊆ refs := by
      simpa [List.flatMap_cons] using h
    exact (emits_instr hi).bind fun _ => (ih his).bind fun _ => .pure fun D hD => hD.1.2.append hD.2

/-! ### Terminators -/

theorem emits_exitStmts {t : Option Terminator} (h : Terminator.mentions t ⊆ refs) :
    Emits Extends P (exitStmts scope t) (AreStmts refs) := by
  unfold exitStmts
  split
  · exact .pure fun _ _ => .single (.ret (by simp))
  · next v =>
    refine (emits_lower scope v (by simpa [Terminator.mentions, Terminator.operands] using h)).bind
      fun _ => .pure fun D hD => .single (.ret ?_)
    simpa using hD.2
  · exact .pure fun _ _ => .single (.expr (.panic .lit))
  · exact .refuse
  · exact .refuse
  · exact .refuse
  · exact .refuse

end Lower

/-! ### Phi copies -/

/-- The functions and global variables that copies mention. -/
def Copy.mentionsOf (copies : List Copy) : List String :=
  copies.flatMap (·.value.globals)

theorem emits_directCopies {copies : List Copy} (h : Copy.mentionsOf copies ⊆ refs) :
    Emits Extends P (directCopies scope copies) (AreStmts refs) := by
  induction copies generalizing P with
  | nil => exact .pure fun _ _ => .nil
  | cons c cs ih =>
    obtain ⟨hc, hcs⟩ : c.value.globals ⊆ refs ∧ Copy.mentionsOf cs ⊆ refs := by
      simpa [Copy.mentionsOf] using h
    exact (emits_localVar refs c.dest).bind fun _ => (emits_lower scope c.value hc).bind
      fun _ => (ih hcs).bind fun _ => .pure fun D hD => .cons (.set hD.1.1.2 hD.1.2) hD.2

/-- Values are captured in variables of the draft. -/
def Draft.Captured (refs : List String) (D : Draft) (cs : List (Copy × String × Stmt)) : Prop :=
  ∀ c ∈ cs, IsValue refs D (.ident c.2.1) ∧ StmtForm (D.Values refs) D.records c.2.2

theorem emits_captures {copies : List Copy} (h : Copy.mentionsOf copies ⊆ refs) :
    Emits Extends P (captures scope copies) (Draft.Captured refs) := by
  induction copies generalizing P with
  | nil => exact .pure fun _ _ => by simp [Draft.Captured]
  | cons c cs ih =>
    obtain ⟨hc, hcs⟩ : c.value.globals ⊆ refs ∧ Copy.mentionsOf cs ⊆ refs := by
      simpa [Copy.mentionsOf] using h
    refine (emits_temporary c.type).bind fun tmp => (emits_lower scope c.value hc).bind
      fun _ => (ih hcs).bind fun _ => .pure fun D hD => ?_
    -- The temporary is a variable to declare, so it may be named.
    have htmp : IsValue refs D (.ident tmp) :=
      .name (.inr (.inl (List.mem_map_of_mem hD.1.1.2)))
    exact List.forall_mem_cons.2 ⟨⟨htmp, .set htmp hD.1.2⟩, hD.2⟩

theorem emits_releases {cs : List (Copy × String × Stmt)}
    (h : ∀ D, P D → Draft.Captured refs D cs) :
    Emits Extends P (releases cs) (AreStmts refs) := by
  induction cs generalizing P with
  | nil => exact .pure fun _ _ => .nil
  | cons c cs ih =>
    obtain ⟨copy, tmp, s⟩ := c
    exact (emits_localVar refs copy.dest).bind fun _ =>
      (ih fun D hD => (List.forall_mem_cons.1 (h D hD.1)).2).bind fun _ => .pure fun D hD =>
        .cons (.set hD.1.2 (List.forall_mem_cons.1 (h D hD.1.1)).1.1) hD.2

theorem emits_bufferOf (label : String) {copies : List Copy} (h : Copy.mentionsOf copies ⊆ refs) :
    Emits Extends P (bufferOf scope label copies) (AreStmts refs) := by
  unfold bufferOf
  split
  · refine (emits_tell _).after fun _ => (emits_captures h).bind fun cs =>
      (emits_releases fun D hD => hD.2).bind fun _ => .pure fun D hD => .append ?_ hD.2
    intro s hs
    obtain ⟨c, hc, rfl⟩ := List.mem_map.1 hs
    exact (hD.1.2 c hc).2
  · exact emits_directCopies h

/-- The buffers of blocks are code. -/
abbrev Draft.AreBuffers (refs : List String) (D : Draft) (bs : List (String × List Stmt)) : Prop :=
  ∀ b ∈ bs, AreStmts refs D b.2

theorem emits_buffersOf {entries : List (String × List Copy)}
    (h : ∀ e ∈ entries, Copy.mentionsOf e.2 ⊆ refs) :
    Emits Extends P (buffersOf scope entries) (Draft.AreBuffers refs) := by
  induction entries generalizing P with
  | nil => exact .pure fun _ _ => by simp [Draft.AreBuffers]
  | cons e entries ih =>
    obtain ⟨he, hes⟩ := List.forall_mem_cons.1 h
    refine (emits_bufferOf e.1 he).bind fun _ => (ih hes).bind fun _ => .pure fun D hD => ?_
    exact List.forall_mem_cons.2 ⟨hD.1.2, hD.2⟩

/-- A copy is made of the value of a phi for the edge. -/
theorem mem_copiesFrom {blocks : List Block} {preds : Table (List String)} {pred : String}
    {c : Copy} (h : c ∈ copiesFrom blocks preds pred) :
    ∃ b ∈ blocks, ∃ φ ∈ b.phis, ∃ p, (p, c.value) ∈ φ.incoming := by
  obtain ⟨b, hb, h⟩ := List.mem_flatMap.1 h
  obtain ⟨φ, hφ, h⟩ := List.mem_flatMap.1 h
  obtain ⟨p, -, h⟩ := List.mem_filterMap.1 h
  obtain ⟨v, hv, rfl⟩ := Option.map_eq_some_iff.1 h
  obtain ⟨l₁, l₂, hsplit, -⟩ := List.lookup_eq_some_iff.1 hv
  exact ⟨b, hb, φ, hφ, p, by simp [hsplit]⟩

theorem mentions_copiesFrom (blocks : List Block) (preds : Table (List String)) (pred : String) :
    Copy.mentionsOf (copiesFrom blocks preds pred) ⊆ blocks.flatMap Block.mentions := by
  intro g hg
  obtain ⟨c, hc, hg⟩ := List.mem_flatMap.1 hg
  obtain ⟨b, hb, φ, hφ, p, hin⟩ := mem_copiesFrom hc
  obtain ⟨i, hi, hiφ⟩ := List.mem_filterMap.1 hφ
  refine List.mem_flatMap.2 ⟨b, hb, List.mem_append_left _ (List.mem_flatMap.2 ⟨i, hi, ?_⟩)⟩
  cases i with
  | phi dest type incoming =>
    cases hiφ
    exact List.mem_flatMap.2 ⟨_, hin, hg⟩
  | _ => cases hiφ

/-- **Phi copies are statements.** -/
theorem emits_phiBuffers {blocks : List Block} (h : blocks.flatMap Block.mentions ⊆ refs) :
    Emits Extends P (phiBuffers scope blocks) (fun D t => Draft.AreBuffers refs D t.entries) := by
  unfold phiBuffers
  split
  · exact .refuse
  · next copies hcopies =>
    obtain ⟨preds, -, hcopies⟩ := except_bind_ok hcopies
    obtain ⟨u, -, hcopies⟩ := except_bind_ok hcopies
    cases hcopies
    refine (emits_buffersOf fun e he => ?_).bind fun _ => .pure fun D hD => hD.2
    obtain ⟨p, -, rfl⟩ := List.mem_map.1 he
    exact List.Subset.trans (mentions_copiesFrom blocks preds p) h

end GoLift
