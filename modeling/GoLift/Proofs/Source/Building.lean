import GoLift.Source.Build

/-!
# What building complains about

A tree is well written, so what building finds wrong with it is only about meaning
(`module_accepts`): no fault that building reports is one of writing. The parts of building are
gone through in the order in which they call each other.
-/

set_option autoImplicit false

namespace GoLift

/-- Is a text not written like a module? -/
def Fault.isSyntax : Fault → Bool
  | .report (.unparsable ..) _ => true
  | _ => false

namespace Source.Build

variable {α β : Type}

/-- Work that takes the writing of a text for granted. -/
def Accepts (p : Build α) : Prop :=
  ∀ bodies fault, p bodies = .error fault → fault.isSyntax = false

namespace Accepts

/-! ### Steps -/

theorem pure (x : α) : Accepts (Pure.pure x) := fun _ _ h => by cases h

theorem throw {f : Fault} (hf : f.isSyntax = false) : Accepts (α := α) (MonadExcept.throw f) :=
  fun _ _ h => by
    cases h
    exact hf

theorem bind {p : Build α} {q : α → Build β} (hp : Accepts p) (hq : ∀ x, Accepts (q x)) :
    Accepts (p >>= q) := by
  intro bodies fault h
  have hrun : (p >>= q) bodies = p bodies >>= fun r => q r.1 r.2 := rfl
  rw [hrun] at h
  cases hx : p bodies with
  | error f =>
    rw [hx] at h
    cases h
    exact hp _ _ hx
  | ok r =>
    rw [hx] at h
    exact hq _ _ _ h

end Accepts

open Accepts

theorem refuse_accepts {c : Cause} (hc : c.fault.isSyntax = false) :
    Accepts (refuse c : Build α) :=
  throw hc

theorem ofAbort_accepts (r : Except Abort α) : Accepts (ofAbort r) := by
  cases r with
  | ok x => exact pure x
  | error a => exact throw rfl

theorem numeral_accepts (digits : List Char) : Accepts (numeral digits) := by
  unfold numeral
  split
  · exact pure _
  · exact throw rfl

mutual

theorem type_accepts : ∀ t, Accepts (type t)
  | .int _ => bind (numeral_accepts _) fun _ => pure _
  | .void | .float | .double | .ptr => pure _
  | .pointer t => bind (type_accepts t) fun _ => ofAbort_accepts _
  | .array _ t => bind (type_accepts t) fun _ => bind (numeral_accepts _) fun _ => pure _
  | .struct ts => bind (types_accepts ts) fun _ => pure _
  | .named _ => ofAbort_accepts _
  | .func ret ps _ => bind (types_accepts ps) fun _ => bind (type_accepts ret) fun _ => pure _

theorem types_accepts : ∀ ts, Accepts (types ts)
  | [] => pure _
  | t :: ts => bind (type_accepts t) fun _ => bind (types_accepts ts) fun _ => pure _

end

/-! ### Values -/

theorem not_isSyntax_inSource (f : ConstantFault) (t : Ty) (line : Nat) :
    (f.inSource t line).isSyntax = false := by
  unfold ConstantFault.inSource
  split <;> rfl

theorem constant_accepts (line : Nat) (t : Ty) (payload : Except ConstantFault Payload) :
    Accepts (constant line t payload) := by
  refine bind (fun _ _ h => by cases h) fun bodies => ?_
  split
  · exact pure _
  · exact throw (not_isSyntax_inSource _ _ _)

theorem elements_accepts {p : Build α} (line : Nat) (t : Ty) (hp : Accepts p) :
    Accepts (elements line t p) := by
  intro bodies fault h
  unfold elements at h
  split at h
  · cases h
    exact not_isSyntax_inSource _ _ _
  · exact hp _ _ h

mutual

theorem value_accepts (t : Ty) : ∀ v, Accepts (value t v)
  | .localName _ | .globalName _ => pure _
  | .int .. | .decimal .. | .hexFloat .. | .true _ | .false _ | .null _ | .zero _ | .undef _
  | .cstring .. => constant_accepts _ _ _
  | .struct _ items | .array _ items =>
    bind (elements_accepts _ _ (typedAll_accepts items)) fun _ => constant_accepts _ _ _

theorem typed_accepts : ∀ v, Accepts (typed v)
  | .mk t v => bind (type_accepts t) fun t => value_accepts t v

theorem typedAll_accepts : ∀ vs, Accepts (typedAll vs)
  | [] => pure _
  | v :: vs => bind (typed_accepts v) fun _ => bind (typedAll_accepts vs) fun _ => pure _

end

/-! ### Instructions and terminators -/

theorem call_accepts (dest : Option String) (c : CallTree) : Accepts (call dest c) :=
  bind (type_accepts _) fun _ => bind (value_accepts _ _) fun _ =>
    bind (typedAll_accepts _) fun _ => pure _

theorem incoming_accepts (t : Ty) : ∀ is, Accepts (incoming t is)
  | [] => pure _
  | (v, _) :: rest =>
    bind (value_accepts t v) fun _ => bind (incoming_accepts t rest) fun _ => pure _

theorem op_accepts (dest : String) (o : OpTree) : Accepts (op dest o) := by
  cases o with
  | binary | icmp | fcmp =>
    exact bind (type_accepts _) fun _ => bind (value_accepts _ _) fun _ =>
      bind (value_accepts _ _) fun _ => pure _
  | alloca t count =>
    cases count with
    | none => exact bind (pure _) fun _ => bind (type_accepts _) fun _ => pure _
    | some c =>
      exact bind (typed_accepts _) fun _ => bind (pure _) fun _ =>
        bind (type_accepts _) fun _ => pure _
  | load => exact bind (type_accepts _) fun _ => bind (typed_accepts _) fun _ => pure _
  | cast => exact bind (typed_accepts _) fun _ => bind (type_accepts _) fun _ => pure _
  | select =>
    exact bind (typed_accepts _) fun _ => bind (typed_accepts _) fun _ =>
      bind (typed_accepts _) fun _ => pure _
  | gep =>
    exact bind (type_accepts _) fun _ => bind (typed_accepts _) fun _ =>
      bind (typedAll_accepts _) fun _ => pure _
  | phi => exact bind (type_accepts _) fun _ => bind (incoming_accepts _ _) fun _ => pure _
  | call => exact call_accepts _ _

theorem instr_accepts : ∀ i, Accepts (instr i)
  | .assign _ _ => op_accepts _ _
  | .store (.mk _ _) _ =>
    bind (type_accepts _) fun _ => bind (value_accepts _ _) fun _ =>
      bind (typed_accepts _) fun _ => pure _
  | .call _ => call_accepts _ _

theorem instrs_accepts : ∀ is, Accepts (instrs is)
  | [] => pure _
  | i :: is => bind (instr_accepts i) fun _ => bind (instrs_accepts is) fun _ => pure _

theorem cases_accepts : ∀ cs, Accepts (cases cs)
  | [] => pure _
  | (v, _) :: rest => bind (typed_accepts v) fun _ => bind (cases_accepts rest) fun _ => pure _

theorem terminator_accepts (t : TerminatorTree) : Accepts (terminator t) := by
  match t with
  | .ret line t none =>
    refine bind (type_accepts t) fun t => ?_
    split
    · exact pure _
    · exact refuse_accepts rfl
  | .ret _ t (some v) =>
    exact bind (type_accepts t) fun _ => bind (value_accepts _ v) fun _ => pure _
  | .br _ | .unreachable => exact pure _
  | .condBr .. => exact bind (numeral_accepts _) fun _ => bind (value_accepts _ _) fun _ => pure _
  | .switch .. =>
    exact bind (type_accepts _) fun _ => bind (cases_accepts _) fun _ =>
      bind (value_accepts _ _) fun _ => pure _

/-! ### Functions and modules -/

theorem block_accepts (name : String) (b : BlockTree) : Accepts (block name b) :=
  bind (instrs_accepts _) fun _ => bind (terminator_accepts _) fun _ => pure _

theorem blocks_accepts : ∀ bs, Accepts (blocks bs)
  | [] => pure _
  | (label, b) :: rest =>
    bind (block_accepts label b) fun _ => bind (blocks_accepts rest) fun _ => pure _

theorem params_accepts : ∀ ps, Accepts (params ps)
  | [] => pure _
  | (t, _) :: rest => bind (type_accepts t) fun _ => bind (params_accepts rest) fun _ => pure _

theorem header_accepts (ret : TypeTree) (name : String) (ps : ParamsTree) :
    Accepts (header ret name ps) :=
  bind (type_accepts ret) fun _ => bind (params_accepts _) fun _ => pure _

theorem function_accepts (line : Nat) (head : Function) (label : Option String) (first : BlockTree)
    (rest : List (String × BlockTree)) : Accepts (function line head label first rest) := by
  refine bind (block_accepts _ _) fun b => bind (blocks_accepts _) fun bs => ?_
  dsimp only
  split
  · exact pure _
  · exact refuse_accepts rfl

theorem structBody_accepts (line : Nat) (name : String) (body : TypeTree) :
    Accepts (structBody line name body) := by
  refine bind (type_accepts _) fun t => ?_
  split
  · exact pure _
  · exact refuse_accepts rfl

theorem defineStruct_accepts (line : Nat) (name : String) (body : Option TypeTree) :
    Accepts (defineStruct line name body) := by
  refine bind (ofAbort_accepts _) fun _ => ?_
  cases body with
  | none => exact pure _
  | some body =>
    refine bind (structBody_accepts _ _ _) fun _ => bind (fun _ _ h => by cases h) fun _ => ?_
    exact bind (ofAbort_accepts _) fun _ _ _ h => by cases h

theorem item_accepts (m : Module) (i : ItemTree) : Accepts (item m i) := by
  cases i with
  | typeDef => exact bind (defineStruct_accepts _ _ _) fun _ => pure _
  | globalDef => exact bind (type_accepts _) fun _ => bind (value_accepts _ _) fun _ => pure _
  | externGlobal => exact bind (type_accepts _) fun _ => pure _
  | declare => exact bind (header_accepts _ _ _) fun _ => pure _
  | define =>
    exact bind (header_accepts _ _ _) fun _ => bind (function_accepts _ _ _ _ _) fun _ => pure _

theorem items_accepts (m : Module) (is : List ItemTree) : Accepts (items m is) := by
  induction is generalizing m with
  | nil => exact pure _
  | cons i is ih => exact bind (item_accepts m i) fun m => ih m

/-- **Building takes the writing for granted.** What it finds wrong is what the text means. -/
theorem module_accepts {name : String} {trees : List ItemTree} {fault : Fault}
    (h : module name trees = .error fault) : fault.isSyntax = false := by
  unfold module at h
  split at h
  · cases h
  · next hitems =>
    cases h
    exact items_accepts _ _ _ _ hitems

end Source.Build

end GoLift
