import GoLift.Go.Ast
import Mathlib.Data.List.Infix

/-!
# Where statements stand

`Occurs ts ss` says that the statements `ts` stand somewhere in the body `ss`, one behind the
other and in their order: among its own statements, or in a block, a branch or a loop in it.

What occurs is no larger than what it occurs in (`Occurs.sizeOf_le`), so **no body occurs in
itself one level further down** (`not_occurs_block`).
-/

set_option autoImplicit false

namespace GoLift.Go

/-- The bodies of a statement. An else-branch is a body of one statement. -/
def Stmt.bodies : Stmt → List (List Stmt)
  | .block body | .loop _ body => [body]
  | .ifElse _ body none => [body]
  | .ifElse _ body (some s) => [body, [s]]
  | .assign .. | .expr _ | .branch _ | .ret _ | .decl _ | .foreign _ => []

/-- The statements stand in the body, one behind the other. -/
inductive Occurs (ts : List Stmt) : List Stmt → Prop
  | here {ss : List Stmt} : ts <:+: ss → Occurs ts ss
  | inside {s : Stmt} {body ss : List Stmt} :
      s ∈ ss → body ∈ s.bodies → Occurs ts body → Occurs ts ss

variable {ss ts body : List Stmt}

theorem Occurs.refl (ss : List Stmt) : Occurs ss ss :=
  .here (List.infix_refl ss)

/-- What occurs in a part of a body, occurs in the body. -/
theorem Occurs.mono {ss' : List Stmt} (h : Occurs ts ss) (hss : ss <:+: ss') : Occurs ts ss' := by
  cases h with
  | here hts => exact .here (hts.trans hss)
  | inside hs hbody h => exact .inside (hss.subset hs) hbody h

theorem Occurs.append_left (h : Occurs ts ss) (pre : List Stmt) : Occurs ts (pre ++ ss) :=
  h.mono (List.suffix_append pre ss).isInfix

theorem Occurs.append_right (h : Occurs ts ss) (post : List Stmt) : Occurs ts (ss ++ post) :=
  h.mono (List.prefix_append ss post).isInfix

/-- What occurs in a body of a statement, occurs in the statement. -/
theorem Occurs.singleton {s : Stmt} (h : Occurs ts body) (hbody : body ∈ s.bodies) :
    Occurs ts [s] :=
  .inside (List.mem_singleton_self s) hbody h

theorem sizeOf_le_of_infix (h : ts <:+: ss) : sizeOf ts ≤ sizeOf ss := by
  obtain ⟨pre, post, rfl⟩ := h
  induction pre with
  | nil =>
    induction ts with
    | nil => cases post <;> simp only [List.nil.sizeOf_spec, List.cons.sizeOf_spec,
        List.nil_append] <;> omega
    | cons t ts ih =>
      simp only [List.nil_append, List.cons_append, List.cons.sizeOf_spec] at ih ⊢
      omega
  | cons s pre ih =>
    simp only [List.cons_append, List.cons.sizeOf_spec] at ih ⊢
    omega

theorem sizeOf_le_of_mem_bodies {s : Stmt} (h : body ∈ s.bodies) : sizeOf body ≤ sizeOf s := by
  cases s with
  | block b | loop c b =>
    obtain rfl := List.mem_singleton.1 h
    simp
  | ifElse c b orElse =>
    cases orElse with
    | none =>
      obtain rfl := List.mem_singleton.1 h
      simp only [Stmt.ifElse.sizeOf_spec]
      omega
    | some s =>
      simp only [Stmt.bodies, List.mem_cons, List.not_mem_nil, or_false] at h
      rcases h with rfl | rfl <;>
        simp only [Stmt.ifElse.sizeOf_spec, List.cons.sizeOf_spec, List.nil.sizeOf_spec,
          Option.some.sizeOf_spec] <;> omega
  | _ => cases h

/-- **What occurs is not larger.** -/
theorem Occurs.sizeOf_le (h : Occurs ts ss) : sizeOf ts ≤ sizeOf ss := by
  induction h with
  | here h => exact sizeOf_le_of_infix h
  | @inside s body ss hs hbody _ ih =>
    have hmem := List.sizeOf_lt_of_mem hs
    have hbody := sizeOf_le_of_mem_bodies hbody
    omega

/-- A body does not occur in itself as a block. -/
theorem not_occurs_block (ss : List Stmt) : ¬ Occurs [.block ss] ss := by
  intro h
  have hle := h.sizeOf_le
  simp only [List.cons.sizeOf_spec, Stmt.block.sizeOf_spec, List.nil.sizeOf_spec] at hle
  omega

end GoLift.Go
