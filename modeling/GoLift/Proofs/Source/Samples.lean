import GoLift.Proofs.Source.Grammar

/-!
# Something of every rule

No rule is empty: every right side derives some tokens, and these can be tokens of a text
(`Rhs.derivable`). So whatever is begun by the grammar can be finished.
-/

set_option autoImplicit false

namespace GoLift.Source

/-! ### Tokens with a spelling -/

/-- A text that is a token when it stands alone. -/
def Token.Spelled (t : Token) : Prop :=
  firstRule? t.text = some (some t.terminal, t.text.length)

/-- A spelling of each terminal. -/
def Terminal.sample : Terminal → String
  | .hexFloat => "0x0"
  | .decimal => "0.0"
  | .globalName => "@a"
  | .labelDef => "a:"
  | .localName => "%a"
  | .intType => "i1"
  | .cstring => "c\"\""
  | .int => "0"
  | .castOp => "trunc"
  | .globalKind => "global"
  | .opaqueWord => "opaque"
  | .binOp => "add"
  | .pred => "eq"
  | .word w => w.text

/-- All words. -/
def Word.all : List Word :=
  [.zeroinitializer, .getelementptr, .unreachable, .external, .declare, .alloca, .define, .double,
    .poison, .select, .switch, .false, .label, .store, .undef, .float, .call, .fcmp, .icmp, .load,
    .null, .true, .type, .void, .phi, .ptr, .ret, .dots, .br, .to, .comma, .equals, .openBrace,
    .openParen, .openBracket, .closeBrace, .closeParen, .closeBracket, .star, .x]

/-- All terminals. -/
def Terminal.all : List Terminal :=
  [.hexFloat, .decimal, .globalName, .labelDef, .localName, .intType, .cstring, .int, .castOp,
    .globalKind, .opaqueWord, .binOp, .pred] ++ Word.all.map .word

theorem Terminal.mem_all (k : Terminal) : k ∈ all := by
  cases k with
  | word w => exact List.mem_append_right _ (List.mem_map_of_mem (by cases w <;> decide))
  | _ => exact List.mem_append_left _ (by decide)

/-- The spelling of a terminal is read as that terminal, and not as an earlier one. -/
theorem Terminal.firstRule?_sample (k : Terminal) :
    firstRule? k.sample.toList = some (some k, k.sample.toList.length) := by
  have hall : ∀ k ∈ all, firstRule? k.sample.toList = some (some k, k.sample.toList.length) := by
    decide +kernel
  exact hall k k.mem_all

theorem Terminal.exists_spelled (k : Terminal) : ∃ t : Token, t.terminal = k ∧ t.Spelled :=
  ⟨⟨k, k.sample.toList, {}⟩, rfl, k.firstRule?_sample⟩

/-! ### Derivations with a spelling -/

/-- Tokens with a spelling can be found. -/
class Sampled {D : Type} (yield : D → List Token) : Prop where
  exists_spelled : ∃ d, ∀ t ∈ yield d, t.Spelled

/-- Some tokens that are derived have a spelling. -/
abbrev Rhs.Derivable (e : Rhs) : Prop := Sampled (Derivation.yield (e := e))

namespace Rhs.Derivable

variable {a b : Rhs}

theorem token (k : Terminal) : Derivable (.token k) := by
  obtain ⟨t, ht, hs⟩ := k.exists_spelled
  exact ⟨.token t ht, by simpa [Derivation.yield] using hs⟩

theorem rule {r : Rule} (i : Fin r.alternatives.length)
    (h : Derivable (r.alternatives.get i).rhs) : Derivable (.rule r) := by
  obtain ⟨d, hd⟩ := h.exists_spelled
  exact ⟨.rule i d, hd⟩

theorem seq (ha : Derivable a) (hb : Derivable b) : Derivable (.seq a b) := by
  obtain ⟨d, hd⟩ := ha.exists_spelled
  obtain ⟨e, he⟩ := hb.exists_spelled
  refine ⟨.seq d e, ?_⟩
  simpa [Derivation.yield, or_imp, forall_and] using ⟨hd, he⟩

theorem left (h : Derivable a) : Derivable (.alt a b) := by
  obtain ⟨d, hd⟩ := h.exists_spelled
  exact ⟨.left d, hd⟩

theorem opt : Derivable (.opt a) := ⟨.none, by simp [Derivation.yield]⟩

theorem star : Derivable (.star a) := ⟨.nil, by simp [Derivation.yield]⟩

end Rhs.Derivable

open Rhs.Derivable in
/-- No rule is empty. Each takes an alternative that needs only rules before it. -/
theorem Rule.derivable (r : Rule) : Rhs.Derivable (.rule r) := by
  have type : Rhs.Derivable (.rule .type) := .rule ⟨1, by decide⟩ (.token _)
  have value : Rhs.Derivable (.rule .value) := .rule ⟨7, by decide⟩ (.token _)
  have typed : Rhs.Derivable Rhs.typed := .seq type value
  have label : Rhs.Derivable Rhs.label := .seq (.token _) (.token _)
  have parameters : Rhs.Derivable Rhs.parameters := .seq (.token _) (.seq .opt (.token _))
  have call : Rhs.Derivable (.rule .call) :=
    .rule ⟨0, by decide⟩
      (.seq (.token _) (.seq type (.seq value (.seq (.token _) (.seq .opt (.token _))))))
  have terminator : Rhs.Derivable (.rule .terminator) := .rule ⟨4, by decide⟩ (.token _)
  have body : Rhs.Derivable Rhs.body := .seq .star terminator
  have firstBlock : Rhs.Derivable (.rule .firstBlock) := .rule ⟨0, by decide⟩ (.seq .opt body)
  have typeDef : Rhs.Derivable (.rule .typeDef) :=
    .rule ⟨0, by decide⟩ (.seq (.token _) (.seq (.token _) (.seq (.token _) (.left type))))
  cases r with
  | module => exact .rule ⟨0, by decide⟩ .star
  | item => exact .rule ⟨0, by decide⟩ typeDef
  | typeDef => exact typeDef
  | globalDef =>
    exact .rule ⟨0, by decide⟩
      (.seq (.token _) (.seq (.token _) (.seq (.token _) (.seq type value))))
  | externGlobal =>
    exact .rule ⟨0, by decide⟩
      (.seq (.token _) (.seq (.token _) (.seq (.token _) (.seq (.token _) type))))
  | declare =>
    exact .rule ⟨0, by decide⟩ (.seq (.token _) (.seq type (.seq (.token _) parameters)))
  | define =>
    exact .rule ⟨0, by decide⟩
      (.seq (.token _) (.seq type (.seq (.token _) (.seq parameters
        (.seq (.token _) (.seq firstBlock (.seq .star (.token _))))))))
  | params => exact .rule ⟨1, by decide⟩ (.token _)
  | param => exact .rule ⟨0, by decide⟩ (.seq type .opt)
  | firstBlock => exact firstBlock
  | block => exact .rule ⟨0, by decide⟩ (.seq (.token _) body)
  | type => exact type
  | typeList => exact .rule ⟨1, by decide⟩ (.token _)
  | value => exact value
  | typedValue => exact .rule ⟨0, by decide⟩ typed
  | instruction => exact .rule ⟨2, by decide⟩ call
  | op => exact .rule ⟨9, by decide⟩ call
  | call => exact call
  | incoming =>
    exact .rule ⟨0, by decide⟩
      (.seq (.token _) (.seq value (.seq (.token _) (.seq (.token _) (.token _)))))
  | terminator => exact terminator
  | switchCase => exact .rule ⟨0, by decide⟩ (.seq typed (.seq (.token _) label))

/-- Every right side derives tokens that have a spelling. -/
instance Rhs.derivable (e : Rhs) : e.Derivable := by
  induction e with
  | token k => exact .token k
  | rule r => exact r.derivable
  | seq a b ha hb => exact .seq ha hb
  | alt a b ha hb => exact .left ha
  | opt a ha => exact .opt
  | star a ha => exact .star

end GoLift.Source
