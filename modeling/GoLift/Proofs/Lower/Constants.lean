import GoLift.Proofs.Go.Constants
import GoLift.Proofs.Lower.Conversions
import GoLift.Proofs.Lower.Types

/-!
# Constants keep their value

A constant is a type with what is written for it: a number of any size, `null`, `undef`, or a
list of constants, nested to any depth. `Payload.Written` says what it stands for: the bits of
the number, a null pointer, the zero of the type, or what the items stand for, each at the type
of its place.

**The expression that a constant is lowered to has that value, and no other**
(`Payload.lowered_evaluates`). The bodies of identified structs are what their declarations say
(`Bodies.Declares`).

Where a type is spelled out, all of it needs a counterpart, also what a pointer in it points to.
-/

set_option autoImplicit false

namespace GoLift

open Go (Expr HasShape IsZero AreZero Evaluates EvaluateTo Apart IntType)
open DraftM

/-! ### Meaning -/

section

variable (bodies : Bodies)

mutual

/-- The zero of a type: of an integer type that the emitted language has, of one bit, of a pointer
type of which it can write the type, or of an aggregate of such types. -/
inductive Ty.Zero : Ty → Content → Prop
  | int {w : Nat} (hw : w = 1 ∨ w ∈ goWidths) : Ty.Zero (.int w) (.bits ⟨w, 0#w⟩)
  | opaquePtr : Ty.Zero .opaquePtr .nil
  | ptr {t : Ty} {x : Expr} (hx : goType? t = some x) : Ty.Zero (.ptr t) .nil
  | struct {ts : List Ty} {cs : List Content} (hcs : Ty.Zeros ts cs) :
    Ty.Zero (.struct ts) (.parts cs)
  | named {name : String} {ts : List Ty} {cs : List Content} (hbody : bodies.get? name = some ts)
      (hcs : Ty.Zeros ts cs) : Ty.Zero (.named name) (.parts cs)
  | array {n : Nat} {t : Ty} {c : Content} (hc : Ty.Zero t c) :
    Ty.Zero (.array n t) (.parts (List.replicate n c))

/-- The zeros of a list of types. -/
inductive Ty.Zeros : List Ty → List Content → Prop
  | nil : Ty.Zeros [] []
  | cons {t : Ty} {ts : List Ty} {c : Content} {cs : List Content} (hc : Ty.Zero t c)
      (hcs : Ty.Zeros ts cs) : Ty.Zeros (t :: ts) (c :: cs)

end

/-- The types of the parts of an aggregate. -/
inductive Ty.Parts : Ty → List Ty → Prop
  | struct {ts : List Ty} : Ty.Parts (.struct ts) ts
  | named {name : String} {ts : List Ty} (hbody : bodies.get? name = some ts) :
    Ty.Parts (.named name) ts
  | array {n : Nat} {t : Ty} : Ty.Parts (.array n t) (List.replicate n t)

mutual

/-- What a constant stands for that has been built: all its elements are constants. -/
inductive Payload.Means : Ty → Payload → Content → Prop
  | zero {t : Ty} {p : Payload} {c : Content} (hp : p = .null ∨ p = .undef)
      (hc : t.Zero bodies c) : Payload.Means t p c
  | int {w : Nat} {n : Int} (hw : w = 1 ∧ n ∈ [0, 1, -1] ∨ w ∈ goWidths) :
    Payload.Means (.int w) (.int n) (.bits ⟨w, BitVec.ofInt w n⟩)
  | elements {t : Ty} {ts : List Ty} {vs : List Value} {cs : List Content} {zero : Content}
      (ht : t.Zero bodies zero) (hts : t.Parts bodies ts) (hcs : Value.Mean ts vs cs) :
    Payload.Means t (.elements vs) (.parts cs)

/-- What constants of some types stand for. -/
inductive Value.Mean : List Ty → List Value → List Content → Prop
  | nil : Value.Mean [] [] []
  | cons {t : Ty} {ts : List Ty} {p : Payload} {vs : List Value} {c : Content} {cs : List Content}
      (hc : Payload.Means t p c) (hcs : Value.Mean ts vs cs) :
    Value.Mean (t :: ts) (.const t p :: vs) (c :: cs)

end

mutual

/-- What is written for a constant, and what it stands for. The items of a list are written for
constants of the types of their places, or are such constants. -/
inductive Payload.Written : Ty → Payload → Content → Prop
  | built {t : Ty} {p : Payload} {c : Content} (h : p.Means bodies t c) : Payload.Written t p c
  | list {t : Ty} {ts : List Ty} {items : List Payload} {cs : List Content} {zero : Content}
      (ht : t.Zero bodies zero) (hts : Value.slots bodies t items.length = .ok (some ts))
      (hcs : Payload.AreWritten ts items cs) : Payload.Written t (.list items) (.parts cs)

/-- What is written for constants of some types, and what they stand for. -/
inductive Payload.AreWritten : List Ty → List Payload → List Content → Prop
  | nil : Payload.AreWritten [] [] []
  | cons {t : Ty} {ts : List Ty} {p : Payload} {ps : List Payload} {c : Content}
      {cs : List Content} (hc : Payload.Written t p c) (hcs : Payload.AreWritten ts ps cs) :
    Payload.AreWritten (t :: ts) (p :: ps) (c :: cs)
  | wrapped {t : Ty} {ts : List Ty} {p : Payload} {ps : List Payload} {c : Content}
      {cs : List Content} (hc : p.Means bodies t c) (hcs : Payload.AreWritten ts ps cs) :
    Payload.AreWritten (t :: ts) (.ref (.const t p) :: ps) (c :: cs)

end

end

/-! ### Types -/

/-- The fields that the struct of a name is declared with. -/
def Bodies.Declares (bodies : Bodies) (x : String) (fields : List Expr) : Prop :=
  ∃ name ts, bodies.get? name = some ts ∧ x = goName name ∧ goTypes? ts = some fields

section

variable {bodies : Bodies} {t : Ty} {ts : List Ty} {c : Content} {cs : List Content}

theorem goType?_word {w : Nat} (hw : w ∈ goWidths) :
    goType? (.int w) = some (.ident (IntType.mk false w).name) := by
  rw [goType?_int, if_neg (ne_one_of_mem hw), if_pos hw]
  rfl

theorem goTypes?_replicate {x : Expr} (h : goType? t = some x) (n : Nat) :
    goTypes? (List.replicate n t) = some (List.replicate n x) := by
  rw [goTypes?_eq_some]
  induction n with
  | zero => exact .nil
  | succ n ih => exact .cons h ih

theorem fieldType_numbered (xs : List Expr) : (numberedFields xs).map fieldType = xs := by
  rw [numberedFields, List.map_map]
  exact List.zipIdx_map_fst 0 xs

mutual

/-- A type with a zero has a Go type with this zero. -/
theorem Ty.Zero.goType {t : Ty} {c : Content} : t.Zero bodies c →
    ∃ x, goType? t = some x ∧ IsZero bodies.Declares x c
  | .int (.inl hw) => by
    subst hw
    exact ⟨_, goType?_int 1, .bool .bool⟩
  | .int (.inr hw) => ⟨_, goType?_word hw, .int (.int hw)⟩
  | .opaquePtr => ⟨_, goType?_opaquePtr, .pointer .unsafePointer⟩
  | .ptr hx => ⟨_, by rw [goType?_ptr, hx]; rfl, .pointer .pointer⟩
  | .struct hcs => by
    obtain ⟨xs, hxs, hzeros⟩ := hcs.goTypes
    refine ⟨_, by rw [goType?_struct, hxs]; rfl, .struct .struct ?_⟩
    rwa [fieldType_numbered]
  | .named hbody hcs => by
    obtain ⟨xs, hxs, hzeros⟩ := hcs.goTypes
    exact ⟨_, goType?_named _, .struct (.declared ⟨_, _, hbody, rfl, hxs⟩) hzeros⟩
  | .array hc => by
    obtain ⟨x, hx, hzero⟩ := hc.goType
    refine ⟨_, by rw [goType?_array, hx]; rfl, .array (.array ?_) hzero⟩
    exact Int.toInt?_repr _

theorem Ty.Zeros.goTypes {ts : List Ty} {cs : List Content} : Ty.Zeros bodies ts cs →
    ∃ xs, goTypes? ts = some xs ∧ AreZero bodies.Declares xs cs
  | .nil => ⟨[], goTypes?_nil, .nil⟩
  | .cons hc hcs => by
    obtain ⟨x, hx, hzero⟩ := hc.goType
    obtain ⟨xs, hxs, hzeros⟩ := hcs.goTypes
    exact ⟨x :: xs, by rw [goTypes?_cons, hx, hxs]; rfl, .cons hzero hzeros⟩

end

/-! ### Expressions -/

namespace DraftM

variable {α β : Type} {a : α} {b : β}

/-- From every draft, a step comes to one result. -/
def Comes (x : DraftM α) (a : α) : Prop := ∀ d, ∃ d', x d = (.ok a, d')

theorem Comes.pure : Comes (Pure.pure a) a := fun d => ⟨d, rfl⟩

theorem Comes.bind {x : DraftM α} {f : α → DraftM β} (hx : Comes x a) (hf : Comes (f a) b) :
    Comes (x >>= f) b := by
  intro d
  obtain ⟨d₁, h₁⟩ := hx d
  obtain ⟨d₂, h₂⟩ := hf d₁
  exact ⟨d₂, by rw [bind_of_ok h₁, h₂]⟩

theorem comes_ofTypeM {x : TypeM α} (hx : x.Steady) (ha : x.value? = some a) :
    Comes (ofTypeM x) a := by
  intro d
  refine ⟨{ d with records := (x d.records).2 }, ?_⟩
  rw [← hx.value?_eq_some.1 ha d.records]
  rfl

theorem comes_goType {t : Ty} {x : Expr} (h : goType? t = some x) : Comes (DraftM.goType t) x :=
  comes_ofTypeM (TypeM.steady_goType false t) h

end DraftM

theorem Ty.Zero.composite (h : t.Zero bodies (.parts cs)) : t.isComposite = true := by
  cases h <;> rfl

/-- The zero of a type is written as an expression with its value. -/
theorem Ty.Zero.zeroValue (h : t.Zero bodies c) :
    ∃ e x, zeroValue? t = some e ∧ goType? t = some x ∧ Evaluates bodies.Declares x e c := by
  cases c with
  | bits b =>
    cases h with
    | @int w hw =>
      obtain rfl | hw := hw
      · exact ⟨_, _, zeroValue?_int 1, goType?_int 1, .truth false .bool⟩
      · refine ⟨.lit .int "0", _, ?_, goType?_word hw, ?_⟩
        · rw [zeroValue?_int, if_neg (ne_one_of_mem hw), if_pos hw]
        · exact .int (.int hw) toInt?_zero (by revert w; decide)
  | nil =>
    cases h with
    | opaquePtr => exact ⟨_, _, rfl, goType?_opaquePtr, .nil .unsafePointer⟩
    | ptr hx => exact ⟨_, _, rfl, by rw [goType?_ptr, hx]; rfl, .nil .pointer⟩
  | parts cs =>
    obtain ⟨x, hx, hzero⟩ := h.goType
    exact ⟨_, x, by rw [zeroValue?_composite h.composite, hx]; rfl, hx, hzero.empty⟩

/-- Aggregates are lowered part by part. -/
theorem Ty.Parts.evaluates {zero : Content} (hts : t.Parts bodies ts) (ht : t.Zero bodies zero) :
    t.isComposite = true ∧ ∃ x xs, goType? t = some x ∧ goTypes? ts = some xs ∧
      ∀ {es : List Expr} {cs : List Content}, EvaluateTo bodies.Declares xs es cs →
        Evaluates bodies.Declares x (.composite x es) (.parts cs) := by
  cases hts with
  | struct =>
    cases ht with
    | struct hcs =>
      obtain ⟨xs, hxs, -⟩ := hcs.goTypes
      refine ⟨rfl, _, xs, by rw [goType?_struct, hxs]; rfl, hxs, fun h => .struct .struct ?_⟩
      rwa [fieldType_numbered]
  | named hbody =>
    cases ht with
    | named hbody' hcs =>
      rw [hbody] at hbody'
      cases hbody'
      obtain ⟨xs, hxs, -⟩ := hcs.goTypes
      exact ⟨rfl, _, xs, goType?_named _, hxs, .struct (.declared ⟨_, _, hbody, rfl, hxs⟩)⟩
  | @array n t =>
    cases ht with
    | array hc =>
      obtain ⟨x, hx, hzero⟩ := hc.goType
      refine ⟨rfl, _, List.replicate n x, by rw [goType?_array, hx]; rfl, ?_, fun h => ?_⟩
      · exact goTypes?_replicate hx n
      · exact h.array (.array (Int.toInt?_repr _)) hzero

/-- A number is written in the signed range of its width, where it has the same bits. -/
theorem signedOf_bits (w : Nat) (n : Int) :
    IntType.Has ⟨false, w⟩ (signedOf w n) ∧ BitVec.ofInt w (signedOf w n) = BitVec.ofInt w n := by
  have hbits : signedOf w n = (BitVec.ofInt w n).toInt := (BitVec.toInt_ofInt n).symm
  rw [hbits, BitVec.ofInt_toInt]
  exact ⟨Go.IntType.has_signed.2 ⟨BitVec.le_toInt _, BitVec.toInt_lt⟩, rfl⟩

/-- A number is lowered to an expression with its bits. -/
theorem lower_number {w : Nat} {n : Int} (hw : w = 1 ∧ n ∈ [0, 1, -1] ∨ w ∈ goWidths)
    (scope : Scope) : ∃ e x, Comes ((Payload.int n).lower scope (.int w)) e ∧
      goType? (.int w) = some x ∧
        Evaluates bodies.Declares x e (.bits ⟨w, BitVec.ofInt w n⟩) := by
  rw [Lower.lower_int]
  obtain ⟨rfl, hn⟩ | hw := hw
  · have hbit : BitVec.ofInt 1 n = BitVec.ofBool (n != 0) := by
      simp only [List.mem_cons, List.not_mem_nil, or_false] at hn
      rcases hn with rfl | rfl | rfl <;> rfl
    rw [hbit]
    exact ⟨_, _, .pure, goType?_int 1, .truth _ .bool⟩
  · obtain ⟨hhas, hbits⟩ := signedOf_bits w n
    rw [Lower.scalarExpr_int hw, ← hbits]
    refine ⟨_, _, (comes_goType (goType?_word hw)).bind .pure, goType?_word hw, ?_⟩
    exact .int (.int hw) (Int.toInt?_repr _) hhas

mutual

/-- **A constant that has been built is lowered to an expression with its value.** -/
theorem Payload.Means.lowered (scope : Scope) {t : Ty} {p : Payload} {c : Content} :
    p.Means bodies t c → ∃ e x, Comes (p.lower scope t) e ∧ goType? t = some x ∧
      Evaluates bodies.Declares x e c
  | .zero hp hc => by
    obtain ⟨e, x, he, hx, hvalue⟩ := hc.zeroValue
    refine ⟨e, x, ?_, hx, hvalue⟩
    have hzero : Comes (DraftM.zeroValue t) e := comes_ofTypeM (TypeM.steady_zeroValue t) he
    obtain rfl | rfl := hp <;> rwa [Payload.lower]
  | .int hw => lower_number hw scope
  | .elements ht hts hcs => by
    obtain ⟨hcomposite, x, xs, hx, hxs, hvalue⟩ := hts.evaluates ht
    obtain ⟨es, hes, hvalues⟩ := hcs.lowered scope hxs
    refine ⟨.composite x es, x, ?_, hx, hvalue hvalues⟩
    rw [Payload.lower, if_pos hcomposite]
    exact hes.bind ((comes_goType hx).bind .pure)

theorem Value.Mean.lowered (scope : Scope) {ts : List Ty} {vs : List Value} {cs : List Content}
    {xs : List Expr} : Value.Mean bodies ts vs cs → goTypes? ts = some xs →
      ∃ es, Comes (Value.lowerAll scope vs) es ∧ EvaluateTo bodies.Declares xs es cs
  | .nil, hxs => by
    cases goTypes?_nil.symm.trans hxs
    refine ⟨[], ?_, .nil⟩
    rw [Value.lowerAll]
    exact .pure
  | .cons hc hcs, hxs => by
    obtain ⟨e, x, he, hx, hvalue⟩ := hc.lowered scope
    rw [goTypes?_cons, hx, Option.bind_some, Option.map_eq_some_iff] at hxs
    obtain ⟨xs, hxs, rfl⟩ := hxs
    obtain ⟨es, hes, hvalues⟩ := hcs.lowered scope hxs
    refine ⟨e :: es, ?_, .cons hvalue hvalues⟩
    rw [Value.lowerAll, Value.lower]
    exact he.bind (hes.bind .pure)

end

/-! ### Building -/

/-- A payload that is no list is kept, but for the zero of an integer. -/
theorem constant?_plain {p : Payload} (hp : ∀ items, p ≠ .list items)
    (ht : t.Zero bodies c) (hint : ∀ w, t = .int w → p ≠ .null) :
    Value.constant? bodies t p = .ok (.const t p) := by
  have hplain : Value.constant? bodies t p = Value.plainConstant t p := by
    rw [Value.constant?]
    exact hp
  rw [hplain]
  cases ht with
  | @int w hw =>
    cases p with
    | null => exact absurd rfl (hint w rfl)
    | _ => rfl
  | _ => rfl

/-- A constant that has been built is kept, but for the zero of an integer, which is a number. -/
theorem Payload.Means.build {p : Payload} (h : p.Means bodies t c) :
    ∃ p', Value.constant? bodies t p = .ok (.const t p') ∧ p'.Means bodies t c := by
  by_cases hint : ∃ w, t = .int w ∧ p = .null
  · obtain ⟨w, rfl, rfl⟩ := hint
    cases h with
    | zero hp hc =>
      cases hc with
      | int hw =>
        refine ⟨.int 0, rfl, ?_⟩
        exact .int (hw.imp_left fun hw => ⟨hw, by simp⟩)
  · have hint (w : Nat) (ht : t = .int w) (hp : p = .null) : False := hint ⟨w, ht, hp⟩
    refine ⟨p, ?_, h⟩
    cases h with
    | zero hp hc =>
      refine constant?_plain ?_ hc hint
      obtain rfl | rfl := hp <;> simp
    | @int w n hw => exact constant?_plain (by simp) (.int (hw.imp_left And.left)) hint
    | elements ht hts hcs => exact constant?_plain (by simp) ht hint

theorem Payload.Written.ne_ref {p : Payload} (h : p.Written bodies t c) (v : Value) :
    p ≠ .ref v := by
  rintro rfl
  cases h with
  | built h =>
    cases h with
    | zero hp => obtain hp | hp := hp <;> cases hp

theorem constants?_cons {p : Payload} {ps : List Payload} (hp : ∀ v, p ≠ .ref v) :
    Value.constants? bodies (t :: ts) (p :: ps) = do
      let v ← Value.constant? bodies t p
      return v :: (← Value.constants? bodies ts ps) := by
  rw [Value.constants?]
  exact fun _ _ => hp _

/-- A list under the type of an aggregate fills its parts. -/
theorem constant?_list {items : List Payload} {vs : List Value} (ht : t.Zero bodies c)
    (hts : Value.slots bodies t items.length = .ok (some ts))
    (hvs : Value.constants? bodies ts items = .ok vs) :
    Value.constant? bodies t (.list items) = .ok (.const t (.elements vs)) := by
  cases ht <;> simp only [Value.constant?, hts, hvs, bind, Except.bind, pure, Except.pure]

/-- What a list fills are the parts of the type. -/
theorem parts_of_slots {n : Nat} (ht : t.Zero bodies c)
    (hts : Value.slots bodies t n = .ok (some ts)) : t.Parts bodies ts := by
  have hexactly {us : List Ty} {fault : ConstantFault}
      (h : (if us.length = n then Except.ok (some us) else .error fault) = .ok (some ts)) :
      us = ts := by
    split at h
    · exact Option.some.inj (Except.ok.inj h)
    · cases h
  cases ht with
  | int | opaquePtr | ptr => cases hts
  | struct => exact hexactly hts ▸ .struct
  | named hbody =>
    simp only [Value.slots, hbody] at hts
    exact .named (hexactly hts ▸ hbody)
  | @array m t =>
    unfold Value.slots at hts
    simp only at hts
    split at hts
    · cases hts
    split at hts
    · cases hts
    split at hts
    · next hm =>
      obtain rfl := Int.ofNat.inj hm
      exact Option.some.inj (Except.ok.inj hts) ▸ .array
    · cases hts

mutual

/-- What is written for a constant is built to a constant with its value. -/
theorem Payload.Written.build {t : Ty} {p : Payload} {c : Content} :
    p.Written bodies t c → ∃ p', Value.constant? bodies t p = .ok (.const t p') ∧
      p'.Means bodies t c
  | .built h => h.build
  | .list ht hts hcs => by
    obtain ⟨vs, hvs, hmean⟩ := hcs.build
    exact ⟨.elements vs, constant?_list ht hts hvs, .elements ht (parts_of_slots ht hts) hmean⟩

theorem Payload.AreWritten.build {ts : List Ty} {ps : List Payload} {cs : List Content} :
    Payload.AreWritten bodies ts ps cs → ∃ vs, Value.constants? bodies ts ps = .ok vs ∧
      Value.Mean bodies ts vs cs
  | .nil => ⟨[], rfl, .nil⟩
  | .cons hc hcs => by
    obtain ⟨p', hp', hmeans⟩ := hc.build
    obtain ⟨vs, hvs, hmean⟩ := hcs.build
    refine ⟨_ :: vs, ?_, .cons hmeans hmean⟩
    rw [constants?_cons hc.ne_ref, hp', hvs]
    rfl
  | .wrapped hc hcs => by
    obtain ⟨vs, hvs, hmean⟩ := hcs.build
    refine ⟨_ :: vs, ?_, .cons hc hmean⟩
    rw [Value.constants?, hvs]
    rfl

end

/-! ### Values -/

/-- **Constants keep their value.** What is written for a constant is built to a constant, which
is lowered to an expression from every draft. The expression has the value that the constant
stands for as one of its type, and if no declaration hides another one or a word, it has no
other. -/
theorem Payload.lowered_evaluates {p : Payload} (h : p.Written bodies t c) (scope : Scope)
    (D : Draft) :
    ∃ v e x D', Value.constant? bodies t p = .ok v ∧ v.lower scope D = (.ok e, D') ∧
      goType? t = some x ∧ Evaluates bodies.Declares x e c ∧
        (Apart bodies.Declares → ∀ c', Evaluates bodies.Declares x e c' → c' = c) := by
  obtain ⟨p', hp', hmeans⟩ := h.build
  obtain ⟨e, x, hcomes, hx, hvalue⟩ := hmeans.lowered scope
  obtain ⟨D', he⟩ := hcomes D
  rw [← Value.lower] at he
  exact ⟨_, e, x, D', hp', he, hx, hvalue, fun hapart c' hc' => hc'.unique hapart hvalue⟩

end

/-! ### A constant with a part of each kind -/

namespace Pair

/-- `%pair = type { i8, [2 x i1], i8* }`. -/
def named : Bodies := ⟨[("pair", [.int 8, .array 2 (.int 1), .ptr (.int 8)])]⟩

/-- The elements of `[2 x i1] [i1 -1, i1 0]`. -/
def flags : Payload := .elements [.const (.int 1) (.int (-1)), .const (.int 1) (.int 0)]

/-- `{ i8 255, [2 x i1] [i1 -1, i1 0], i8* null }`, with the array built beforehand. -/
def written : Payload := .list [.int 255, .ref (.const (.array 2 (.int 1)) flags), .null]

def content : Content := .parts [.bits ⟨8, 255#8⟩, .parts [.bits ⟨1, 1#1⟩, .bits ⟨1, 0#1⟩], .nil]

theorem written_content : written.Written named (.named "pair") content := by
  have hbyte : goType? (.int 8) = some (.ident "int8") := goType?_word (by decide)
  have hword : Ty.Zero named (.int 8) (.bits ⟨8, 0#8⟩) := .int (.inr (by decide))
  have harray : Ty.Zero named (.array (2 : Nat) (.int 1)) _ := .array (.int (.inl rfl))
  have hflags : Payload.Means named (.array (2 : Nat) (.int 1)) flags
      (.parts [.bits ⟨1, 1#1⟩, .bits ⟨1, 0#1⟩]) :=
    .elements harray .array
      (.cons (.int (.inl ⟨rfl, by simp⟩)) (.cons (.int (.inl ⟨rfl, by simp⟩)) .nil))
  have hzero : Ty.Zero named (.named "pair") _ :=
    .named rfl (.cons hword (.cons harray (.cons (.ptr hbyte) .nil)))
  refine .list hzero rfl (.cons (.built (.int (.inr (by decide)))) (.wrapped hflags ?_))
  exact .cons (.built (.zero (.inl rfl) (.ptr hbyte))) .nil

/-- All three parts keep their values. -/
theorem keeps_parts : written.Written named (.named "pair") content ∧
    ∃ v e x D', Value.constant? named (.named "pair") written = .ok v ∧
      v.lower {} {} = (.ok e, D') ∧ goType? (.named "pair") = some x ∧
        Evaluates named.Declares x e content ∧
          (Apart named.Declares → ∀ c, Evaluates named.Declares x e c → c = content) :=
  ⟨written_content, Payload.lowered_evaluates written_content {} {}⟩

end Pair

/-! ### A pointer to what has no counterpart -/

namespace OddPointer

/-- `{ i7* }`. -/
def holder : Ty := .struct [.ptr (.int 7)]

theorem goType?_holder : goType? holder = none := by simp [holder, goWidths]

/-- A struct with a null pointer to an integer of 7 bits is built, and it is never lowered, since
the type of the struct cannot be written. -/
theorem not_lowered :
    ∃ v, Value.constant? {} holder (.list [.null]) = .ok v ∧
      ∀ scope D, ∃ fault D', v.lower scope D = (.error fault, D') := by
  refine ⟨.const holder (.elements [.const (.ptr (.int 7)) .null]), rfl, fun scope D => ?_⟩
  have hfields : Comes (Value.lowerAll scope [.const (.ptr (.int 7)) .null]) [.ident "nil"] := by
    rw [Value.lowerAll, Value.lower, Payload.lower, Value.lowerAll]
    exact Comes.bind .pure (.bind .pure .pure)
  obtain ⟨D', hD'⟩ := hfields D
  obtain ⟨fault, hfault⟩ :=
    (TypeM.steady_goType false holder).value?_eq_none goType?_holder D'.records
  have htype : DraftM.goType holder D' =
      (.error fault, { D' with records := (goType false holder D'.records).2 }) := by
    rw [← hfault]
    rfl
  rw [Value.lower, Payload.lower, if_pos (show holder.isComposite = true from rfl), bind_of_ok hD']
  exact ⟨fault, _, bind_of_error htype⟩

end OddPointer

end GoLift
