import GoLift.Assembly
import GoLift.Proofs.Go.Parts

/-!
# The forms of emitted code

What code looks like that may use some packages and mention some structs, which are `Records`, and
some identifiers for values. Types and values have forms of their own (`TypeForm`, `ValueForm`),
so each place of a declaration is for the one or for the other: `T(v)` is a conversion if `T` is a
type, and a call only if it is an identifier for a value.

**What such a declaration is made of, needs nothing else** (`DeclForm.part`): every part of it is
a type, a value, or a word of the language.
-/

set_option autoImplicit false

namespace GoLift

open Go (Expr Stmt FieldDecl Decl)

/-! ### Records -/

namespace Records

/-- Everything that is recorded is recorded in other records too, and no struct twice. -/
structure Le (r r' : Records) : Prop where
  imports : r.imports ⊆ r'.imports
  named : r.named ⊆ r'.named
  nodup : r.named.Nodup → r'.named.Nodup

theorem Le.refl (r : Records) : r.Le r := ⟨List.Subset.refl _, List.Subset.refl _, id⟩

theorem Le.trans {r r' r'' : Records} (h : r.Le r') (h' : r'.Le r'') : r.Le r'' :=
  ⟨List.Subset.trans h.imports h'.imports, List.Subset.trans h.named h'.named, h'.nodup ∘ h.nodup⟩

theorem mem_addImport {r : Records} {p q : String} :
    q ∈ (r.addImport p).imports ↔ q ∈ r.imports ∨ q = p := by
  unfold addImport
  split
  · next h =>
    constructor
    · exact .inl
    · intro hq
      obtain hq | rfl := hq
      · exact hq
      · simpa using h
  · simp

theorem mem_addNamed {r : Records} {n k : String} :
    k ∈ (r.addNamed n).named ↔ k ∈ r.named ∨ k = n := by
  unfold addNamed
  split
  · next h =>
    constructor
    · exact .inl
    · intro hk
      obtain hk | rfl := hk
      · exact hk
      · simpa using h
  · simp

@[simp] theorem named_addImport (r : Records) (p : String) : (r.addImport p).named = r.named := by
  unfold addImport
  split <;> rfl

@[simp] theorem imports_addNamed (r : Records) (n : String) :
    (r.addNamed n).imports = r.imports := by
  unfold addNamed
  split <;> rfl

theorem le_addImport (r : Records) (p : String) : r.Le (r.addImport p) :=
  ⟨fun _ h => mem_addImport.2 (.inl h), by simp, by simp⟩

theorem nodup_addNamed {r : Records} (h : r.named.Nodup) (n : String) :
    (r.addNamed n).named.Nodup := by
  unfold addNamed
  split
  · exact h
  · next hn =>
    have hnot : n ∉ r.named := by simpa using hn
    exact List.nodup_append.2 ⟨h, by simp, by simpa using fun k hk => ne_of_mem_of_not_mem hk hnot⟩

theorem le_addNamed (r : Records) (n : String) : r.Le (r.addNamed n) :=
  ⟨by simp, fun _ h => mem_addNamed.2 (.inl h), fun h => nodup_addNamed h n⟩

end Records

/-! ### Words -/

/-- The types that the language has names for. -/
def typeWords : List String :=
  ["bool", "int8", "int16", "int32", "int64", "uint8", "uint16", "uint32", "uint64", "uintptr",
    "float32", "float64", "interface\x7b\x7d"]

/-- The values that the language has names for. -/
def valueWords : List String := ["true", "false", "nil"]

/-- The functions that the language has names for. -/
def callWords : List String := ["new", "panic"]

/-- The packages that are used. -/
def packageWords : List String := ["unsafe", "math"]

/-! ### Types, values, statements and declarations -/

variable {r r' : Records} {V V' : String → Prop}

/-- The type of some names. -/
def fieldType : FieldDecl → Expr
  | .mk _ type => type

/-- A type expression. -/
inductive TypeForm (r : Records) : Expr → Prop
  | word {n : String} (h : n ∈ typeWords) : TypeForm r (.ident n)
  | named {n : String} (h : n ∈ r.named) : TypeForm r (.ident (goName n))
  | unsafePointer (h : "unsafe" ∈ r.imports) : TypeForm r unsafePointer
  | paren {t : Expr} (h : TypeForm r t) : TypeForm r (.paren t)
  | star {t : Expr} (h : TypeForm r t) : TypeForm r (.star t)
  | array {count : Int} {t : Expr} (h : TypeForm r t) : TypeForm r (goArray count t)
  | struct {fields : List FieldDecl} (h : ∀ f ∈ fields, TypeForm r (fieldType f)) :
      TypeForm r (.struct fields)
  | func {params results : List FieldDecl} (hp : ∀ f ∈ params, TypeForm r (fieldType f))
      (hr : ∀ f ∈ results, TypeForm r (fieldType f)) : TypeForm r (.func params results)
  | variadic : TypeForm r variadicType

/-- An expression for a value. -/
inductive ValueForm (V : String → Prop) (r : Records) : Expr → Prop
  | name {n : String} (h : V n) : ValueForm V r (.ident n)
  | word {n : String} (h : n ∈ valueWords) : ValueForm V r (.ident n)
  | lit {kind : Go.LitKind} {text : String} : ValueForm V r (.lit kind text)
  | composite {t : Expr} {xs : List Expr} (ht : TypeForm r t) (hxs : ∀ x ∈ xs, ValueForm V r x) :
      ValueForm V r (.composite t xs)
  | paren {x : Expr} (h : ValueForm V r x) : ValueForm V r (.paren x)
  | star {x : Expr} (h : ValueForm V r x) : ValueForm V r (.star x)
  | unary {op : Go.UnaryOp} {x : Expr} (h : ValueForm V r x) : ValueForm V r (.unary op x)
  | binary {op : Go.BinaryOp} {x y : Expr} (hx : ValueForm V r x) (hy : ValueForm V r y) :
      ValueForm V r (.binary x op y)
  | call {f : Expr} {xs : List Expr} (hf : ValueForm V r f) (hxs : ∀ x ∈ xs, ValueForm V r x) :
      ValueForm V r (.call f xs)
  /-- A value of another type. -/
  | convert {t x : Expr} (ht : TypeForm r t) (hx : ValueForm V r x) :
      ValueForm V r (.call t [x])
  | new {t : Expr} (ht : TypeForm r t) : ValueForm V r (callNamed "new" [t])
  | panic {x : Expr} (hx : ValueForm V r x) : ValueForm V r (callNamed "panic" [x])
  | math {sel : String} {xs : List Expr} (h : "math" ∈ r.imports)
      (hxs : ∀ x ∈ xs, ValueForm V r x) :
      ValueForm V r (.call (.selector (.ident "math") sel) xs)

/-- A statement. -/
inductive StmtForm (V : String → Prop) (r : Records) : Stmt → Prop
  | assign {lhs rhs : List Expr} (hl : ∀ x ∈ lhs, ValueForm V r x)
      (hr : ∀ x ∈ rhs, ValueForm V r x) : StmtForm V r (.assign lhs "=" rhs)
  | expr {x : Expr} (h : ValueForm V r x) : StmtForm V r (.expr x)
  | block {body : List Stmt} (h : ∀ s ∈ body, StmtForm V r s) : StmtForm V r (.block body)
  | ifElse {cond : Expr} {body : List Stmt} {orElse : Option Stmt} (hc : ValueForm V r cond)
      (hb : ∀ s ∈ body, StmtForm V r s) (ho : ∀ s ∈ orElse, StmtForm V r s) :
      StmtForm V r (.ifElse cond body orElse)
  | loop {cond : Option Expr} {body : List Stmt} (hc : ∀ x ∈ cond, ValueForm V r x)
      (hb : ∀ s ∈ body, StmtForm V r s) : StmtForm V r (.loop cond body)
  | branch {tok : String} : StmtForm V r (.branch tok)
  | ret {xs : List Expr} (h : ∀ x ∈ xs, ValueForm V r x) : StmtForm V r (.ret xs)

/-- The declaration of a variable, without a value. -/
inductive VarForm (r : Records) : Stmt → Prop
  | var {name : String} {t : Expr} (ht : TypeForm r t) : VarForm r (.decl (varDecl name t []))

/-- A declaration. The name of a type is that of a struct that may be mentioned, and a function
declares its variables before anything else. -/
inductive DeclForm (V : String → Prop) (r : Records) : Decl → Prop
  | struct {name : String} {t : Expr} (h : name ∈ r.named) (ht : TypeForm r t) :
      DeclForm V r (.gen { tok := "type", specs := [.typeDef (goName name) t] })
  | global {name : String} {t : Expr} {xs : List Expr} (ht : TypeForm r t)
      (hxs : ∀ x ∈ xs, ValueForm V r x) : DeclForm V r (.gen (varDecl name t xs))
  | func {d : Go.FuncDecl} {vars code : List Stmt}
      (hp : ∀ f ∈ d.type.params, TypeForm r (fieldType f))
      (hr : ∀ f ∈ d.type.results, TypeForm r (fieldType f))
      (hbody : d.body.getD [] = vars ++ code) (hvars : ∀ s ∈ vars, VarForm r s)
      (hcode : ∀ s ∈ code, StmtForm V r s) : DeclForm V r (.func d)

/-! ### More may be used -/

theorem TypeForm.mono {t : Expr} (h : TypeForm r t) (hr : r.Le r') : TypeForm r' t := by
  induction h with
  | word h => exact .word h
  | named h => exact .named (hr.named h)
  | unsafePointer h => exact .unsafePointer (hr.imports h)
  | paren _ ih => exact .paren ih
  | star _ ih => exact .star ih
  | array _ ih => exact .array ih
  | struct _ ih => exact .struct ih
  | func _ _ ihp ihr => exact .func ihp ihr
  | variadic => exact .variadic

theorem ValueForm.mono {x : Expr} (h : ValueForm V r x) (hV : ∀ n, V n → V' n)
    (hr : r.Le r') : ValueForm V' r' x := by
  induction h with
  | name h => exact .name (hV _ h)
  | word h => exact .word h
  | lit => exact .lit
  | composite ht _ ih => exact .composite (ht.mono hr) ih
  | paren _ ih => exact .paren ih
  | star _ ih => exact .star ih
  | unary _ ih => exact .unary ih
  | binary _ _ ihx ihy => exact .binary ihx ihy
  | call _ _ ihf ihxs => exact .call ihf ihxs
  | convert ht _ ih => exact .convert (ht.mono hr) ih
  | new ht => exact .new (ht.mono hr)
  | panic _ ih => exact .panic ih
  | math h _ ih => exact .math (hr.imports h) ih

theorem StmtForm.mono {s : Stmt} (h : StmtForm V r s) (hV : ∀ n, V n → V' n)
    (hr : r.Le r') : StmtForm V' r' s := by
  induction h with
  | assign hl hr' =>
    exact .assign (fun x hx => (hl x hx).mono hV hr) fun x hx => (hr' x hx).mono hV hr
  | expr h => exact .expr (h.mono hV hr)
  | block _ ih => exact .block ih
  | ifElse hc _ _ ihb iho => exact .ifElse (hc.mono hV hr) ihb iho
  | loop hc _ ih => exact .loop (fun x hx => (hc x hx).mono hV hr) ih
  | branch => exact .branch
  | ret h => exact .ret fun x hx => (h x hx).mono hV hr

theorem VarForm.mono {s : Stmt} (h : VarForm r s) (hr : r.Le r') : VarForm r' s := by
  cases h with
  | var ht => exact .var (ht.mono hr)

theorem DeclForm.mono {d : Decl} (h : DeclForm V r d) (hV : ∀ n, V n → V' n)
    (hr : r.Le r') : DeclForm V' r' d := by
  cases h with
  | struct h ht => exact .struct (hr.named h) (ht.mono hr)
  | global ht hxs => exact .global (ht.mono hr) fun x hx => (hxs x hx).mono hV hr
  | func hp hr' hbody hvars hcode =>
    exact .func (fun f hf => (hp f hf).mono hr) (fun f hf => (hr' f hf).mono hr) hbody
      (fun s hs => (hvars s hs).mono hr) fun s hs => (hcode s hs).mono hV hr

/-- The negation of a value is a value. -/
theorem ValueForm.negate {x : Expr} (h : ValueForm V r x) : ValueForm V r x.negate := by
  unfold Go.Expr.negate
  split
  · cases h with
    | unary h =>
      cases h with
      | paren h => exact h
  · cases h with
    | unary h => exact h
  · exact .unary h
  · exact .unary h
  · exact .unary h
  · exact .unary h
  · exact .unary (.paren h)

/-! ### Parts -/

/-- What code can be made of. -/
inductive PartForm (V : String → Prop) (r : Records) : Expr → Prop
  | type {t : Expr} (h : TypeForm r t) : PartForm V r t
  | value {x : Expr} (h : ValueForm V r x) : PartForm V r x
  | word {n : String} (h : n ∈ callWords) : PartForm V r (.ident n)
  | package {n : String} (hn : n ∈ packageWords) (h : n ∈ r.imports) : PartForm V r (.ident n)
  | selector {n sel : String} (hn : n ∈ packageWords) (h : n ∈ r.imports) :
      PartForm V r (.selector (.ident n) sel)

theorem TypeForm.part {t y : Expr} (h : TypeForm r t) (hy : y ∈ t.parts) : PartForm V r y := by
  induction h with
  | word h =>
    obtain rfl := List.mem_singleton.1 hy
    exact .type (.word h)
  | named h =>
    obtain rfl := List.mem_singleton.1 hy
    exact .type (.named h)
  | unsafePointer h =>
    simp only [GoLift.unsafePointer, Go.Expr.parts, List.mem_cons, List.not_mem_nil,
      or_false] at hy
    obtain rfl | rfl := hy
    · exact .type (.unsafePointer h)
    · exact .package (by decide) h
  | paren h ih =>
    obtain rfl | hy := List.mem_cons.1 hy
    · exact .type (.paren h)
    · exact ih hy
  | star h ih =>
    obtain rfl | hy := List.mem_cons.1 hy
    · exact .type (.star h)
    · exact ih hy
  | array h ih =>
    simp only [goArray, Go.Expr.parts, List.mem_cons, List.mem_append, List.not_mem_nil,
      or_false] at hy
    obtain rfl | rfl | hy := hy
    · exact .type (.array h)
    · exact .value .lit
    · exact ih hy
  | struct h ih =>
    obtain rfl | hy := List.mem_cons.1 hy
    · exact .type (.struct h)
    · obtain ⟨f, hf, hy⟩ := Go.mem_partsOf_fields.1 hy
      cases f
      exact ih _ hf hy
  | func hp hr ihp ihr =>
    obtain rfl | hy := List.mem_cons.1 hy
    · exact .type (.func hp hr)
    · obtain hy | hy := List.mem_append.1 hy <;> obtain ⟨f, hf, hy⟩ := Go.mem_partsOf_fields.1 hy <;>
        cases f
      · exact ihp _ hf hy
      · exact ihr _ hf hy
  | variadic =>
    simp only [variadicType, Go.Expr.parts, List.mem_cons, List.not_mem_nil, or_false] at hy
    obtain rfl | rfl := hy
    · exact .type .variadic
    · exact .type (.word (by decide))

theorem ValueForm.part {x y : Expr} (h : ValueForm V r x) (hy : y ∈ x.parts) :
    PartForm V r y := by
  induction h with
  | name h =>
    obtain rfl := List.mem_singleton.1 hy
    exact .value (.name h)
  | word h =>
    obtain rfl := List.mem_singleton.1 hy
    exact .value (.word h)
  | lit =>
    obtain rfl := List.mem_singleton.1 hy
    exact .value .lit
  | composite ht hxs ih =>
    obtain rfl | hy := List.mem_cons.1 hy
    · exact .value (.composite ht hxs)
    · obtain hy | hy := List.mem_append.1 hy
      · exact ht.part hy
      · obtain ⟨x, hx, hy⟩ := Go.mem_partsOf.1 hy
        exact ih x hx hy
  | paren h ih =>
    obtain rfl | hy := List.mem_cons.1 hy
    · exact .value (.paren h)
    · exact ih hy
  | star h ih =>
    obtain rfl | hy := List.mem_cons.1 hy
    · exact .value (.star h)
    · exact ih hy
  | unary h ih =>
    obtain rfl | hy := List.mem_cons.1 hy
    · exact .value (.unary h)
    · exact ih hy
  | binary hx hy' ihx ihy =>
    obtain rfl | hy := List.mem_cons.1 hy
    · exact .value (.binary hx hy')
    · exact (List.mem_append.1 hy).elim ihx ihy
  | call hf hxs ihf ihxs =>
    obtain rfl | hy := List.mem_cons.1 hy
    · exact .value (.call hf hxs)
    · obtain hy | hy := List.mem_append.1 hy
      · exact ihf hy
      · obtain ⟨x, hx, hy⟩ := Go.mem_partsOf.1 hy
        exact ihxs x hx hy
  | convert ht hx ih =>
    obtain rfl | hy := List.mem_cons.1 hy
    · exact .value (.convert ht hx)
    · obtain hy | hy := List.mem_append.1 hy
      · exact ht.part hy
      · exact ih (by simpa [Go.Expr.partsOf] using hy)
  | new ht =>
    obtain rfl | hy := List.mem_cons.1 hy
    · exact .value (.new ht)
    · obtain hy | hy := List.mem_append.1 hy
      · obtain rfl := List.mem_singleton.1 hy
        exact .word (by decide)
      · exact ht.part (by simpa [Go.Expr.partsOf] using hy)
  | panic hx ih =>
    obtain rfl | hy := List.mem_cons.1 hy
    · exact .value (.panic hx)
    · obtain hy | hy := List.mem_append.1 hy
      · obtain rfl := List.mem_singleton.1 hy
        exact .word (by decide)
      · exact ih (by simpa [Go.Expr.partsOf] using hy)
  | math h hxs ih =>
    obtain rfl | hy := List.mem_cons.1 hy
    · exact .value (.math h hxs)
    · obtain hy | hy := List.mem_append.1 hy
      · simp only [Go.Expr.parts, List.mem_cons, List.not_mem_nil, or_false] at hy
        obtain rfl | rfl := hy
        · exact .selector (by decide) h
        · exact .package (by decide) h
      · obtain ⟨x, hx, hy⟩ := Go.mem_partsOf.1 hy
        exact ih x hx hy

theorem part_of_values {xs : List Expr} {y : Expr} (h : ∀ x ∈ xs, ValueForm V r x)
    (hy : y ∈ Go.Expr.partsOf xs) : PartForm V r y := by
  obtain ⟨x, hx, hy⟩ := Go.mem_partsOf.1 hy
  exact (h x hx).part hy

theorem part_of_fields {fs : List FieldDecl} {y : Expr} (h : ∀ f ∈ fs, TypeForm r (fieldType f))
    (hy : y ∈ FieldDecl.partsOf fs) : PartForm V r y := by
  obtain ⟨f, hf, hy⟩ := Go.mem_partsOf_fields.1 hy
  cases f
  exact (h _ hf).part hy

theorem part_of_varDecl {name : String} {t y : Expr} {xs : List Expr} (ht : TypeForm r t)
    (hxs : ∀ x ∈ xs, ValueForm V r x) (hy : y ∈ (varDecl name t xs).parts) :
    PartForm V r y := by
  simp only [varDecl, Go.GenDecl.parts, List.flatMap_cons, List.flatMap_nil, List.append_nil,
    Go.Spec.parts, Option.toList_some, List.mem_append] at hy
  obtain hy | hy := hy
  · exact ht.part (by simpa [Go.Expr.partsOf] using hy)
  · exact part_of_values hxs hy

theorem StmtForm.part {s : Stmt} {y : Expr} (h : StmtForm V r s) (hy : y ∈ s.parts) :
    PartForm V r y := by
  induction h with
  | assign hl hr =>
    exact (List.mem_append.1 hy).elim (part_of_values hl) (part_of_values hr)
  | expr h => exact h.part hy
  | block _ ih =>
    obtain ⟨s, hs, hy⟩ := Go.mem_partsOf_stmts.1 hy
    exact ih s hs hy
  | ifElse hc _ _ ihb iho =>
    simp only [Go.Stmt.parts, List.mem_append, Go.mem_partsOf_stmts, Go.mem_elseParts] at hy
    obtain hy | ⟨s, hs, hy⟩ | ⟨s, hs, hy⟩ := hy
    · exact hc.part hy
    · exact ihb s hs hy
    · exact iho s hs hy
  | loop hc _ ih =>
    simp only [Go.Stmt.parts, List.mem_append, Go.mem_partsOf_stmts, Go.mem_partsOf,
      Option.mem_toList] at hy
    obtain ⟨x, hx, hy⟩ | ⟨s, hs, hy⟩ := hy
    · exact (hc x hx).part hy
    · exact ih s hs hy
  | branch => cases hy
  | ret h => exact part_of_values h hy

/-- **What emitted code is made of**: types, values and words. -/
theorem DeclForm.part {d : Decl} {y : Expr} (h : DeclForm V r d) (hy : y ∈ d.parts) :
    PartForm V r y := by
  cases h with
  | struct _ ht => exact ht.part (by simpa [Decl.parts, Go.GenDecl.parts, Go.Spec.parts] using hy)
  | global ht hxs => exact part_of_varDecl ht hxs hy
  | func hp hr hbody hvars hcode =>
    simp only [Decl.parts, Go.FuncDecl.parts, hbody, List.mem_append, Go.mem_partsOf_stmts] at hy
    obtain (hy | hy) | ⟨s, hs | hs, hy⟩ := hy
    · exact part_of_fields hp hy
    · exact part_of_fields hr hy
    · cases hvars s hs with
      | var ht => exact part_of_varDecl ht (by simp) hy
    · exact (hcode s hs).part hy

/-- Code declares no names. -/
theorem StmtForm.declares {s : Stmt} (h : StmtForm V r s) : s.declares = [] := by
  induction h with
  | assign | expr | branch | ret => rfl
  | block _ ih =>
    rw [Go.Stmt.declares, Go.declaresIn_eq]
    exact List.flatMap_eq_nil_iff.2 ih
  | @ifElse _ _ orElse _ _ _ ihb iho =>
    rw [Go.Stmt.declares, Go.declaresIn_eq, List.flatMap_eq_nil_iff.2 ihb, List.nil_append]
    cases orElse with
    | none => rfl
    | some s => exact iho s rfl
  | loop _ _ ih =>
    rw [Go.Stmt.declares, Go.declaresIn_eq]
    exact List.flatMap_eq_nil_iff.2 ih

/-- What is selected, is selected from a package that is imported. -/
theorem PartForm.selector_imported {p sel : String} (h : PartForm V r (.selector (.ident p) sel)) :
    p ∈ r.imports := by
  cases h with
  | type h =>
    cases h with
    | unsafePointer h => exact h
  | value h => cases h
  | selector _ h => exact h

/-- The identifiers of emitted code. -/
theorem PartForm.ident {n : String} (h : PartForm V r (.ident n)) :
    V n ∨ (∃ s ∈ r.named, n = goName s) ∨ n ∈ typeWords ++ valueWords ++ callWords ∨
      n ∈ packageWords ∧ n ∈ r.imports := by
  cases h with
  | type h =>
    cases h with
    | word h => exact .inr (.inr (.inl (by simp [h])))
    | named h => exact .inr (.inl ⟨_, h, rfl⟩)
  | value h =>
    cases h with
    | name h => exact .inl h
    | word h => exact .inr (.inr (.inl (by simp [h])))
  | word h => exact .inr (.inr (.inl (by simp [h])))
  | package hn h => exact .inr (.inr (.inr ⟨hn, h⟩))

end GoLift
