import GoLift.Proofs.Go.Parallel
import GoLift.Proofs.Lower.Code
import GoLift.Proofs.Phi.Copies

/-!
# A buffer assigns all at once

The statements of a buffer come in two forms (`Buffered`), and for both the result is
the same: **evaluate all values, then assign them to the destinations**, apart from the
temporaries that the second form needs.

For this the destinations have to be different, and no value but a local may read what
the buffer assigns (`Value.Apart`); it is enough that it reads no variable of the
function at all (`Value.Clear`). The test for conflicts looks at locals only: an
identifier of a constant, `true` say, that is also that of a binding goes unnoticed.
-/

set_option autoImplicit false

namespace GoLift

open Go (Expr Stmt Host Env Action State Capture sets captured Acts acts_sets acts_captured)
open DraftM

/-! ### What copies are lowered to -/

/-- A local that has an identifier is lowered to it. -/
theorem lower_localRef_of_local? {scope : Scope} {name x : String} {D : Draft}
    (h : D.names.local? name = some x) (type : Ty) :
    ((Value.localRef name type).lower scope D).1 = .ok (.ident x) := by
  rw [Value.lower]
  change Except.ok (Expr.ident (D.names.bind name).1) = _
  rw [NameTable.bind_of_local? h]

/-- A copy is lowered to an assignment of an expression to a variable. -/
structure Copy.Lowers (scope : Scope) (D : Draft) (c : Copy) (a : String × Expr) : Prop where
  dest : D.names.local? c.dest = some a.1
  value : Gives (c.value.lower scope) D a.2

theorem Copy.Lowers.mono {scope : Scope} {D D' : Draft} {c : Copy} {a : String × Expr}
    (h : c.Lowers scope D a) (hD : D ≤ D') : c.Lowers scope D' a :=
  ⟨hD.local? h.dest, h.value.mono hD⟩

theorem lowers_mono {scope : Scope} {D D' : Draft} {cs : List Copy} {as : List (String × Expr)}
    (h : List.Forall₂ (Copy.Lowers scope D) cs as) (hD : D ≤ D') :
    List.Forall₂ (Copy.Lowers scope D') cs as :=
  h.imp fun _ _ hc => hc.mono hD

/-- The two forms of a buffer. -/
structure Buffered (scope : Scope) (D : Draft) (copies : List Copy) (as : List (String × Expr))
    (ss : List Stmt) : Prop where
  lowers : List.Forall₂ (Copy.Lowers scope D) copies as
  form : (conflicting copies = false ∧ ss = sets as) ∨
    ∃ cs : List Capture, as = cs.map (fun c => (c.dest, c.value)) ∧ ss = captured cs ∧
      (cs.map Capture.temporary).Nodup ∧ ∀ c ∈ cs, D.names.Reserved c.temporary

theorem Buffered.mono {scope : Scope} {D D' : Draft} {copies : List Copy}
    {as : List (String × Expr)} {ss : List Stmt} (h : Buffered scope D copies as ss)
    (hD : D ≤ D') : Buffered scope D' copies as ss := by
  refine ⟨lowers_mono h.lowers hD, h.form.imp id ?_⟩
  rintro ⟨cs, has, hss, hnodup, hreserved⟩
  exact ⟨cs, has, hss, hnodup, fun c hc => (hreserved c hc).mono hD⟩

/-! ### The forms come out of the definitions -/

theorem directCopies_ok {scope : Scope} {cs : List Copy} {d d' : Draft} {ss : List Stmt}
    (h : directCopies scope cs d = (.ok ss, d')) :
    ∃ as, ss = sets as ∧ List.Forall₂ (Copy.Lowers scope d') cs as := by
  induction cs generalizing d ss with
  | nil =>
    cases h
    exact ⟨[], rfl, .nil⟩
  | cons c cs ih =>
    obtain ⟨x, d₁, hx, h⟩ := bind_ok h
    obtain ⟨e, d₂, he, h⟩ := bind_ok h
    obtain ⟨rest, d₃, hrest, h⟩ := bind_ok h
    cases h
    obtain ⟨as, rfl, has⟩ := ih hrest
    have hd₂ : d₂ ≤ d' := (grows_directCopies scope cs).apply hrest
    have hd₁ : d₁ ≤ d' := ((steady_lower scope c.value).grows.apply he).trans hd₂
    obtain ⟨y, hy, rfl⟩ := gives_localVar ((Gives.of_apply hx).mono hd₁)
    exact ⟨(y, e) :: as, rfl, .cons ⟨hy, (Gives.of_apply he).mono hd₂⟩ has⟩

/-- The result of capturing a value. -/
def captureOf (k : Copy × String × Expr) : Copy × String × Stmt :=
  (k.1, k.2.1, .set (.ident k.2.1) k.2.2)

theorem captures_ok {scope : Scope} {cs : List Copy} {d d' : Draft}
    {caps : List (Copy × String × Stmt)} (hd : d.names.Sound)
    (h : captures scope cs d = (.ok caps, d')) :
    ∃ ks : List (Copy × String × Expr), caps = ks.map captureOf ∧ ks.map Prod.fst = cs ∧
      (∀ k ∈ ks, Gives (k.1.value.lower scope) d' k.2.2 ∧ d'.names.Reserved k.2.1 ∧
        k.2.1 ∉ d.names.used) ∧ (ks.map (·.2.1)).Nodup := by
  induction cs generalizing d caps with
  | nil =>
    cases h
    exact ⟨[], rfl, rfl, by simp, by simp⟩
  | cons c cs ih =>
    obtain ⟨tmp, d₁, htmp, h⟩ := bind_ok h
    obtain ⟨e, d₂, he, h⟩ := bind_ok h
    obtain ⟨rest, d₃, hrest, h⟩ := bind_ok h
    cases h
    have hd₁ : d ≤ d₁ := (grows_temporary c.type).apply htmp
    have hd₂ : d₁ ≤ d₂ := (steady_lower scope c.value).grows.apply he
    have hd₃ : d₂ ≤ d' := (grows_captures scope cs).apply hrest
    obtain ⟨ks, rfl, rfl, hks, hnodup⟩ := ih (hd₂.sound (hd₁.sound hd)) hrest
    have hnew : d₁.names.Reserved tmp ∧ tmp ∉ d.names.used := by
      cases htmp
      exact ⟨NameTable.reserved_fresh hd "tmp", d.names.fresh_not_mem "tmp"⟩
    refine ⟨(c, tmp, e) :: ks, rfl, rfl, ?_, List.nodup_cons.2 ⟨?_, hnodup⟩⟩
    · intro k hk
      rcases List.mem_cons.1 hk with rfl | hk
      · exact ⟨(Gives.of_apply he).mono hd₃, hnew.1.mono (hd₂.trans hd₃), hnew.2⟩
      · obtain ⟨hgives, hreserved, hused⟩ := hks k hk
        exact ⟨hgives, hreserved, fun hmem => hused (hd₂.used (hd₁.used hmem))⟩
    · -- A later temporary is not taken when it is made; this one is.
      intro hmem
      obtain ⟨k, hk, heq⟩ := List.mem_map.1 hmem
      exact (hks k hk).2.2 (hd₂.used (heq ▸ hnew.1.used))

theorem releases_ok {ks : List (Copy × String × Expr)} {d d' : Draft} {ss : List Stmt}
    (h : releases (ks.map captureOf) d = (.ok ss, d')) :
    ∃ cs : List Capture, ss = sets (cs.map fun c => (c.dest, .ident c.temporary)) ∧
      List.Forall₂ (fun (k : Copy × String × Expr) (c : Capture) =>
        d'.names.local? k.1.dest = some c.dest ∧ c.temporary = k.2.1 ∧ c.value = k.2.2) ks cs := by
  induction ks generalizing d ss with
  | nil =>
    cases h
    exact ⟨[], rfl, .nil⟩
  | cons k ks ih =>
    obtain ⟨x, d₁, hx, h⟩ := bind_ok h
    obtain ⟨rest, d₂, hrest, h⟩ := bind_ok h
    cases h
    obtain ⟨cs, rfl, hcs⟩ := ih hrest
    obtain ⟨y, hy, rfl⟩ := gives_localVar ((Gives.of_apply hx).mono ((grows_releases _).apply hrest))
    exact ⟨⟨y, k.2.1, k.2.2⟩ :: cs, rfl, .cons ⟨hy, rfl, rfl⟩ hcs⟩

/-- **A buffer has one of the two forms.** -/
theorem bufferOf_ok {scope : Scope} {label : String} {copies : List Copy} {d d' : Draft}
    {ss : List Stmt} (hd : d.names.Sound) (h : bufferOf scope label copies d = (.ok ss, d')) :
    ∃ as, Buffered scope d' copies as ss := by
  unfold bufferOf at h
  split at h
  · obtain ⟨u, d₁, htell, h⟩ := bind_ok h
    obtain ⟨caps, d₂, hcaps, h⟩ := bind_ok h
    obtain ⟨rel, d₃, hrel, h⟩ := bind_ok h
    cases h
    have hd₁ : d₁.names.Sound := ((grows_tell _).apply htell).sound hd
    obtain ⟨ks, rfl, hfst, hks, hnodup⟩ := captures_ok hd₁ hcaps
    have hd₂ : d₂ ≤ d' := (grows_releases _).apply hrel
    obtain ⟨cs, rfl, hcs⟩ := releases_ok hrel
    have htemps : cs.map Capture.temporary = ks.map (·.2.1) :=
      forall₂_map_eq (hcs.imp fun _ _ h => h.2.1)
    refine ⟨cs.map fun c => (c.dest, c.value), ?_, .inr ⟨cs, rfl, ?_, htemps ▸ hnodup, ?_⟩⟩
    · rw [← hfst, List.forall₂_map_left_iff, List.forall₂_map_right_iff]
      refine ((List.forall₂_and_left _ _).2 ⟨fun k hk => (hks k hk).1, hcs⟩).imp ?_
      rintro k c ⟨hgives, hdest, -, hvalue⟩
      exact ⟨hdest, hvalue ▸ hgives.mono hd₂⟩
    · have hfirst : (cs.map fun c => Stmt.set (.ident c.temporary) c.value) =
          ks.map fun k => Stmt.set (.ident k.2.1) k.2.2 :=
        forall₂_map_eq (hcs.imp fun _ _ h => by rw [h.2.1, h.2.2])
      simp only [captured, sets, List.map_map, Function.comp_def, captureOf, hfirst]
    · intro c hc
      obtain ⟨k, hk, heq⟩ := List.mem_map.1 (htemps ▸ List.mem_map_of_mem hc)
      exact heq ▸ (hks k hk).2.1.mono hd₂
  · next hconflict =>
    obtain ⟨as, rfl, has⟩ := directCopies_ok h
    exact ⟨as, has, .inl ⟨by simpa using hconflict, rfl⟩⟩

/-! ### Buffers of a body -/

theorem buffersOf_ok {scope : Scope} {entries : List (String × List Copy)} {d d' : Draft}
    {bs : List (String × List Stmt)} (hd : d.names.Sound)
    (h : buffersOf scope entries d = (.ok bs, d')) :
    List.Forall₂ (fun e b => b.1 = e.1 ∧ ∃ as, Buffered scope d' e.2 as b.2) entries bs := by
  induction entries generalizing d bs with
  | nil =>
    cases h
    exact .nil
  | cons entry entries ih =>
    obtain ⟨label, copies⟩ := entry
    obtain ⟨buffer, d₁, hbuffer, h⟩ := bind_ok h
    obtain ⟨rest, d₂, hrest, h⟩ := bind_ok h
    cases h
    have hd₁ : d ≤ d₁ := (grows_bufferOf scope label copies).apply hbuffer
    obtain ⟨as, has⟩ := bufferOf_ok hd hbuffer
    exact .cons ⟨rfl, as, has.mono ((grows_buffersOf scope entries).apply hrest)⟩
      (ih (hd₁.sound hd) hrest)

/-- Looking up a key in two lists of entries with the same keys. -/
theorem lookup_of_forall₂ {α β : Type} {R : α → β → Prop} {es : List (String × α)}
    {bs : List (String × β)} (h : List.Forall₂ (fun e b => b.1 = e.1 ∧ R e.2 b.2) es bs)
    {k : String} {a : α} (hk : es.lookup k = some a) : ∃ b, bs.lookup k = some b ∧ R a b := by
  induction h with
  | nil => cases hk
  | @cons e b es bs heb _ ih =>
    rw [Table.lookup_cons] at hk ⊢
    rw [heb.1]
    split at hk
    · next hkey =>
      cases hk
      exact ⟨b.2, by rw [if_pos hkey], heb.2⟩
    · next hkey =>
      rw [if_neg hkey]
      exact ih hk

/-- **Every block of a body has a buffer, of the copies that it makes.** -/
theorem phiBuffers_ok {scope : Scope} {blocks : List Block}
    (hnames : (blocks.map Block.name).Nodup) {d d' : Draft} {buffers : Table (List Stmt)}
    (hd : d.names.Sound) (h : phiBuffers scope blocks d = (.ok buffers, d')) :
    ∃ copies, CopiesOf blocks copies ∧
      ∀ p ∈ blocks, ∃ as ss, buffers.get? p.name = some ss ∧
        Buffered scope d' (p.copies blocks) as ss := by
  rcases hcopies : phiCopies blocks with f | copies <;> rw [phiBuffers, hcopies] at h
  · cases h
  obtain ⟨bs, d₁, hbs, h⟩ := bind_ok h
  cases h
  have hof := phiCopies_ok hnames hcopies
  refine ⟨copies, hof, fun p hp => ?_⟩
  obtain ⟨ss, hss, as, hbuffered⟩ := lookup_of_forall₂
    (R := fun cs ss => ∃ as, Buffered scope d' cs as ss) (buffersOf_ok hd hbs) (hof.get p hp)
  exact ⟨as, ss, hss, hbuffered⟩

/-! ### What a buffer does -/

/-- A value that is no local reads none of some variables. -/
def Value.Apart (scope : Scope) (D : Draft) (X : String → Prop) (v : Value) : Prop :=
  match v with
  | .localRef .. => True
  | v => ∀ e, (v.lower scope D).1 = .ok e → ∀ x ∈ e.idents, ¬ X x

/-- A value that is no local reads no variable of the function. -/
def Value.Clear (scope : Scope) (D : Draft) (v : Value) : Prop :=
  match v with
  | .localRef .. => True
  | v => ∀ e, (v.lower scope D).1 = .ok e → ∀ x ∈ e.idents, x ∉ D.names.used

/-- A variable that a buffer may assign: one that is made for it, or that of a
destination. -/
def Assigned (D : Draft) (copies : List Copy) (x : String) : Prop :=
  D.names.Reserved x ∨ ∃ c ∈ copies, D.names.local? c.dest = some x

section

variable {scope : Scope} {D : Draft} {X : String → Prop} {v : Value} {e : Expr}
  {copies : List Copy} {as : List (String × Expr)} {ss : List Stmt}

/-- An expression of a value reads the variable of a local, or none that the value is apart
from. -/
theorem Value.Apart.idents (h : v.Apart scope D X) (he : Gives (v.lower scope) D e) :
    (∃ name type x, v = .localRef name type ∧ D.names.local? name = some x ∧ e = .ident x) ∨
      ∀ x ∈ e.idents, ¬ X x := by
  cases v with
  | localRef name type =>
    obtain ⟨x, hx, rfl⟩ := gives_lower_localRef he
    exact .inl ⟨name, type, x, rfl, hx, rfl⟩
  | globalRef name type => exact .inr (h e (he.now (steady_lower scope _)))
  | const type p => exact .inr (h e (he.now (steady_lower scope _)))

/-- A value is apart from fewer variables. -/
theorem Value.Apart.mono {Y : String → Prop} (h : v.Apart scope D X) (hY : ∀ x, Y x → X x) :
    v.Apart scope D Y := by
  cases v with
  | localRef name type => trivial
  | globalRef name type => exact fun e he x hx hx' => h e he x hx (hY x hx')
  | const type p => exact fun e he x hx hx' => h e he x hx (hY x hx')

/-- A clear value is apart from all variables of the function. -/
theorem Value.Clear.apart (h : v.Clear scope D) : v.Apart scope D (· ∈ D.names.used) := by
  cases v <;> exact h

/-- An expression of a clear value reads the variable of a local, or none. -/
theorem Value.Clear.idents (h : v.Clear scope D) (he : Gives (v.lower scope) D e) :
    (∃ name type x, v = .localRef name type ∧ D.names.local? name = some x ∧ e = .ident x) ∨
      ∀ x ∈ e.idents, x ∉ D.names.used :=
  h.apart.idents he

/-- Nothing is assigned but variables of the function. -/
theorem Assigned.mem_used {x : String} (h : Assigned D copies x) (hD : D.names.Sound) :
    x ∈ D.names.used := by
  rcases h with hreserved | ⟨c, -, hc⟩
  · exact hreserved.used
  · exact hD.mem_used hc

/-- No value that is apart from what is assigned reads a reserved identifier. -/
theorem Value.Apart.not_mem_of_reserved (h : v.Apart scope D (Assigned D copies))
    (he : Gives (v.lower scope) D e) {x : String} (hx : D.names.Reserved x) : x ∉ e.idents := by
  rcases h.idents he with ⟨name, type, y, -, hy, rfl⟩ | hapart
  · rw [Expr.idents, List.mem_singleton]
    rintro rfl
    exact hx.unbound name hy
  · exact fun hmem => hapart x hmem (.inl hx)

/-- Without a conflict, no value reads what another copy writes. -/
theorem not_mem_of_not_conflicting (hD : D.names.Sound) (hconflict : conflicting copies = false)
    {c c' : Copy} (hc : c ∈ copies) (hc' : c' ∈ copies) (hne : c.dest ≠ c'.dest)
    (hapart : c'.value.Apart scope D (Assigned D copies)) {a a' : String × Expr}
    (ha : c.Lowers scope D a) (ha' : c'.Lowers scope D a') : a.1 ∉ a'.2.idents := by
  rcases hapart.idents ha'.value with ⟨name, type, x, hvalue, hx, he⟩ | hout
  · rw [he, Expr.idents, List.mem_singleton]
    intro heq
    -- The variable is that of one binding only, which the value would read.
    obtain rfl : c.dest = name := hD.injective (heq ▸ ha.dest) hx
    have hreads : c'.reads (copies.map Copy.dest) = true := by
      rw [Copy.reads, hvalue]
      simpa [hne] using ⟨c, hc, rfl⟩
    rw [conflicting, List.any_eq_false] at hconflict
    exact hconflict c' hc' hreads
  · exact fun hmem => hout _ hmem (.inr ⟨c, hc, ha.dest⟩)

/-- Partners of members that are pairwise related are so as well. -/
theorem pairwise_of_forall₂ {α β : Type} {R : α → β → Prop} {S : α → α → Prop}
    {T : β → β → Prop} {xs : List α} {ys : List β} (h : List.Forall₂ R xs ys)
    (hS : xs.Pairwise S) (hT : ∀ x x' y y', S x x' → R x y → R x' y' → T y y') :
    ys.Pairwise T := by
  induction h with
  | nil => exact .nil
  | cons hxy hrest ih =>
    rw [List.pairwise_cons] at hS ⊢
    refine ⟨fun y' hy' => ?_, ih hS.2⟩
    obtain ⟨x', hx', hxy'⟩ := mem_of_forall₂ hrest.flip hy'
    exact hT _ _ _ _ (hS.1 x' hx') hxy hxy'

/-- **A buffer evaluates all values and then assigns them**, apart from temporaries, if
no constant or global variable among the values is called as something it assigns. -/
theorem Buffered.acts_of_apart {H : Host} (hD : D.names.Sound)
    (h : Buffered scope D copies as ss) (hdests : (copies.map Copy.dest).Nodup)
    (hapart : ∀ c ∈ copies, c.value.Apart scope D (Assigned D copies)) :
    ∃ ts : List String, (∀ t ∈ ts, D.names.Reserved t) ∧
      ∀ σ : State H, (∀ x ∈ D.names.used, (σ.vars x).isSome = true) →
        Acts (.stmts ss) σ ((fun vs => (σ.vars.setAll ts vs).setAll (as.map Prod.fst) vs) <$>
          Expr.evalAll H σ.vars (as.map Prod.snd)) := by
  have hused : ∀ a ∈ as, a.1 ∈ D.names.used := by
    intro a ha
    obtain ⟨c, -, hc⟩ := mem_of_forall₂ h.lowers.flip ha
    exact hD.mem_used hc.dest
  rcases h.form with ⟨hconflict, rfl⟩ | ⟨cs, rfl, rfl, hnodup, hreserved⟩
  · refine ⟨[], by simp, fun σ hsome => ?_⟩
    refine (acts_sets ?_ fun a ha => hsome _ (hused a ha)).of_eq ?_
    · have hpairs : copies.Pairwise (fun c c' =>
          c ∈ copies ∧ c' ∈ copies ∧ c.dest ≠ c'.dest) :=
        (List.pairwise_map.1 hdests).imp_of_mem fun hc hc' hne => ⟨hc, hc', hne⟩
      refine pairwise_of_forall₂ h.lowers hpairs ?_
      rintro c c' a a' ⟨hc, hc', hne⟩ ha ha'
      exact not_mem_of_not_conflicting hD hconflict hc hc' hne (hapart c' hc') ha ha'
    · rw [Go.assignAll]
      simp only [Env.setAll_nil]
  · refine ⟨cs.map Capture.temporary, ?_, fun σ hsome => ?_⟩
    · intro t ht
      obtain ⟨c, hc, rfl⟩ := List.mem_map.1 ht
      exact hreserved c hc
    · have hpairs : (cs.map fun c => (c.dest, c.value)).map Prod.fst = cs.map Capture.dest ∧
          (cs.map fun c => (c.dest, c.value)).map Prod.snd = cs.map Capture.value := by simp
      rw [hpairs.1, hpairs.2]
      have hof : ∀ c ∈ cs, ∃ c' ∈ copies, c'.Lowers scope D (c.dest, c.value) := fun c hc =>
        mem_of_forall₂ h.lowers.flip (List.mem_map.2 ⟨c, hc, rfl⟩)
      refine acts_captured hnodup ?_ ?_ ?_
      · intro c hc c' hc'
        obtain ⟨k, hk, hlowers⟩ := hof c' hc'
        exact (hapart k hk).not_mem_of_reserved hlowers.value (hreserved c hc)
      · intro c hc c' hc' heq
        obtain ⟨k, -, hlowers⟩ := hof c' hc'
        exact (hreserved c hc).unbound _ (heq ▸ hlowers.dest)
      · intro c hc
        exact ⟨hsome _ (hreserved c hc).used, hsome _ (hused _ (List.mem_map.2 ⟨c, hc, rfl⟩))⟩

/-- A buffer of clear values evaluates them and then assigns them. -/
theorem Buffered.acts {H : Host} (hD : D.names.Sound) (h : Buffered scope D copies as ss)
    (hdests : (copies.map Copy.dest).Nodup) (hclear : ∀ c ∈ copies, c.value.Clear scope D) :
    ∃ ts : List String, (∀ t ∈ ts, D.names.Reserved t) ∧
      ∀ σ : State H, (∀ x ∈ D.names.used, (σ.vars x).isSome = true) →
        Acts (.stmts ss) σ ((fun vs => (σ.vars.setAll ts vs).setAll (as.map Prod.fst) vs) <$>
          Expr.evalAll H σ.vars (as.map Prod.snd)) :=
  h.acts_of_apart hD hdests fun c hc => (hclear c hc).apart.mono fun _ hx => hx.mem_used hD

end

end GoLift
