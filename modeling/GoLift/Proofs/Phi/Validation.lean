import GoLift.Proofs.Lower.Statements
import GoLift.Proofs.Phi.Simultaneous

/-!
# Which phis are refused

Buffers are made for a body as a whole or not at all. **They are refused exactly if some block has
no end, some end names a label that no block carries, or some phi does not enumerate the blocks that
go to its own** (`phiBuffers_exact`): its labels have to be these blocks, in any order, each once,
however often a block names its target. All of these are faults of the input, and nothing else goes
wrong as long as the incoming values can be lowered.

Otherwise every block gets its buffer, which assigns the phis of the blocks ahead of it, one after
the other (`Block.phisAhead`), each from the value listed for this block.
-/

set_option autoImplicit false

namespace GoLift

open Go (Expr Stmt)
open DraftM

variable {blocks : List Block} {scope : Scope}

/-! ### Steps that may fail -/

section

variable {ε α β : Type}

/-- A sequence fails where one of its parts does. -/
theorem except_bind_error {x : Except ε α} {f : α → Except ε β} {e : ε} (h : x >>= f = .error e) :
    x = .error e ∨ ∃ a, x = .ok a ∧ f a = .error e := by
  cases x with
  | error e' =>
    cases h
    exact .inl rfl
  | ok a => exact .inr ⟨a, rfl, h⟩

theorem exists_of_mapM_error {f : α → Except ε β} {xs : List α} {e : ε}
    (h : xs.mapM f = .error e) : ∃ x ∈ xs, f x = .error e := by
  induction xs with
  | nil => cases h
  | cons x xs ih =>
    rw [List.mapM_cons] at h
    rcases except_bind_error h with hx | ⟨y, -, h⟩
    · exact ⟨x, List.mem_cons_self, hx⟩
    · rcases except_bind_error h with hxs | ⟨ys, -, h⟩
      · obtain ⟨x', hx', he⟩ := ih hxs
        exact ⟨x', List.mem_cons_of_mem _ hx', he⟩
      · cases h

theorem exists_of_forM_error {f : α → Except ε Unit} {xs : List α} {e : ε}
    (h : xs.forM f = .error e) : ∃ x ∈ xs, f x = .error e := by
  induction xs with
  | nil => cases h
  | cons x xs ih =>
    rcases except_bind_error (x := f x) (f := fun _ => xs.forM f) h with hx | ⟨u, -, hxs⟩
    · exact ⟨x, List.mem_cons_self, hx⟩
    · obtain ⟨x', hx', he⟩ := ih hxs
      exact ⟨x', List.mem_cons_of_mem _ hx', he⟩

end

/-! ### What is wrong with a body -/

/-- A fault says that the input breaks a rule of the representation. -/
def Fault.Malformed (f : Fault) : Prop :=
  ∃ c : Cause, f = c.fault ∧ c.reason = .malformed

/-- A phi lists the blocks that go to its own, in some order and each once. -/
structure Phi.Enumerates (blocks : List Block) (s : Block) (φ : Phi) : Prop where
  nodup : φ.labels.Nodup
  exact : ∀ l, l ∈ φ.labels ↔ ∃ p ∈ blocks, p.name = l ∧ s.name ∈ p.targets

/-- Every end is of one of the kinds whose targets are known. -/
def KnownEnds (blocks : List Block) : Prop :=
  ∀ b ∈ blocks, ∀ kind, b.terminator ≠ some (.unknown kind)

namespace Flow

theorem mem_into_iff {l x : String} :
    x ∈ into blocks l ↔ ∃ p ∈ blocks, p.name = x ∧ l ∈ p.targets := by
  simp only [into, List.mem_map, List.mem_filter, decide_eq_true_eq]
  constructor
  · rintro ⟨p, ⟨hp, hl⟩, hx⟩
    exact ⟨p, hp, hx, hl⟩
  · rintro ⟨p, hp, hx, hl⟩
    exact ⟨p, ⟨hp, hl⟩, hx⟩

/-- A block without an end, or with one that leads nowhere, is a fault of the input. -/
theorem edges_error {labels : List String} {b : Block} {f : Fault}
    (hknown : ∀ kind, b.terminator ≠ some (.unknown kind)) (h : edges labels b = .error f) :
    f.Malformed ∧ (b.terminator = none ∨ ∃ l ∈ b.targets, l ∉ labels) := by
  unfold edges at h
  split at h
  · next hnone =>
    cases h
    exact ⟨⟨_, rfl, rfl⟩, .inl hnone⟩
  · next t ht =>
    split at h
    · next a ha =>
      cases t with
      | unknown kind => exact absurd ht (hknown kind)
      | _ => cases ha
    · next targets htargets =>
      obtain rfl := Terminator.successors_ok htargets
      split at h
      · next s hs =>
        cases h
        have hmem := mem_firsts.1 (List.mem_of_find?_eq_some hs)
        have hout := List.find?_some hs
        exact ⟨⟨_, rfl, rfl⟩, .inr ⟨s, Block.targets_of ht ▸ hmem, by simpa using hout⟩⟩
      · cases h

theorem predecessors_error {f : Fault} (hknown : KnownEnds blocks)
    (h : predecessors blocks = .error f) :
    f.Malformed ∧ ∃ b ∈ blocks,
      b.terminator = none ∨ ∃ l ∈ b.targets, l ∉ blocks.map Block.name := by
  rcases except_bind_error h with hgraph | ⟨graph, -, h⟩
  · obtain ⟨b, hb, hedges⟩ := exists_of_mapM_error hgraph
    obtain ⟨hf, hbad⟩ := edges_error (hknown b hb) hedges
    exact ⟨hf, b, hb, hbad⟩
  · cases h

/-- The table of predecessors lists for a block the blocks that go to it. -/
theorem getD_predecessors {preds : Table (List String)} {s : Block}
    (h : predecessors blocks = .ok preds) (hs : s ∈ blocks) :
    (preds.get? s.name).getD [] = into blocks s.name := by
  rw [(predecessors_ok h).2.2 _ (List.mem_map_of_mem hs), Option.getD_some]

end Flow

theorem mem_repeated {xs : List String} {x : String} (h : x ∈ repeated xs) : 1 < xs.count x := by
  have h := mem_firsts.1 (mem_sorted.1 h)
  simpa using (List.mem_filter.1 h).2

/-- A phi that is refused does not list the predecessors, or not each once. -/
theorem Phi.check_error {block : String} {preds : List String} {φ : Phi} {f : Fault}
    (h : φ.check block preds = .error f) :
    f.Malformed ∧ ¬ ((∀ p, p ∈ preds ↔ p ∈ φ.labels) ∧ φ.labels.Nodup) := by
  unfold Phi.check at h
  dsimp only at h
  split at h
  · next hdupes =>
    cases h
    refine ⟨⟨_, rfl, rfl⟩, fun hfits => ?_⟩
    obtain ⟨x, hx⟩ := List.exists_mem_of_ne_nil (repeated φ.labels) (by simpa using hdupes)
    have := List.nodup_iff_count_le_one.1 hfits.2 x
    have := mem_repeated hx
    omega
  · split at h
    · cases h
    · next hsame =>
      cases h
      refine ⟨⟨_, rfl, rfl⟩, fun hfits => hsame ?_⟩
      rw [Bool.and_eq_true, sortedDiff_isEmpty, sortedDiff_isEmpty]
      exact ⟨fun p hp => (hfits.1 p).1 hp, fun p hp => (hfits.1 p).2 hp⟩

/-- What is listed for a block is right exactly if the check says so. -/
theorem Phi.enumerates_iff {preds : List String} {s : Block} {φ : Phi}
    (hpreds : preds = Flow.into blocks s.name) :
    φ.Enumerates blocks s ↔ (∀ p, p ∈ preds ↔ p ∈ φ.labels) ∧ φ.labels.Nodup := by
  subst hpreds
  constructor
  · intro h
    exact ⟨fun p => Flow.mem_into_iff.trans (h.exact p).symm, h.nodup⟩
  · rintro ⟨hsame, hnodup⟩
    exact ⟨hnodup, fun l => (hsame l).symm.trans Flow.mem_into_iff⟩

/-- Some block has no end, some end leads nowhere, or some phi does not fit. -/
def Misshapen (blocks : List Block) : Prop :=
  (∃ b ∈ blocks, b.terminator = none) ∨
    (∃ b ∈ blocks, ∃ l ∈ b.targets, l ∉ blocks.map Block.name) ∨
    ∃ s ∈ blocks, ∃ φ ∈ s.phis, ¬ φ.Enumerates blocks s

/-- **Copies are refused for a body that is misshapen.** -/
theorem phiCopies_error {f : Fault} (hknown : KnownEnds blocks)
    (h : phiCopies blocks = .error f) : f.Malformed ∧ Misshapen blocks := by
  rcases except_bind_error h with hpreds | ⟨preds, hpreds, h⟩
  · obtain ⟨hf, b, hb, hbad⟩ := Flow.predecessors_error hknown hpreds
    exact ⟨hf, hbad.elim (fun h => .inl ⟨b, hb, h⟩) fun h => .inr (.inl ⟨b, hb, h⟩)⟩
  · rcases except_bind_error h with hcheck | ⟨u, -, h⟩
    · obtain ⟨s, hs, hphis⟩ := exists_of_forM_error hcheck
      obtain ⟨φ, hφ, hphi⟩ := exists_of_forM_error hphis
      obtain ⟨hf, hbad⟩ := Phi.check_error hphi
      have hinto := Flow.getD_predecessors hpreds hs
      exact ⟨hf, .inr (.inr ⟨s, hs, φ, hφ, mt (Phi.enumerates_iff hinto).1 hbad⟩)⟩
    · cases h

/-- **A body that has copies is not misshapen.** -/
theorem not_misshapen_of_phiCopies {copies : Table (List Copy)}
    (h : phiCopies blocks = .ok copies) : ¬ Misshapen blocks := by
  obtain ⟨preds, hpreds, h⟩ := except_bind_ok h
  obtain ⟨u, hcheck, -⟩ := except_bind_ok h
  obtain ⟨hclosed, -, -⟩ := Flow.predecessors_ok hpreds
  rintro (⟨b, hb, hnone⟩ | ⟨b, hb, l, hl, hout⟩ | ⟨s, hs, φ, hφ, hbad⟩)
  · simpa [hnone] using (hclosed b hb).1
  · exact hout ((hclosed b hb).2 l hl)
  · have hinto := Flow.getD_predecessors hpreds hs
    exact hbad ((Phi.enumerates_iff hinto).2 (Phi.check_ok (forM_ok (forM_ok hcheck s hs) φ hφ)))

/-! ### Buffers that cannot fail -/

variable {copies : List Copy}

theorem succeeds_directCopies (h : ∀ c ∈ copies, Succeeds (c.value.lower scope)) :
    Succeeds (directCopies scope copies) := by
  induction copies with
  | nil => exact .pure _
  | cons c cs ih =>
    rw [List.forall_mem_cons] at h
    exact (succeeds_localVar c.dest).bind fun _ => h.1.bind fun _ => (ih h.2).bind fun _ => .pure _

theorem succeeds_captures (h : ∀ c ∈ copies, Succeeds (c.value.lower scope)) :
    Succeeds (captures scope copies) := by
  induction copies with
  | nil => exact .pure _
  | cons c cs ih =>
    rw [List.forall_mem_cons] at h
    exact (succeeds_temporary c.type).bind fun _ =>
      h.1.bind fun _ => (ih h.2).bind fun _ => .pure _

theorem succeeds_releases (captured : List (Copy × String × Stmt)) :
    Succeeds (releases captured) := by
  induction captured with
  | nil => exact .pure _
  | cons c cs ih => exact (succeeds_localVar c.1.dest).bind fun _ => ih.bind fun _ => .pure _

theorem succeeds_bufferOf {label : String}
    (h : ∀ c ∈ copies, Succeeds (c.value.lower scope)) :
    Succeeds (bufferOf scope label copies) := by
  unfold bufferOf
  split
  · exact (succeeds_tell _).bind fun _ => (succeeds_captures h).bind fun _ =>
      (succeeds_releases _).bind fun _ => .pure _
  · exact succeeds_directCopies h

theorem succeeds_buffersOf {entries : List (String × List Copy)}
    (h : ∀ e ∈ entries, ∀ c ∈ e.2, Succeeds (c.value.lower scope)) :
    Succeeds (buffersOf scope entries) := by
  induction entries with
  | nil => exact .pure _
  | cons e entries ih =>
    rw [List.forall_mem_cons] at h
    exact (succeeds_bufferOf h.1).bind fun _ => (ih h.2).bind fun _ => .pure _

/-! ### Bodies -/

/-- Every incoming value of a body can be lowered. -/
def IncomingLower (scope : Scope) (blocks : List Block) : Prop :=
  ∀ s ∈ blocks, ∀ φ ∈ s.phis, ∀ i ∈ φ.incoming, Succeeds (i.2.lower scope)

/-- Copies that are made can be turned into buffers. -/
theorem exists_phiBuffers {copies : Table (List Copy)} (hlower : IncomingLower scope blocks)
    (hcopies : phiCopies blocks = .ok copies) (d : Draft) :
    ∃ buffers D, phiBuffers scope blocks d = (.ok buffers, D) := by
  have hsucceeds : Succeeds (buffersOf scope copies.entries) := by
    obtain ⟨preds, -, h⟩ := except_bind_ok hcopies
    obtain ⟨u, -, h⟩ := except_bind_ok h
    cases h
    refine succeeds_buffersOf fun e he c hc => ?_
    obtain ⟨p, -, rfl⟩ := List.mem_map.1 he
    obtain ⟨s, hs, φ, hφ, l, hin⟩ := mem_copiesFrom hc
    exact hlower s hs φ hφ _ hin
  obtain ⟨bs, D, hbs⟩ := hsucceeds d
  exact ⟨⟨bs⟩, D, by rw [phiBuffers, hcopies]; exact bind_of_ok hbs⟩

/-- **Buffers are refused exactly for a body that is misshapen, and else they are complete.** Where
they are made, the buffer of a block assigns exactly the phis ahead of it, by block and then by
phi, each from the value that it lists for the block: at once, or by way of temporaries. -/
theorem phiBuffers_exact {d : Draft} (hd : d.names.Sound)
    (hnames : (blocks.map Block.name).Nodup) (hknown : KnownEnds blocks)
    (hlower : IncomingLower scope blocks) :
    ((∃ f, f.Malformed ∧ (phiBuffers scope blocks d).1 = .error f) ↔ Misshapen blocks) ∧
      (¬ Misshapen blocks → ∃ buffers D, phiBuffers scope blocks d = (.ok buffers, D) ∧
        ∀ p ∈ blocks, ∃ ss as, buffers.get? p.name = some ss ∧
          List.Forall₂ (Phi.Given scope D p.name) (p.phisAhead blocks) as ∧
          Buffered scope D (p.copies blocks) as ss) := by
  rcases hcopies : phiCopies blocks with f | copies
  · obtain ⟨hf, hbad⟩ := phiCopies_error hknown hcopies
    have hrun : (phiBuffers scope blocks d).1 = .error f := by
      rw [phiBuffers, hcopies]
      rfl
    exact ⟨⟨fun _ => hbad, fun _ => ⟨f, hf, hrun⟩⟩, fun hgood => absurd hbad hgood⟩
  · have hgood := not_misshapen_of_phiCopies hcopies
    obtain ⟨buffers, D, hrun⟩ := exists_phiBuffers hlower hcopies d
    refine ⟨⟨?_, fun hbad => absurd hbad hgood⟩, fun _ => ?_⟩
    · rintro ⟨f, -, hf⟩
      rw [hrun] at hf
      cases hf
    · obtain ⟨_, hof, hbuffered⟩ := phiBuffers_ok hnames hd hrun
      refine ⟨buffers, D, hrun, fun p hp => ?_⟩
      obtain ⟨as, ss, hss, has⟩ := hbuffered p hp
      exact ⟨ss, as, hss, has.given fun φ hφ => hof.exists_value hp hφ, has⟩

/-! ### A target that is named again and again -/

namespace Repeating

/-- The type of the bindings. -/
def bit : Ty := .int 1

def entry : Block where
  name := "entry"
  terminator := some (.condBr (.localRef "c" bit) "join" "join")

/-- A block that goes to itself, and in several ways to another. -/
def many : Block where
  name := "many"
  terminator := some (.switch (.localRef "c" bit) "join"
    [(.localRef "c" bit, "many"), (.localRef "d" bit, "join")])

/-- A block whose phi lists some labels. -/
def join (labels : List String) : Block where
  name := "join"
  instrs := [.phi "r" bit (labels.map fun l => (l, .localRef "d" bit))]
  terminator := some (.ret none)

def body (labels : List String) : List Block := [entry, many, join labels]

theorem mem_body {labels : List String} {b : Block} (h : b ∈ body labels) :
    b = entry ∨ b = many ∨ b = join labels := by
  simpa [body] using h

theorem knownEnds (labels : List String) : KnownEnds (body labels) := by
  intro b hb kind
  rcases mem_body hb with rfl | rfl | rfl <;> simp [entry, many, join]

theorem incomingLower (labels : List String) : IncomingLower {} (body labels) := by
  intro s hs φ hφ i hi
  rcases mem_body hs with rfl | rfl | rfl
  · cases hφ
  · cases hφ
  · obtain rfl : φ = ⟨"r", bit, labels.map fun l => (l, .localRef "d" bit)⟩ := by
      simpa [Block.phis, join, Instr.phi?] using hφ
    obtain ⟨l, -, rfl⟩ := List.mem_map.1 hi
    rw [Value.lower]
    exact succeeds_localVar "d"

/-- Each of the two blocks makes one copy, whatever the order in which the phi lists them; to list
one of them for each of its edges is a fault. -/
theorem phis_checked :
    (∃ buffers D, phiBuffers {} (body ["many", "entry"]) {} = (.ok buffers, D) ∧
      ∀ p ∈ body ["many", "entry"], ∃ ss as, buffers.get? p.name = some ss ∧
        List.Forall₂ (Phi.Given {} D p.name) (p.phisAhead (body ["many", "entry"])) as ∧
        Buffered {} D (p.copies (body ["many", "entry"])) as ss) ∧
      ∃ f, f.Malformed ∧ (phiBuffers {} (body ["entry", "many", "entry"]) {}).1 = .error f := by
  have hcopies : phiCopies (body ["many", "entry"]) =
      .ok ⟨[("entry", [⟨"r", bit, .localRef "d" bit⟩]), ("many", [⟨"r", bit, .localRef "d" bit⟩]),
        ("join", [])]⟩ := by cbv
  have hgood : ¬ Misshapen (body ["many", "entry"]) := not_misshapen_of_phiCopies hcopies
  have hbad : Misshapen (body ["entry", "many", "entry"]) := by
    refine .inr (.inr ⟨join ["entry", "many", "entry"], by simp [body], _,
      List.mem_singleton_self _, fun h => ?_⟩)
    exact absurd h.nodup (by decide)
  exact ⟨(phiBuffers_exact NameTable.sound_empty (by decide) (knownEnds _)
      (incomingLower _)).2 hgood,
    (phiBuffers_exact NameTable.sound_empty (by decide) (knownEnds _) (incomingLower _)).1.2 hbad⟩

end Repeating

end GoLift
