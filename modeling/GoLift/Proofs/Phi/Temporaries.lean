import GoLift.Proofs.Lower.Assigned
import GoLift.Proofs.Phi.Buffer

/-!
# The temporaries of phi copies

Copies that conflict go through temporaries, one for each copy (`Copy.captured`). A draft that is
made from another by some steps has the old variables to declare and behind them the temporaries of
the steps, numbered upwards in the order in which they were made. `Draft.Allocates` says this of any
number of steps, and sequences of steps are put together with `Draft.Allocates.seq`.

**The buffers of a body take one temporary for each copy that goes through one**, block by block and
copy by copy, and assign nothing but these and the variables of phis (`phiBuffers_allocates`).
-/

set_option autoImplicit false

namespace GoLift

open Go (Expr Stmt AssignsOnly)
open DraftM

/-! ### Temporaries that are made -/

/-- Some steps from one draft to another declare temporaries behind the variables that are there,
numbered upwards. -/
structure Draft.Allocates (d d' : Draft) (temps : List (String × Ty)) : Prop where
  declared : d'.declared = d.declared ++ temps
  counter : d.names.counter ≤ d'.names.counter
  numbered : ∃ ks : List Nat, temps.map Prod.fst = ks.map (NameTable.temporary "tmp") ∧
    ks.Pairwise (· < ·) ∧ ∀ k ∈ ks, d.names.counter ≤ k ∧ k < d'.names.counter

namespace Draft.Allocates

variable {d d' d'' : Draft} {ts ts' : List (String × Ty)}

theorem none (hdeclared : d'.declared = d.declared)
    (hcounter : d'.names.counter = d.names.counter) : d.Allocates d' [] where
  declared := by rw [hdeclared, List.append_nil]
  counter := Nat.le_of_eq hcounter.symm
  numbered := ⟨[], rfl, .nil, by simp⟩

/-- Later temporaries have later numbers. -/
theorem seq (h : d.Allocates d' ts) (h' : d'.Allocates d'' ts') :
    d.Allocates d'' (ts ++ ts') where
  declared := by rw [h'.declared, h.declared, List.append_assoc]
  counter := Nat.le_trans h.counter h'.counter
  numbered := by
    obtain ⟨ks, hks, hrise, hin⟩ := h.numbered
    obtain ⟨ks', hks', hrise', hin'⟩ := h'.numbered
    refine ⟨ks ++ ks', by rw [List.map_append, List.map_append, hks, hks'], ?_, fun k hk => ?_⟩
    · refine List.pairwise_append.2 ⟨hrise, hrise', fun k hk k' hk' => ?_⟩
      exact Nat.lt_of_lt_of_le (hin k hk).2 (hin' k' hk').1
    · obtain hk | hk := List.mem_append.1 hk
      · exact ⟨(hin k hk).1, Nat.lt_of_lt_of_le (hin k hk).2 h'.counter⟩
      · exact ⟨Nat.le_trans h.counter (hin' k hk).1, (hin' k hk).2⟩

end Draft.Allocates

/-- A temporary is declared behind the variables that are there. -/
theorem allocates_temporary {t : Ty} {d d' : Draft} {x : String}
    (h : temporary t d = (.ok x, d')) : d.Allocates d' [(x, t)] := by
  have hle := le_firstFree d.names.used (NameTable.temporary "tmp") d.names.counter
    d.names.used.length
  cases h
  exact ⟨rfl, Nat.le_succ_of_le hle, ⟨[_], rfl, List.pairwise_singleton _ _, by simpa using hle⟩⟩

/-- A step makes no temporary. -/
def DraftM.Quiet {α : Type} (x : DraftM α) : Prop :=
  ∀ d : Draft, d.Allocates (x d).2 []

theorem DraftM.Quiet.apply {α : Type} {x : DraftM α} (h : Quiet x) {d d' : Draft}
    {r : Except Fault α} (hx : x d = (r, d')) : d.Allocates d' [] := by
  have := h d
  rwa [hx] at this

theorem closed_quiet : DraftM.Closed (fun _ x => Quiet x) where
  pure _ _ := .none rfl rfl
  bind {_ _ x f P} hx hP hf d := by
    rw [bind_apply]
    rcases h : x d with ⟨_ | a, d'⟩
    · exact hx.apply h
    · exact (hx.apply h).seq (hf a (hP _ _ _ h) d')
  refuse _ _ := .none rfl rfl
  stop _ _ := .none rfl rfl
  ofTypeM _ _ := .none rfl rfl

theorem quiet_tell (e : Event) : Quiet (tell e) := fun _ => .none rfl rfl

theorem quiet_localVar (raw : String) : Quiet (localVar raw) := by
  intro d
  have hcounter : (d.names.bind raw).2.counter = d.names.counter := by
    cases h : d.names.local? raw with
    | some x => rw [NameTable.bind_of_local? h]
    | none => rw [NameTable.bind_of_none h]
  exact .none rfl hcounter

/-! ### Copies -/

/-- The copies that go through temporaries: all of a block, or none. -/
def Copy.captured (copies : List Copy) : List Copy :=
  if conflicting copies then copies else []

/-- What the copies of a block assign besides temporaries. -/
def Copy.Assigns (D : Draft) (copies : List Copy) (x : String) : Prop :=
  ∃ c ∈ copies, D.names.local? c.dest = some x

variable {scope : Scope} {d d' : Draft} {copies : List Copy} {ss : List Stmt}

theorem Copy.Assigns.mono {x : String} (h : Copy.Assigns d copies x) (hd : d ≤ d') :
    Copy.Assigns d' copies x :=
  let ⟨c, hc, hx⟩ := h
  ⟨c, hc, hd.local? hx⟩

theorem directCopies_allocates (h : directCopies scope copies d = (.ok ss, d')) :
    d.Allocates d' [] ∧ AssignsOnly (Copy.Assigns d' copies) ss := by
  refine ⟨?_, ?_⟩
  · induction copies generalizing d ss with
    | nil =>
      cases h
      exact .none rfl rfl
    | cons c cs ih =>
      obtain ⟨x, d₁, hx, h⟩ := bind_ok h
      obtain ⟨e, d₂, he, h⟩ := bind_ok h
      obtain ⟨rest, d₃, hrest, h⟩ := bind_ok h
      cases h
      have hvalue := (closed_quiet.lower scope c.value fun name _ => quiet_localVar name).apply he
      exact ((quiet_localVar c.dest).apply hx).seq (hvalue.seq (ih hrest))
  · obtain ⟨as, rfl, has⟩ := directCopies_ok h
    refine Go.assignsOnly_sets.2 fun a ha => ?_
    obtain ⟨c, hc, hlowers⟩ := mem_of_forall₂ has.flip ha
    exact ⟨c, hc, hlowers.dest⟩

/-- Each value is captured in a temporary of its own, of the type of the copy. -/
theorem captures_allocates {caps : List (Copy × String × Stmt)}
    (h : captures scope copies d = (.ok caps, d')) :
    ∃ temps, d.Allocates d' temps ∧ temps.map Prod.snd = copies.map Copy.type ∧
      caps.map Prod.fst = copies ∧
      AssignsOnly (· ∈ temps.map Prod.fst) (caps.map fun c => c.2.2) := by
  induction copies generalizing d caps with
  | nil =>
    cases h
    exact ⟨[], .none rfl rfl, rfl, rfl, Go.assignsOnly_nil⟩
  | cons c cs ih =>
    obtain ⟨tmp, d₁, htmp, h⟩ := bind_ok h
    obtain ⟨e, d₂, he, h⟩ := bind_ok h
    obtain ⟨rest, d₃, hrest, h⟩ := bind_ok h
    cases h
    have hvalue := (closed_quiet.lower scope c.value fun name _ => quiet_localVar name).apply he
    obtain ⟨temps, hallocates, htypes, hcopies, hassigns⟩ := ih hrest
    refine ⟨(tmp, c.type) :: temps, ?_, by simp [htypes], by simp [hcopies], ?_⟩
    · exact (allocates_temporary htmp).seq (hvalue.seq hallocates)
    · refine Go.assignsOnly_set.2 ⟨by simp, hassigns.imp fun x hx => ?_⟩
      exact List.mem_cons_of_mem _ hx

theorem releases_allocates {caps : List (Copy × String × Stmt)}
    (h : releases caps d = (.ok ss, d')) :
    d.Allocates d' [] ∧ AssignsOnly (Copy.Assigns d' (caps.map Prod.fst)) ss := by
  induction caps generalizing d ss with
  | nil =>
    cases h
    exact ⟨.none rfl rfl, Go.assignsOnly_nil⟩
  | cons cap caps ih =>
    obtain ⟨e, d₁, he, h⟩ := bind_ok h
    obtain ⟨rest, d₂, hrest, h⟩ := bind_ok h
    cases h
    obtain ⟨hallocates, hassigns⟩ := ih hrest
    have hd₁ : d₁ ≤ d' := (grows_releases _).apply hrest
    obtain ⟨x, hx, rfl⟩ := gives_localVar ((Gives.of_apply he).mono hd₁)
    refine ⟨((quiet_localVar _).apply he).seq hallocates, Go.assignsOnly_set.2 ⟨?_, ?_⟩⟩
    · exact ⟨cap.1, List.mem_cons_self, hx⟩
    · exact hassigns.imp fun y ⟨c, hc, hy⟩ => ⟨c, List.mem_cons_of_mem _ hc, hy⟩

/-- **A buffer takes a temporary for each copy that goes through one**, and assigns these and the
variables of its copies. -/
theorem bufferOf_allocates {label : String} (h : bufferOf scope label copies d = (.ok ss, d')) :
    ∃ temps, d.Allocates d' temps ∧ temps.map Prod.snd = (Copy.captured copies).map Copy.type ∧
      AssignsOnly (fun x => x ∈ temps.map Prod.fst ∨ Copy.Assigns d' copies x) ss := by
  unfold bufferOf at h
  split at h
  · next hconflict =>
    obtain ⟨u, d₁, htell, h⟩ := bind_ok h
    obtain ⟨caps, d₂, hcaps, h⟩ := bind_ok h
    obtain ⟨rel, d₃, hrel, h⟩ := bind_ok h
    cases h
    obtain ⟨temps, hcaptures, htypes, rfl, hfirst⟩ := captures_allocates hcaps
    obtain ⟨hreleases, hsecond⟩ := releases_allocates hrel
    refine ⟨temps, ?_, by rw [Copy.captured, if_pos hconflict, htypes], ?_⟩
    · simpa using ((quiet_tell _).apply htell).seq (hcaptures.seq hreleases)
    · exact Go.assignsOnly_append.2 ⟨hfirst.imp fun _ => .inl, hsecond.imp fun _ => .inr⟩
  · next hconflict =>
    obtain ⟨hallocates, hassigns⟩ := directCopies_allocates h
    exact ⟨[], hallocates, by rw [Copy.captured, if_neg hconflict]; rfl, hassigns.imp fun _ => .inr⟩

theorem buffersOf_allocates {entries : List (String × List Copy)} {bs : List (String × List Stmt)}
    (h : buffersOf scope entries d = (.ok bs, d')) :
    ∃ temps, d.Allocates d' temps ∧
      temps.map Prod.snd = (entries.flatMap fun e => Copy.captured e.2).map Copy.type ∧
      ∀ b ∈ bs, AssignsOnly
        (fun x => x ∈ temps.map Prod.fst ∨ ∃ e ∈ entries, Copy.Assigns d' e.2 x) b.2 := by
  induction entries generalizing d bs with
  | nil =>
    cases h
    exact ⟨[], .none rfl rfl, rfl, by simp⟩
  | cons entry entries ih =>
    obtain ⟨label, copies⟩ := entry
    obtain ⟨buffer, d₁, hbuffer, h⟩ := bind_ok h
    obtain ⟨rest, d₂, hrest, h⟩ := bind_ok h
    cases h
    obtain ⟨ts, hfirst, htypes, hassigns⟩ := bufferOf_allocates hbuffer
    obtain ⟨ts', hothers, htypes', hassigns'⟩ := ih hrest
    have hd₁ : d₁ ≤ d' := (grows_buffersOf scope entries).apply hrest
    refine ⟨ts ++ ts', hfirst.seq hothers, by simp [htypes, htypes'], ?_⟩
    refine List.forall_mem_cons.2 ⟨hassigns.imp fun x hx => ?_, fun b hb =>
      (hassigns' b hb).imp fun x hx => ?_⟩
    · rw [List.map_append, List.mem_append]
      exact hx.imp .inl fun hx => ⟨_, List.mem_cons_self, hx.mono hd₁⟩
    · rw [List.map_append, List.mem_append]
      exact hx.imp .inr fun ⟨e, he, hx⟩ => ⟨e, List.mem_cons_of_mem _ he, hx⟩

/-! ### Copies of a body -/

/-- The copies of a body that go through temporaries, block by block. -/
def Copy.capturedIn (blocks : List Block) : List Copy :=
  blocks.flatMap fun p => Copy.captured (p.copies blocks)

/-- A copy has the destination and the type of a phi. -/
theorem exists_phi_of_mem_copies {blocks : List Block} {p : Block} {c : Copy}
    (h : c ∈ p.copies blocks) :
    ∃ φ ∈ blocks.flatMap Block.phis, c.dest = φ.dest ∧ c.type = φ.type := by
  rw [Block.copies_eq] at h
  obtain ⟨φ, hφ, h⟩ := List.mem_filterMap.1 h
  obtain ⟨v, -, rfl⟩ := Option.map_eq_some_iff.1 h
  obtain ⟨s, hs, hφ⟩ := List.mem_flatMap.1 hφ
  split at hφ
  · exact ⟨φ, List.mem_flatMap.2 ⟨s, hs, hφ⟩, rfl, rfl⟩
  · cases hφ

/-- What goes through a temporary is a copy for a phi, and has its type. -/
theorem exists_phi_of_mem_capturedIn {blocks : List Block} {c : Copy}
    (h : c ∈ Copy.capturedIn blocks) :
    ∃ φ ∈ blocks.flatMap Block.phis, c.dest = φ.dest ∧ c.type = φ.type := by
  obtain ⟨p, -, h⟩ := List.mem_flatMap.1 h
  rw [Copy.captured] at h
  split at h
  · exact exists_phi_of_mem_copies h
  · cases h

/-- What has the types of the copies that go through a temporary, has the types of their phis. -/
theorem forall₂_capturedIn {blocks : List Block} {temps : List (String × Ty)}
    (h : temps.map Prod.snd = (Copy.capturedIn blocks).map Copy.type) :
    List.Forall₂ (fun (c : Copy) v =>
      ∃ φ ∈ blocks.flatMap Block.phis, c.dest = φ.dest ∧ v.2 = φ.type)
      (Copy.capturedIn blocks) temps := by
  rw [← List.forall₂_eq_eq_eq, List.forall₂_map_left_iff, List.forall₂_map_right_iff] at h
  refine ((List.forall₂_and_left _ _).2 ⟨fun c => exists_phi_of_mem_capturedIn, h.flip⟩).imp ?_
  rintro c v ⟨⟨φ, hφ, hdest, htype⟩, hv⟩
  exact ⟨φ, hφ, hdest, hv.trans htype⟩

/-- The copies of a body are listed by blocks. -/
theorem entries_phiCopies {blocks : List Block} (hnames : (blocks.map Block.name).Nodup)
    {copies : Table (List Copy)} (h : phiCopies blocks = .ok copies) :
    copies.entries = blocks.map fun p => (p.name, p.copies blocks) := by
  have hof := phiCopies_ok hnames h
  obtain ⟨preds, -, h⟩ := except_bind_ok h
  obtain ⟨u, -, h⟩ := except_bind_ok h
  cases h
  have hkeys : preds.keys = blocks.map Block.name := by
    have hkeys := hof.keys
    rw [firsts_of_nodup hnames] at hkeys
    simpa [Table.keys, Function.comp_def] using hkeys
  rw [hkeys, List.map_map]
  refine List.map_congr_left fun p hp => ?_
  have hget := hof.get p hp
  rw [Table.get?, lookup_map_pair, if_pos (hkeys ▸ List.mem_map_of_mem hp)] at hget
  exact congrArg (p.name, ·) (Option.some.inj hget)

/-- **The buffers of a body take a temporary for each copy that goes through one**, and assign these
and the variables of phis. -/
theorem phiBuffers_allocates {blocks : List Block} (hnames : (blocks.map Block.name).Nodup)
    {buffers : Table (List Stmt)} (h : phiBuffers scope blocks d = (.ok buffers, d')) :
    ∃ temps, d.Allocates d' temps ∧
      temps.map Prod.snd = (Copy.capturedIn blocks).map Copy.type ∧
      ∀ b ∈ buffers.entries, AssignsOnly (fun x => x ∈ temps.map Prod.fst ∨
        ∃ φ ∈ blocks.flatMap Block.phis, d'.names.local? φ.dest = some x) b.2 := by
  rcases hcopies : phiCopies blocks with f | copies <;> rw [phiBuffers, hcopies] at h
  · cases h
  obtain ⟨bs, d₁, hbs, h⟩ := bind_ok h
  cases h
  obtain ⟨temps, hallocates, htypes, hassigns⟩ := buffersOf_allocates hbs
  have hentries := entries_phiCopies hnames hcopies
  refine ⟨temps, hallocates, ?_, fun b hb => (hassigns b hb).imp fun x hx => hx.imp id ?_⟩
  · rw [htypes, hentries, List.flatMap_map]
    rfl
  · rintro ⟨e, he, c, hc, hx⟩
    rw [hentries] at he
    obtain ⟨p, -, rfl⟩ := List.mem_map.1 he
    obtain ⟨φ, hφ, hdest, -⟩ := exists_phi_of_mem_copies hc
    exact ⟨φ, hφ, hdest ▸ hx⟩

end GoLift
