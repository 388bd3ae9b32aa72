import GoLift.Proofs.Go.Outline

/-!
# Printed statements are read back

A block ends in one of three ways: with a brace alone, with one that an else-branch follows, or with
one behind which a chain of conditions goes on. The lines of a body are read one after the other
with a stack of the blocks that are open. **Whatever has been read before a statement, its lines add
its outline** (`Stmt.Emitted.run_lines`).

So the lines of a body determine its tree (`Stmt.AllEmitted.printed_determines`). They are indented
as far as the blocks around them are deep, and their brackets match (`Stmt.AllEmitted.laidOut`).
-/

set_option autoImplicit false

namespace GoLift.Go

variable {α : Alphabet}

/-! ### Layout -/

/-- How far a line is indented. -/
def indent (line : String) : Nat :=
  (line.toList.takeWhile (· == '\t')).length

/-- A line without its indentation. -/
def unindented (line : String) : List Char :=
  line.toList.dropWhile (· == '\t')

/-- How many blocks a line ends that it is not in: the brace that it begins with ends one. -/
def closed (cs : List Char) : Nat :=
  if cs.head? = some '\x7d' then 1 else 0

/-- Lines lead from a number of open blocks to another: their brackets match, and each line is
indented by `d` and one step for every block that encloses it. -/
inductive LaidOut (d : Nat) : Nat → List String → Nat → Prop
  | nil {n : Nat} : LaidOut d n [] n
  | cons {line : String} {lines : List String} {n m k : Nat}
      (hindent : indent line + closed (unindented line) = d + n)
      (hbrackets : brackets (.replicate n '\x7d') line.toList = some (.replicate m '\x7d'))
      (hlines : LaidOut d m lines k) : LaidOut d n (line :: lines) k

theorem LaidOut.append {d n m k : Nat} {lines lines' : List String} (h : LaidOut d n lines m)
    (h' : LaidOut d m lines' k) : LaidOut d n (lines ++ lines') k := by
  induction h with
  | nil => exact h'
  | cons hindent hbrackets _ ih => exact .cons hindent hbrackets (ih h')

theorem tabs_toList (d : Nat) (text : String) :
    (tabs d ++ text).toList = List.replicate d '\t' ++ text.toList := by
  rw [String.toList_append, tabs, String.toList_ofList]

theorem stops_tab {text : String} (h : text.toList.head? ≠ some '\t') :
    Alphabet.Stops (· == '\t') text.toList := by
  intro c hc
  rw [hc] at h
  simpa using h

theorem unindented_tabs {text : String} (h : text.toList.head? ≠ some '\t') (d : Nat) :
    unindented (tabs d ++ text) = text.toList := by
  rw [unindented, tabs_toList]
  exact Alphabet.dropWhile_append_of_stops (by simp) (stops_tab h)

theorem indent_tabs {text : String} (h : text.toList.head? ≠ some '\t') (d : Nat) :
    indent (tabs d ++ text) = d := by
  rw [indent, tabs_toList, Alphabet.takeWhile_append_of_stops (by simp) (stops_tab h),
    List.length_replicate]

theorem brackets_tabs (awaited : List Char) (d : Nat) (text : String) :
    brackets awaited (tabs d ++ text).toList = brackets awaited text.toList := by
  rw [tabs_toList]
  induction d with
  | zero => rfl
  | succ d ih => exact ih

/-! ### Lines -/

open Reading (Line read)

/-- A text is a line that says something. It ends some blocks, and begins others. -/
structure LineOf (α : Alphabet) (text : String) (line : Line) (ended begun : Nat) : Prop where
  read : read α text.toList = line
  head : text.toList.head? ≠ some '\t'
  closed : closed text.toList = ended
  brackets : ∀ n, brackets (.replicate (n + ended) '\x7d') text.toList =
    some (.replicate (n + begun) '\x7d')

namespace LineOf

variable {text : String} {line : Line} {ended begun : Nat}

/-- A line in `n` blocks leads on to the blocks in it. -/
theorem laidOut (h : LineOf α text line ended begun) (d n : Nat) :
    LaidOut d (n + ended) [tabs (d + n) ++ text] (n + begun) := by
  refine .cons ?_ ?_ .nil
  · rw [indent_tabs h.head, unindented_tabs h.head, h.closed, Nat.add_assoc]
  · rw [brackets_tabs]
    exact h.brackets n

theorem of_printsAs {s : Stmt} (h : Reading.PrintsAs α s text) :
    LineOf α text (.stmt s.outline) 0 0 :=
  ⟨h.read, h.head.1, if_neg h.head.2, fun _ => h.matched _⟩

theorem brackets_opening (h : Matched text) (awaited : List Char) :
    Go.brackets awaited (text ++ " \x7b").toList = some ('\x7d' :: awaited) := by
  rw [String.toList_append, brackets_append, h awaited]
  rfl

/-- A line that begins a block behind a word and a condition. -/
theorem of_word {word : String} {c : Expr} (hword : word ∈ statementWords) (hmatched : Matched word)
    (hc : c.Legal α) (hread : Reading.readWord α (word ++ (" " ++ (c.text ++ " \x7b"))).toList word
      (" " ++ (c.text ++ " \x7b")).toList = line) :
    LineOf α (word ++ (" " ++ (c.text ++ " \x7b"))) line 0 1 := by
  obtain ⟨htab, hbrace⟩ := Reading.word_head hword (" " ++ (c.text ++ " \x7b"))
  refine ⟨?_, htab, if_neg hbrace, fun n => ?_⟩
  · rw [Reading.read_word hword (Reading.stops_blank _), hread]
  · rw [← String.append_assoc, ← String.append_assoc]
    exact brackets_opening ((hmatched.append .blank).append hc.legible.solid.matched) _

/-- A word with the blank behind it is printed in front of a condition. -/
theorem headed_text (word blank : String) (h : blank = word ++ " ") (c : Expr) :
    blank ++ c.text ++ " \x7b" = word ++ (" " ++ (c.text ++ " \x7b")) := by
  rw [h]
  simp only [String.append_assoc]

theorem opensIf {c : Expr} (hc : c.Legal α) :
    LineOf α ("if " ++ c.text ++ " \x7b") (.opensIf c.outline) 0 1 := by
  rw [headed_text "if" "if " (by decide)]
  refine of_word (by decide) (fun _ => rfl) hc ?_
  show Line.opensIf (Reading.named (Reading.heading _)) = _
  rw [Reading.heading_eq, Reading.named_toList]

theorem opensEndless : LineOf α "for \x7b" (.opensLoop none) 0 1 := by
  have hsplit : "for \x7b" = "for" ++ (" " ++ "\x7b") := by
    decide
  refine ⟨?_, by decide, rfl, fun n => rfl⟩
  rw [hsplit, Reading.read_word (by decide) (Reading.stops_blank _)]
  rfl

theorem opensLoop {cond : Option Expr} (hcond : ∀ c ∈ cond, c.Legal α) :
    LineOf α ((cond.map (fun c => "for " ++ c.text ++ " \x7b")).getD "for \x7b")
      (.opensLoop (cond.map Expr.outline)) 0 1 := by
  cases cond with
  | none => exact opensEndless
  | some c =>
    have hlength : (" " ++ (c.text ++ " \x7b")).toList.length ≠ 2 := by
      simp only [String.length_toList, String.length_append]
      have hblank : " ".length = 1 := rfl
      have hbrace : " \x7b".length = 2 := rfl
      omega
    rw [Option.map_some, Option.getD_some, headed_text "for" "for " (by decide)]
    refine of_word (by decide) (fun _ => rfl) (hcond c rfl) ?_
    show Line.opensLoop (if _ = 2 then none else some (Reading.named (Reading.heading _))) = _
    rw [if_neg hlength, Reading.heading_eq, Reading.named_toList]
    rfl

theorem elseIf {c : Expr} (hc : c.Legal α) :
    LineOf α ("\x7d else if " ++ c.text ++ " \x7b") (.elseIf c.outline) 1 1 := by
  have hchars (text : String) : ("\x7d else if" ++ text).toList =
      '\x7d' :: (" else if".toList ++ text.toList) :=
    String.toList_append
  rw [headed_text "\x7d else if" "\x7d else if " (by decide)]
  refine ⟨?_, by rw [hchars]; exact nofun, by rw [hchars]; rfl, fun n => ?_⟩
  · have hclose : ("\x7d else if" ++ (" " ++ (c.text ++ " \x7b"))).toList ≠ "\x7d".toList := by
      rw [hchars]
      exact nofun
    have hels : ("\x7d else if" ++ (" " ++ (c.text ++ " \x7b"))).toList ≠
        "\x7d else \x7b".toList := by
      rw [hchars]
      exact nofun
    have hdrop : ("\x7d else if" ++ (" " ++ (c.text ++ " \x7b"))).toList.drop 9 =
        (" " ++ (c.text ++ " \x7b")).toList := by
      rw [String.toList_append]
      rfl
    rw [Reading.read, if_neg hclose, if_neg hels, hdrop, Reading.heading_eq, Reading.named_toList,
      hchars]
    rfl
  · have hword : Matched " else if" := fun _ => rfl
    have hopening := brackets_opening ((hword.append .blank).append hc.legible.solid.matched)
      (.replicate n '\x7d')
    rw [String.append_assoc, String.append_assoc] at hopening
    rw [hchars, ← String.toList_append]
    exact hopening

theorem els : LineOf α "\x7d else \x7b" .els 1 1 :=
  ⟨rfl, by decide, rfl, fun n => rfl⟩

theorem close : LineOf α "\x7d" .close 1 0 :=
  ⟨rfl, by decide, rfl, fun n => rfl⟩

end LineOf

theorem indented_text (d : Nat) (word cond brace : String) :
    tabs d ++ word ++ cond ++ brace = tabs d ++ (word ++ cond ++ brace) := by
  simp only [String.append_assoc]

mutual

/-- **Printed statements are laid out.** -/
theorem Stmt.Emitted.laidOut : ∀ {s : Stmt}, s.Emitted α → ∀ d n, LaidOut d n (s.lines (d + n)) n
  | _, .simple hs, d, n => by
    obtain ⟨text, htext⟩ := Reading.exists_printsAs hs
    rw [htext.lines]
    exact (LineOf.of_printsAs htext).laidOut d n
  | _, .loop hcond hbody, d, n =>
    ((LineOf.opensLoop hcond).laidOut d n).append (hbody.laidOut d (n + 1)) |>.append
      ((LineOf.close (α := α)).laidOut d n)
  | .ifElse cond body orElse, .ifElse hcond hbody helse, d, n => by
    rw [Stmt.lines, indented_text]
    exact (((LineOf.opensIf hcond).laidOut d n).append (hbody.laidOut d (n + 1))).append
      (helse.laidOut d n)

theorem Stmt.AllEmitted.laidOut : ∀ {ss : List Stmt}, AllEmitted α ss →
    ∀ d n, LaidOut d n (Stmt.bodyLines (d + n) ss) n
  | _, .nil, _, _ => .nil
  | _, .cons hs hss, d, n => (hs.laidOut d n).append (hss.laidOut d n)

/-- From the end of a then-branch on, one more block is open. -/
theorem Stmt.ElseEmitted.laidOut : ∀ {orElse : Option Stmt}, ElseEmitted α orElse →
    ∀ d n, LaidOut d (n + 1) (Stmt.elseLines (d + n) orElse) n
  | _, .none, d, n => (LineOf.close (α := α)).laidOut d n
  | some (.block body), .block hbody, d, n =>
    ((LineOf.els (α := α)).laidOut d n).append (hbody.laidOut d (n + 1)) |>.append
      ((LineOf.close (α := α)).laidOut d n)
  | some (.ifElse cond body orElse), .chain hcond hbody helse, d, n => by
    rw [Stmt.elseLines, indented_text]
    exact (((LineOf.elseIf hcond).laidOut d n).append (hbody.laidOut d (n + 1))).append
      (helse.laidOut d n)

end

/-! ### Reading with a stack -/

/-- A block that is open, by what it makes with the statements around it. -/
inductive Reading.Frame
  /-- A loop or an else-branch, given its statements. -/
  | block (close : List Stmt → List Stmt)
  /-- A then-branch, given its statements and what stands for an else-branch. -/
  | branch (close : List Stmt → Option Stmt → List Stmt)

/-- How far lines have been read. -/
structure Reading where
  /-- The statements of the innermost open block. -/
  done : List Stmt := []
  frames : List Reading.Frame := []

namespace Reading

/-- Go on with a line. A line that ends a block where none is open is passed over. -/
def step (r : Reading) : Line → Reading
  | .stmt s => { r with done := r.done ++ [s] }
  | .opensIf c =>
    { frames := .branch (fun body orElse => r.done ++ [.ifElse c body orElse]) :: r.frames }
  | .opensLoop c => { frames := .block (fun body => r.done ++ [.loop c body]) :: r.frames }
  | .elseIf c =>
    match r.frames with
    | .branch close :: frames =>
      { frames := .branch (fun body orElse => close r.done (some (.ifElse c body orElse))) :: frames }
    | _ => r
  | .els =>
    match r.frames with
    | .branch close :: frames =>
      { frames := .block (fun body => close r.done (some (.block body))) :: frames }
    | _ => r
  | .close =>
    match r.frames with
    | .block close :: frames => { done := close r.done, frames }
    | .branch close :: frames => { done := close r.done none, frames }
    | [] => r

/-- Read lines. -/
def run (α : Alphabet) (r : Reading) (lines : List String) : Reading :=
  lines.foldl (fun r line => r.step (read α (unindented line))) r

theorem run_append (r : Reading) (lines lines' : List String) :
    run α r (lines ++ lines') = run α (run α r lines) lines' :=
  List.foldl_append

/-- Go on with statements as a whole. -/
def push (r : Reading) (ss : List Stmt) : Reading :=
  { r with done := r.done ++ ss }

end Reading

theorem LineOf.run_cons {text : String} {line : Line} {ended begun : Nat}
    (h : LineOf α text line ended begun) (r : Reading) (d : Nat) (lines : List String) :
    Reading.run α r ((tabs d ++ text) :: lines) = Reading.run α (r.step line) lines := by
  show Reading.run α (r.step (Reading.read α (unindented (tabs d ++ text)))) lines = _
  rw [unindented_tabs h.head, h.read]

mutual

/-- **Wherever a statement stands, its lines are read as its outline.** -/
theorem Stmt.Emitted.run_lines : ∀ {s : Stmt}, s.Emitted α →
    ∀ d r, Reading.run α r (s.lines d) = r.push [s.outline]
  | _, .simple hs, d, r => by
    obtain ⟨text, htext⟩ := Reading.exists_printsAs hs
    rw [htext.lines, (LineOf.of_printsAs htext).run_cons]
    rfl
  | .loop cond body, .loop hcond hbody, d, r => by
    rw [Stmt.lines, Reading.run_append, (LineOf.opensLoop hcond).run_cons, hbody.run_bodyLines,
      LineOf.close.run_cons]
    rfl
  | .ifElse cond body orElse, .ifElse hcond hbody helse, d, r => by
    -- The then-branch stays open: what stands for an else-branch tells how it ends.
    rw [Stmt.lines, indented_text, Reading.run_append, (LineOf.opensIf hcond).run_cons,
      hbody.run_bodyLines]
    exact helse.run_elseLines d _ _ _

theorem Stmt.AllEmitted.run_bodyLines : ∀ {ss : List Stmt}, AllEmitted α ss →
    ∀ d r, Reading.run α r (Stmt.bodyLines d ss) = r.push (Stmt.outlines ss)
  | _, .nil, _, r => by
    show r = r.push []
    rw [Reading.push, List.append_nil]
  | _, .cons hs hss, d, r => by
    rw [Stmt.bodyLines, Reading.run_append, hs.run_lines, hss.run_bodyLines, Reading.push,
      Reading.push, List.append_assoc]
    rfl

/-- Behind the statements of a then-branch, what stands for its else-branch ends it. -/
theorem Stmt.ElseEmitted.run_elseLines : ∀ {orElse : Option Stmt}, ElseEmitted α orElse →
    ∀ d close body frames,
      Reading.run α { done := body, frames := .branch close :: frames } (Stmt.elseLines d orElse) =
        { done := close body (Stmt.elseOutline orElse), frames }
  | _, .none, d, close, body, frames => LineOf.close.run_cons _ d []
  | some (.block els), .block hels, d, close, body, frames => by
    rw [Stmt.elseLines, Reading.run_append, LineOf.els.run_cons, hels.run_bodyLines,
      LineOf.close.run_cons]
    rfl
  | some (.ifElse cond thn orElse), .chain hcond hthn helse, d, close, body, frames => by
    rw [Stmt.elseLines, indented_text, Reading.run_append, (LineOf.elseIf hcond).run_cons,
      hthn.run_bodyLines]
    exact helse.run_elseLines d _ _ _

end

/-! ### What is printed determines the tree -/

/-- Is a statement an if that goes on with another condition? -/
def Stmt.chains : Stmt → Bool
  | .ifElse _ _ (some (.ifElse ..)) => true
  | _ => false

/-- Is a statement an if with a block as its else-branch? -/
def Stmt.hasElseBlock : Stmt → Bool
  | .ifElse _ _ (some (.block _)) => true
  | _ => false

theorem Stmt.outline_ne {s t : Stmt} (hs : s.chains = true) (ht : t.hasElseBlock = true) :
    s.outline ≠ t.outline := by
  unfold Stmt.chains at hs
  unfold Stmt.hasElseBlock at ht
  split at hs
  · split at ht
    · simp [Stmt.outline, Stmt.elseOutline]
    · cases ht
  · cases hs

theorem Stmt.outlines_eq_map (ss : List Stmt) : Stmt.outlines ss = ss.map Stmt.outline := by
  induction ss with
  | nil => rfl
  | cons s ss ih => rw [Stmt.outlines, ih, List.map_cons]

/-- Bodies that are printed as the same lines, at whatever depth, have the same outline. -/
theorem Stmt.AllEmitted.outlines_eq {ss ts : List Stmt} (hss : AllEmitted α ss)
    (hts : AllEmitted α ts) {d e : Nat} (h : Stmt.bodyLines d ss = Stmt.bodyLines e ts) :
    Stmt.outlines ss = Stmt.outlines ts := by
  have hread : (Reading.run α {} (Stmt.bodyLines d ss)).done =
      (Reading.run α {} (Stmt.bodyLines e ts)).done := by
    rw [h]
  rw [hss.run_bodyLines, hts.run_bodyLines] at hread
  exact hread

/-- **Printed statements determine their tree.** A body is printed in lines whose brackets match,
each indented by the depth and one step for every block around it. Two bodies that are printed as
the same lines have the same tree with the same printed expressions, and the other way around; a
chain of conditions and an else-branch in the same place are never printed alike. -/
theorem Stmt.AllEmitted.printed_determines {ss ts : List Stmt} (hss : AllEmitted α ss)
    (hts : AllEmitted α ts) (d e : Nat) :
    Stmt.faults? ss = none ∧ LaidOut d 0 (Stmt.bodyLines d ss) 0 ∧
      (Stmt.bodyLines d ss = Stmt.bodyLines e ts → Stmt.outlines ss = Stmt.outlines ts) ∧
      (Stmt.outlines ss = Stmt.outlines ts → Stmt.bodyLines d ss = Stmt.bodyLines d ts) ∧
      ∀ (i : Nat) (s t : Stmt), ss[i]? = some s → ts[i]? = some t → s.chains = true →
        t.hasElseBlock = true → Stmt.bodyLines d ss ≠ Stmt.bodyLines e ts := by
  refine ⟨hss.faults?_eq_none, hss.laidOut d 0, hss.outlines_eq hts, fun h => ?_,
    fun i s t hs ht hchains helse h => ?_⟩
  · rw [← hss.bodyLines_outlines, h, hts.bodyLines_outlines]
  · have houtlines := hss.outlines_eq hts h
    rw [outlines_eq_map, outlines_eq_map] at houtlines
    have hsame : (ss.map Stmt.outline)[i]? = (ts.map Stmt.outline)[i]? := by
      rw [houtlines]
    rw [List.getElem?_map, List.getElem?_map, hs, ht] at hsame
    exact outline_ne hchains helse (Option.some.inj hsame)

namespace Printed

/-- A branch behind another one, in the same chain. -/
def chain : List Stmt :=
  [.ifElse (.ident "a") [.branch "break"] (some (.ifElse (.ident "b") [.ret []] none))]

/-- The same branch in an else-branch. -/
def nested : List Stmt :=
  [.ifElse (.ident "a") [.branch "break"] (some (.block [.ifElse (.ident "b") [.ret []] none]))]

theorem emitted_chain : Stmt.AllEmitted ascii chain :=
  .cons (.ifElse (.ident (by decide)) (.cons (.simple .leave) .nil)
    (.chain (.ident (by decide)) (.cons (.simple (.ret nofun)) .nil) .none)) .nil

theorem emitted_nested : Stmt.AllEmitted ascii nested :=
  .cons (.ifElse (.ident (by decide)) (.cons (.simple .leave) .nil)
    (.block (.cons (.ifElse (.ident (by decide)) (.cons (.simple (.ret nofun)) .nil) .none) .nil)))
    .nil

/-- The lines of the chain are laid out, and are not those of the else-branch. -/
theorem chain_laidOut_ne_nested :
    Stmt.AllEmitted ascii chain ∧ Stmt.AllEmitted ascii nested ∧
      LaidOut 1 0
        ["\tif a \x7b", "\t\tbreak", "\t\x7d else if b \x7b", "\t\treturn", "\t\x7d"] 0 ∧
      Stmt.bodyLines 1 chain ≠ Stmt.bodyLines 1 nested := by
  have hlines : Stmt.bodyLines 1 chain =
      ["\tif a \x7b", "\t\tbreak", "\t\x7d else if b \x7b", "\t\treturn", "\t\x7d"] := by
    decide
  obtain ⟨-, hlaid, -, -, hne⟩ := emitted_chain.printed_determines emitted_nested 1 1
  rw [hlines] at hlaid
  exact ⟨emitted_chain, emitted_nested, hlaid, hne 0 _ _ rfl rfl rfl rfl⟩

end Printed

end GoLift.Go
