import GoLift.Go.Printer
import Mathlib.Data.List.Basic

/-!
# Where a line comes apart

A line holds texts with separators between them: the commas of a list, the equals sign of an
assignment. A scan remembers which brackets are open, and refuses a separator where none is: it
stops where such a text ends, and nowhere before.

A text is `Solid` if a scan reads it to its end wherever it stands, and leaves open what was open
before. **What is put together from solid texts comes apart into the same texts**
(`pieces_intercalate`, `pieces_assigned`).
-/

set_option autoImplicit false

namespace GoLift.Go

/-! ### Scanning -/

/-- What closes a bracket. -/
def closer? : Char → Option Char
  | '(' => some ')'
  | '[' => some ']'
  | '\x7b' => some '\x7d'
  | _ => none

/-- The closing brackets that are awaited, behind one more character. -/
def bracketStep (awaited : List Char) (c : Char) : Option (List Char) :=
  match closer? c with
  | some close => some (close :: awaited)
  | none =>
    if c ∈ [')', ']', '\x7d'] then
      match awaited with
      | close :: awaited => if c = close then some awaited else none
      | [] => none
    else some awaited

/-- The closing brackets that are awaited behind a text. -/
def brackets (awaited cs : List Char) : Option (List Char) :=
  cs.foldlM bracketStep awaited

/-- What the characters just before are, as far as the sign of an assignment asks for it. -/
inductive Gap
  | tight
  | blank
  /-- An equals sign behind a blank. -/
  | sign
deriving DecidableEq, Repr

/-- An equals sign between blanks is refused at its second blank. -/
def Gap.step : Gap → Char → Option Gap
  | .sign, ' ' => none
  | _, ' ' => some .blank
  | .blank, '=' => some .sign
  | _, _ => some .tight

/-- How far a text has been read. -/
structure Scan where
  /-- The closing brackets that are awaited. -/
  awaited : List Char := []
  gap : Gap := .tight
deriving DecidableEq, Repr

namespace Scan

/-- Read a character, unless it is where a separator ends: a comma outside of brackets, or the blank
behind the sign of an assignment. -/
def step (s : Scan) (c : Char) : Option Scan :=
  if c = ',' ∧ s.awaited = [] then none
  else do
    let gap ← s.gap.step c
    let awaited ← bracketStep s.awaited c
    return ⟨awaited, gap⟩

/-- Read a text. -/
def run (s : Scan) (cs : List Char) : Option Scan :=
  cs.foldlM step s

theorem run_append (s : Scan) (cs ds : List Char) :
    s.run (cs ++ ds) = s.run cs >>= (run · ds) :=
  List.foldlM_append

theorem run_cons (s : Scan) (c : Char) (cs : List Char) :
    s.run (c :: cs) = s.step c >>= (run · cs) :=
  List.foldlM_cons

/-- What is read has matching brackets as far as it goes. -/
theorem brackets_of_run {s s' : Scan} {cs : List Char} (h : s.run cs = some s') :
    brackets s.awaited cs = some s'.awaited := by
  induction cs generalizing s with
  | nil =>
    obtain rfl : s = s' := Option.some.inj h
    rfl
  | cons c cs ih =>
    obtain ⟨t, hstep, hrun⟩ := Option.bind_eq_some_iff.1 ((run_cons s c cs).symm.trans h)
    unfold step at hstep
    split at hstep
    · cases hstep
    · obtain ⟨gap, -, hstep⟩ := Option.bind_eq_some_iff.1 hstep
      obtain ⟨awaited, hawaited, ht⟩ := Option.bind_eq_some_iff.1 hstep
      obtain rfl : Scan.mk awaited gap = t := Option.some.inj ht
      show bracketStep s.awaited c >>= (brackets · cs) = _
      rw [hawaited]
      exact ih hrun

end Scan

/-- The pieces of a text, the first of which has been read up to here. A piece ends where a
separator is refused. -/
def piecesFrom (s : Scan) (piece : List Char) : List Char → List (List Char)
  | [] => [piece]
  | c :: cs =>
    match s.step c with
    | some s => piecesFrom s (piece ++ [c]) cs
    | none => piece :: piecesFrom {} [] cs

/-- The pieces of a text. -/
def pieces (cs : List Char) : List (List Char) :=
  piecesFrom {} [] cs

theorem piecesFrom_append {s s' : Scan} {cs : List Char} (h : s.run cs = some s')
    (piece rest : List Char) :
    piecesFrom s piece (cs ++ rest) = piecesFrom s' (piece ++ cs) rest := by
  induction cs generalizing s piece with
  | nil =>
    obtain rfl : s = s' := Option.some.inj h
    rw [List.nil_append, List.append_nil]
  | cons c cs ih =>
    obtain ⟨t, hstep, hrun⟩ := Option.bind_eq_some_iff.1 ((Scan.run_cons s c cs).symm.trans h)
    rw [List.cons_append, piecesFrom, hstep]
    show piecesFrom t (piece ++ [c]) (cs ++ rest) = _
    rw [ih hrun, List.append_assoc]
    rfl

/-! ### Texts without separators -/

/-- A text is read to its end wherever it stands, and leaves open what was open before. -/
def Solid (text : String) : Prop :=
  ∀ awaited gap, gap ≠ Gap.sign →
    Scan.run ⟨awaited, gap⟩ text.toList = some ⟨awaited, .tight⟩

/-- A text is read to its end inside of brackets. -/
def Inner (text : String) : Prop :=
  ∀ close awaited gap, gap ≠ Gap.sign → ∃ gap' ≠ Gap.sign,
    Scan.run ⟨close :: awaited, gap⟩ text.toList = some ⟨close :: awaited, gap'⟩

/-- The characters that a scan looks at. -/
def marks : List Char :=
  [')', ']', '\x7d', '(', '[', '\x7b', ',', ' ', '=']

/-- Is a character none of them? -/
def isPlain (c : Char) : Bool :=
  !marks.contains c

theorem isPlain_iff {c : Char} : isPlain c = true ↔ c ∉ marks := by
  simp [isPlain]

theorem step_plain {c : Char} (h : isPlain c = true) (awaited : List Char) (gap : Gap) :
    Scan.step ⟨awaited, gap⟩ c = some ⟨awaited, .tight⟩ := by
  simp only [isPlain_iff, marks, List.mem_cons, not_or] at h
  obtain ⟨hround, hsquare, hcurly, hround', hsquare', hcurly', hcomma, hblank, hsign, -⟩ := h
  have hcloser : closer? c = none := by
    unfold closer?
    split <;> first | rfl | contradiction
  have hbracket : bracketStep awaited c = some awaited := by
    simp [bracketStep, hcloser, hround, hsquare, hcurly]
  have hgap : gap.step c = some .tight := by
    unfold Gap.step
    split <;> first | rfl | contradiction
  simp [Scan.step, hcomma, hgap, hbracket]

variable {a b text : String} {ts : List String}

theorem Solid.append (ha : Solid a) (hb : Solid b) : Solid (a ++ b) := by
  intro awaited gap hgap
  rw [String.toList_append, Scan.run_append, ha awaited gap hgap]
  exact hb awaited .tight nofun

/-- A text without any character that a scan looks at. -/
theorem Solid.plain (hne : text ≠ "") (h : text.toList.all isPlain = true) : Solid text := by
  have hrun : ∀ cs : List Char, cs.all isPlain = true → ∀ awaited,
      Scan.run ⟨awaited, .tight⟩ cs = some ⟨awaited, .tight⟩ := by
    intro cs hcs awaited
    induction cs with
    | nil => rfl
    | cons c cs ih =>
      obtain ⟨hc, hcs⟩ := Bool.and_eq_true_iff.1 hcs
      rw [Scan.run_cons, step_plain hc]
      exact ih hcs
  intro awaited gap _
  obtain ⟨c, cs, hchars⟩ : ∃ c cs, text.toList = c :: cs :=
    List.exists_cons_of_ne_nil (by simpa using hne)
  rw [hchars] at h ⊢
  obtain ⟨hc, hcs⟩ := Bool.and_eq_true_iff.1 h
  rw [Scan.run_cons, step_plain hc]
  exact hrun cs hcs awaited

/-- A binary operator stands between blanks without being taken for an assignment. -/
theorem Solid.spaced {op : BinaryOp} (hop : op ∈ BinaryOp.all) (ha : Solid a) (hb : Solid b) :
    Solid (a ++ " " ++ op.symbol ++ " " ++ b) := by
  intro awaited gap hgap
  have hrun : Scan.run ⟨awaited, .tight⟩ (" " ++ op.symbol ++ " ").toList =
      some ⟨awaited, .blank⟩ := by
    simp only [BinaryOp.all, List.mem_cons, List.not_mem_nil, or_false] at hop
    rcases hop with rfl | rfl | rfl | rfl | rfl | rfl | rfl | rfl | rfl | rfl | rfl | rfl | rfl |
      rfl | rfl | rfl | rfl | rfl | rfl <;> rfl
  have htext : (a ++ " " ++ op.symbol ++ " " ++ b).toList =
      a.toList ++ ((" " ++ op.symbol ++ " ").toList ++ b.toList) := by
    simp
  rw [htext, Scan.run_append, ha awaited gap hgap]
  show Scan.run ⟨awaited, .tight⟩ _ = _
  rw [Scan.run_append, hrun]
  exact hb awaited .blank nofun

theorem Solid.blank (ha : Solid a) (hb : Solid b) : Solid (a ++ " " ++ b) := by
  intro awaited gap hgap
  have htext : (a ++ " " ++ b).toList = a.toList ++ ' ' :: b.toList := by
    simp
  rw [htext, Scan.run_append, ha awaited gap hgap]
  exact hb awaited .blank nofun

theorem Solid.inner (h : Solid text) : Inner text :=
  fun close awaited gap hgap => ⟨.tight, nofun, h (close :: awaited) gap hgap⟩

theorem Inner.nil : Inner "" :=
  fun _ _ gap hgap => ⟨gap, hgap, rfl⟩

theorem Inner.append (ha : Inner a) (hb : Inner b) : Inner (a ++ b) := by
  intro close awaited gap hgap
  obtain ⟨gap', hgap', ha⟩ := ha close awaited gap hgap
  obtain ⟨gap'', hgap'', hb⟩ := hb close awaited gap' hgap'
  refine ⟨gap'', hgap'', ?_⟩
  rw [String.toList_append, Scan.run_append, ha]
  exact hb

/-- What stands between the parts of a bracket's content. -/
theorem Inner.separator : ∀ sep ∈ [" ", ", ", "; "], Inner sep := by
  intro sep hsep close awaited gap hgap
  simp only [List.mem_cons, List.not_mem_nil, or_false] at hsep
  rcases hsep with rfl | rfl | rfl <;> cases gap <;>
    first | exact absurd rfl hgap | exact ⟨.blank, nofun, rfl⟩

/-- What is kept when texts are put together, joined texts have if they and the separator do. -/
theorem intercalate_induction {P : String → Prop} {sep : String} (nil : P "")
    (append : ∀ {a b : String}, P a → P b → P (a ++ b)) (hsep : P sep) (h : ∀ t ∈ ts, P t) :
    P (sep.intercalate ts) := by
  induction ts with
  | nil => exact nil
  | cons t ts ih =>
    obtain ⟨ht, hts⟩ := List.forall_mem_cons.1 h
    cases ts with
    | nil => exact ht
    | cons u ts =>
      rw [String.intercalate_cons_cons]
      exact append (append ht hsep) (ih hts)

theorem Inner.intercalate {sep : String} (hsep : sep ∈ [" ", ", ", "; "])
    (h : ∀ t ∈ ts, Inner t) : Inner (sep.intercalate ts) :=
  intercalate_induction .nil .append (separator sep hsep) h

theorem step_opening {o c : Char} (h : closer? o = some c) (awaited : List Char) (gap : Gap) :
    Scan.step ⟨awaited, gap⟩ o = some ⟨c :: awaited, .tight⟩ := by
  unfold closer? at h
  split at h <;> cases h <;> cases gap <;> rfl

theorem step_closing {o c : Char} (h : closer? o = some c) (awaited : List Char) (gap : Gap) :
    Scan.step ⟨c :: awaited, gap⟩ c = some ⟨awaited, .tight⟩ := by
  unfold closer? at h
  split at h <;> cases h <;> cases gap <;> rfl

/-- What stands between brackets ends with them. -/
theorem Inner.enclosed {o c : Char} {opening closing : String} (h : Inner text)
    (hmatch : closer? o = some c) (ho : opening.toList = [o]) (hc : closing.toList = [c]) :
    Solid (opening ++ text ++ closing) := by
  intro awaited gap _
  obtain ⟨gap', -, hrun⟩ := h c awaited .tight nofun
  rw [String.toList_append, String.toList_append, ho, hc, List.append_assoc, Scan.run_append,
    Scan.run_cons, step_opening hmatch]
  show Scan.run ⟨c :: awaited, .tight⟩ (text.toList ++ [c]) = _
  rw [Scan.run_append, hrun]
  show Scan.run ⟨c :: awaited, gap'⟩ [c] = _
  rw [Scan.run_cons, step_closing hmatch]
  rfl

theorem enclosed_toList {o : Char} {opening : String} (ho : opening.toList = [o])
    (text closing : String) :
    (opening ++ text ++ closing).toList = o :: (text.toList ++ closing.toList) := by
  rw [String.toList_append, String.toList_append, ho]
  rfl

theorem parens_toList (text : String) : (parens text).toList = '(' :: (text.toList ++ [')']) :=
  enclosed_toList (o := '(') rfl text ")"

theorem Inner.braces (h : Inner text) : Solid ("\x7b" ++ text ++ "\x7d") :=
  h.enclosed (o := '\x7b') rfl rfl rfl

theorem Solid.noContent : Solid "\x7b\x7d" := by
  intro awaited gap _
  cases gap <;> rfl

theorem Inner.parens (h : Inner text) : Solid (parens text) :=
  h.enclosed (o := '(') rfl rfl rfl

/-- What is left open by a text is what was open before it. -/
def Matched (text : String) : Prop :=
  ∀ awaited, brackets awaited text.toList = some awaited

theorem Solid.matched (h : Solid text) : Matched text :=
  fun awaited => Scan.brackets_of_run (h awaited .tight nofun)

theorem brackets_append (awaited cs ds : List Char) :
    brackets awaited (cs ++ ds) = brackets awaited cs >>= (brackets · ds) :=
  List.foldlM_append

theorem Matched.append (ha : Matched a) (hb : Matched b) : Matched (a ++ b) := by
  intro awaited
  rw [String.toList_append, brackets_append, ha awaited]
  exact hb awaited

theorem Matched.blank : Matched " " :=
  fun _ => rfl

theorem Matched.intercalate {sep : String} (hsep : Matched sep) (h : ∀ t ∈ ts, Matched t) :
    Matched (sep.intercalate ts) :=
  intercalate_induction (fun _ => rfl) .append hsep h

/-! ### Taking texts apart -/

/-- A text that is read to its end is one piece. -/
theorem pieces_of_run {s : Scan} {cs : List Char} (h : Scan.run {} cs = some s) :
    pieces cs = [cs] := by
  have happend := piecesFrom_append h [] []
  rw [List.append_nil] at happend
  exact happend

/-- An assignment comes apart behind its sign. -/
theorem pieces_assigned {cs : List Char} (hcs : Scan.run {} cs = some {}) (hb : Solid b) :
    pieces (cs ++ (" = " ++ b).toList) = [cs ++ [' ', '='], b.toList] := by
  have hsign : piecesFrom {} cs (" = " ++ b).toList =
      (cs ++ [' '] ++ ['=']) :: pieces b.toList := by
    rw [String.toList_append]
    rfl
  have happend := piecesFrom_append hcs [] (" = " ++ b).toList
  rw [List.nil_append, hsign, pieces_of_run (hb [] .tight nofun), List.append_assoc] at happend
  exact happend

/-- A list comes apart at its commas. -/
theorem pieces_intercalate {t : String} (h : ∀ u ∈ t :: ts, Solid u) :
    pieces (' ' :: (", ".intercalate (t :: ts)).toList) =
      (t :: ts).map (fun u => ' ' :: u.toList) := by
  have hrun : ∀ u ∈ t :: ts, Scan.run {} (' ' :: u.toList) = some {} :=
    fun u hu => h u hu [] .blank nofun
  induction ts generalizing t with
  | nil => exact pieces_of_run (hrun t List.mem_cons_self)
  | cons u ts ih =>
    have htail : pieces (' ' :: (", ".intercalate (u :: ts)).toList) =
        (u :: ts).map (fun u => ' ' :: u.toList) :=
      ih (fun v hv => h v (List.mem_cons_of_mem t hv))
        (fun v hv => hrun v (List.mem_cons_of_mem t hv))
    have hcomma : piecesFrom {} (' ' :: t.toList) (", " ++ ", ".intercalate (u :: ts)).toList =
        (' ' :: t.toList) :: pieces (' ' :: (", ".intercalate (u :: ts)).toList) := by
      rw [String.toList_append]
      rfl
    have happend := piecesFrom_append (hrun t List.mem_cons_self) []
      (", " ++ ", ".intercalate (u :: ts)).toList
    rw [List.nil_append, hcomma, htail, List.cons_append, ← String.toList_append,
      ← String.append_assoc, ← String.intercalate_cons_cons] at happend
    exact happend

end GoLift.Go
