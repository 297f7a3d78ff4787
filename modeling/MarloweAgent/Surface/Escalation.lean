import MarloweAgent.Loop.Driver
import MarloweAgent.Surface.Wrapping

/-! The escalation overlay. The harness's own row is laid out before anything that an agent
supplied, and nothing an agent supplied is drawn over it. -/

namespace MarloweAgent.Surface.Escalation
open Contract Library.Wrapping Loop

/-! ## Whole words -/

def maxRows : Nat := 65535

/-- The rows so far, and how much of the last one is used. -/
def countStep (width : Nat) (state : Nat × Nat) (word : List Char) : Nat × Nat :=
  let need := if state.2 = 0 then word.length else state.2 + 1 + word.length
  if width < need ∧ 0 < state.2 then (min (state.1 + 1) maxRows, word.length) else (state.1, need)

def wrappedRows (s : List Char) (width : Nat) : Nat :=
  if width = 0 then 1 else max ((words s).foldl (countStep width) (1, 0)).1 1

def wrapStep (width : Nat) (r : Rows Char) (word : List Char) : Rows Char :=
  let need := if r.line = [] then word.length else r.line.length + 1 + word.length
  if width < need ∧ r.line ≠ [] then ⟨r.full ++ [r.line], word⟩
  else { r with line := (if r.line = [] then [] else r.line ++ [' ']) ++ word }

def wrap (s : List Char) (width : Nat) : List (List Char) :=
  if width = 0 then [[]] else ((words s).foldl (wrapStep width) ⟨[], []⟩).all

/-- The words, none of them cut. -/
def wholeWords (s : List Char) : List (Library.Wrapping.Piece Char) := (words s).map (⟨some ' ', ·⟩)

theorem wrapStep_eq (width : Nat) (r : Rows Char) (word : List Char) :
    wrapStep width r word = r.add width ⟨some ' ', word⟩ := by
  have hinner : (Piece.inner ⟨some ' ', word⟩ : List Char) = ' ' :: word := rfl
  unfold wrapStep Rows.add
  rw [hinner, List.length_cons]
  by_cases hline : r.line = []
  · simp [hline]
  · have hcount : r.line.length + 1 + word.length = r.line.length + (word.length + 1) := by omega
    simp only [hline, if_false, ne_eq, not_false_eq_true, and_true]
    rw [hcount]
    by_cases hroom : r.line.length + (word.length + 1) ≤ width
    · rw [if_neg (Nat.not_lt_of_le hroom), if_pos hroom, List.append_assoc]
      rfl
    · rw [if_pos (Nat.lt_of_not_le hroom), if_neg hroom]

theorem wrap_eq_fill {width : Nat} (hpos : 0 < width) (s : List Char) :
    wrap s width = fill width (wholeWords s) := by
  have hstep : wrapStep width = fun r word => r.add width ⟨some ' ', word⟩ := by
    funext r word
    exact wrapStep_eq width r word
  rw [wrap, if_neg (Nat.ne_of_gt hpos), fill, wholeWords, List.foldl_map, hstep]

theorem countStep_eq {width : Nat} (r : Rows Char) (word : List Char) :
    countStep width (min r.all.length maxRows, r.line.length) word =
      (min (wrapStep width r word).all.length maxRows, (wrapStep width r word).line.length) := by
  unfold countStep wrapStep
  by_cases hline : r.line = []
  · simp [hline, Rows.all]
  · have hbegun : ¬r.line.length = 0 := by simpa using hline
    have hpos : 0 < r.line.length := Nat.pos_of_ne_zero hbegun
    simp only [hline, hbegun, hpos, if_false, ne_eq, not_false_eq_true, and_true]
    by_cases hroom : width < r.line.length + 1 + word.length
    · rw [if_pos hroom, if_pos hroom]
      refine Prod.ext ?_ rfl
      simp only [Rows.all, List.length_append, List.length_singleton]
      omega
    · rw [if_neg hroom, if_neg hroom]
      refine Prod.ext (by simp [Rows.all]) ?_
      simp only [List.length_append, List.length_singleton]

/-- The rows that are reckoned are the rows that are drawn. -/
theorem wrappedRows_eq (s : List Char) (width : Nat) :
    wrappedRows s width = min (wrap s width).length maxRows := by
  have hfold (ws : List (List Char)) (r : Rows Char) :
      ws.foldl (countStep width) (min r.all.length maxRows, r.line.length) =
        (min (ws.foldl (wrapStep width) r).all.length maxRows, (ws.foldl (wrapStep width) r).line.length) := by
    induction ws generalizing r with
    | nil => rfl
    | cons word ws ih => rw [List.foldl_cons, List.foldl_cons, countStep_eq, ih]
  unfold wrappedRows wrap
  by_cases hzero : width = 0
  · rw [if_pos hzero, if_pos hzero]
    rfl
  · have hrows := hfold (words s) ⟨[], []⟩
    have hstart : (min (Rows.mk [] [] : Rows Char).all.length maxRows, (Rows.mk [] [] : Rows Char).line.length) =
        (1, 0) := rfl
    have hall : 1 ≤ ((words s).foldl (wrapStep width) ⟨[], []⟩).all.length := by
      rw [Rows.all, List.length_append, List.length_singleton]
      exact Nat.le_add_left 1 _
    rw [if_neg hzero, if_neg hzero, ← hstart, hrows, maxRows]
    omega

/-- Every row but the first begins with a word. -/
theorem length_wrap_le (s : List Char) (width : Nat) : (wrap s width).length ≤ (words s).length + 1 := by
  have hfold (ws : List (List Char)) (r : Rows Char) :
      (ws.foldl (wrapStep width) r).all.length ≤ r.all.length + ws.length := by
    induction ws generalizing r with
    | nil => exact Nat.le_refl _
    | cons word ws ih =>
      have hstep : (wrapStep width r word).all.length ≤ r.all.length + 1 := by
        unfold wrapStep Rows.all
        dsimp only
        split_ifs <;> simp
      have hrest := ih (wrapStep width r word)
      rw [List.foldl_cons, List.length_cons]
      omega
  unfold wrap
  split_ifs
  · exact Nat.le_add_left ..
  · have hrows := hfold (words s) ⟨[], []⟩
    rwa [Nat.add_comm] at hrows

/-- Words that fit are laid out whole, in the fewest rows. -/
theorem wrap_laid {s : List Char} {width : Nat} (hpos : 0 < width) (hfits : ∀ word ∈ words s, word.length ≤ width) :
    Laid width (wholeWords s) (wrap s width) ∧
      ∀ rows, Laid width (wholeWords s) rows → (wrap s width).length ≤ rows.length := by
  rw [wrap_eq_fill hpos]
  refine fill_laid fun p hp => ?_
  obtain ⟨word, hword, rfl⟩ := List.mem_map.mp hp
  exact ⟨solid_words hword, hfits word hword⟩

/-! ## The regions -/

/-- A frame's edges are within `u16`, so that no sum of the layout leaves it. -/
structure Rect where
  x : Nat
  y : Nat
  width : Nat
  height : Nat
  deriving DecidableEq, Repr

structure EscalationLayout where
  overlay : Rect
  terminate : Rect
  header : Rect
  options : Rect
  cost : Rect
  deriving DecidableEq, Repr

def terminateLabel : String := "terminate this agent and the runs under it"

def quoteRule : Char := '▏'

def terminateRowText : List Char := quoteRule :: ' ' :: terminateLabel.toList

/-- `TerminationCost::ROWS`. -/
def costRowCount : Nat := 6

def layout (area : Rect) : EscalationLayout :=
  let inset := if 4 < area.width then 1 else 0
  let overlay : Rect := ⟨area.x + inset, area.y, area.width - 2 * inset, area.height⟩
  let tRows := min (wrappedRows terminateRowText overlay.width) (max overlay.height 1)
  let terminate : Rect := ⟨overlay.x, overlay.y + (overlay.height - tRows), overlay.width, tRows⟩
  let avail := overlay.height - tRows
  let hRows := if 5 ≤ avail then 3 else if 4 ≤ avail then 2 else 0
  let header : Rect := ⟨overlay.x, overlay.y, overlay.width, hRows⟩
  let y := overlay.y + hRows
  let avail := avail - hRows
  let cRows := min (costRowCount + 1) (avail - 2)
  let costY := overlay.y + (overlay.height - (tRows + cRows))
  let cost : Rect := ⟨overlay.x, costY, overlay.width, cRows⟩
  let options : Rect := ⟨overlay.x, y, overlay.width, avail - cRows⟩
  ⟨overlay, terminate, header, options, cost⟩

/-- The regions are the rows of the overlay, from the header to the harness's own, with none between
two of them and none in two. -/
structure Stacked (l : EscalationLayout) : Prop where
  header : l.header.y = l.overlay.y
  options : l.options.y = l.header.y + l.header.height
  cost : l.cost.y = l.options.y + l.options.height
  terminate : l.terminate.y = l.cost.y + l.cost.height
  whole : l.terminate.y + l.terminate.height = l.overlay.y + max l.overlay.height 1
  columns : ∀ region ∈ [l.header, l.options, l.cost, l.terminate],
    region.x = l.overlay.x ∧ region.width = l.overlay.width

theorem one_le_wrappedRows (s : List Char) (width : Nat) : 1 ≤ wrappedRows s width := by
  unfold wrappedRows
  split_ifs
  · exact Nat.le_refl 1
  · exact Nat.le_max_right ..

theorem stacked_layout (area : Rect) : Stacked (layout area) := by
  have hrows := one_le_wrappedRows terminateRowText (layout area).overlay.width
  have hcolumns : ∀ region ∈ [(layout area).header, (layout area).options, (layout area).cost, (layout area).terminate],
      region.x = (layout area).overlay.x ∧ region.width = (layout area).overlay.width := by
    intro region hregion
    simp only [List.mem_cons, List.not_mem_nil, or_false] at hregion
    rcases hregion with rfl | rfl | rfl | rfl <;> exact ⟨rfl, rfl⟩
  refine ⟨rfl, rfl, ?_, ?_, ?_, hcolumns⟩ <;> unfold layout costRowCount at * <;> simp only at * <;>
    split_ifs at * <;> omega

/-- The harness's own row has what it needs of the frame, whatever else there is to draw. -/
theorem terminate_height (area : Rect) :
    (layout area).terminate.height =
      min (wrap terminateRowText (layout area).terminate.width).length (max area.height 1) := by
  have hwords : (words terminateRowText).length = 9 := by decide
  have hfew := length_wrap_le terminateRowText (layout area).terminate.width
  have hmax : (wrap terminateRowText (layout area).terminate.width).length ≤ maxRows := by
    unfold maxRows
    omega
  change min (wrappedRows terminateRowText (layout area).terminate.width) (max area.height 1) = _
  rw [wrappedRows_eq, Nat.min_eq_left hmax]

/-- What is left over has two rows for choices before it has one for the cost, and the cost comes
before the header on one height only. -/
theorem options_before_cost (area : Rect) :
    let left := area.height - (layout area).terminate.height
    min 2 left ≤ (layout area).options.height ∧
      ((layout area).header.height = 0 ∧ 0 < (layout area).cost.height ↔ left = 3) := by
  unfold layout costRowCount
  simp only
  generalize area.height - min (wrappedRows terminateRowText _) (max area.height 1) = left
  split_ifs <;> simp only [false_and, true_and, false_iff] <;> omega

/-! ## What is drawn -/

inductive Ink
  | bright
  | normal
  | dim
  | accent
  | red
  | plain
  deriving DecidableEq, Repr

abbrev Line := List (Span Ink)

def line (text : String) (ink : Ink) : Line := [⟨text.toList, ink⟩]

def markers : List Char := ['⋯', '▸', '▾', '↵', quoteRule, '─', '│', '█']

def isReserved (c : Char) : Bool := (0x2500 ≤ c.toNat && c.toNat ≤ 0x259F) || markers.contains c

/-- `mark_reserved`. -/
def markReserved (s : String) : String :=
  String.ofList (s.toList.flatMap fun c =>
    if isReserved c then ['<', 'U', '+'] ++ Text.hex4 c.toNat ++ ['>'] else [c])

def prepareModelText (s : String) : String := markReserved (Text.sanitizeProse s)

def severityWord : EscalationSeverity → String
  | .advisory => "advisory"
  | .blocking => "blocking"
  | .critical => "critical"

def categoryWord : EscalationCategory → String
  | .blockedByPermission => "blocked by permission"
  | .scopeContradiction => "scope contradiction"
  | .externalSystemRefused => "external system refused"
  | .conflictingInstructions => "conflicting instructions"
  | .suspectedInjection => "suspected injection"
  | .irreversibleActionRequired => "irreversible action required"

inductive IrreversibleAct
  | filesWritten (count : Nat)
  | commitsPushed (count : Nat)
  | messagesSent (count : Nat)
  | processesRun (count : Nat)
  deriving DecidableEq, Repr

inductive OrphanPolicyLabel
  | adopt (run : String)
  | detach
  | terminate
  deriving DecidableEq, Repr

def OrphanPolicyLabel.plainly : OrphanPolicyLabel → String
  | .adopt run => "children are reparented to run " ++ run ++ " and keep running"
  | .detach => "children keep running with no parent"
  | .terminate => "children end with it"

structure Survivor where
  run : String
  policy : OrphanPolicyLabel
  deriving DecidableEq, Repr

structure TerminationCost where
  runs : Nat
  ageMs : Nat
  spendMicrosUsd : Nat
  artifacts : Nat
  irreversible : List IrreversibleAct
  survivors : List Survivor
  deriving DecidableEq, Repr

inductive SourceEvidence
  | noExternalSources
  | external (sources : Nat) (host : String) (fetchedMsAgo : Nat)
  deriving DecidableEq, Repr

/-- The options are at most four from their construction on. -/
structure EscalationView where
  raisedBy : String
  severity : EscalationSeverity
  category : EscalationCategory
  options : List String
  cost : TerminationCost
  evidence : SourceEvidence
  sentence : Option String
  deriving DecidableEq, Repr

def IrreversibleAct.text : IrreversibleAct → String
  | .filesWritten count => toString count ++ " files written"
  | .commitsPushed count => toString count ++ " commits pushed"
  | .messagesSent count => toString count ++ " messages sent"
  | .processesRun count => toString count ++ " processes run"

def costRows (c : TerminationCost) : List Line :=
  let irreversible :=
    if c.irreversible = [] then "nothing irreversible recorded"
    else Text.join ", " (c.irreversible.map IrreversibleAct.text)
  let survivors :=
    if c.survivors = [] then "nothing survives it"
    else "keeps running: " ++ Text.join ", " (c.survivors.map fun s => s.run ++ " (" ++ s.policy.plainly ++ ")")
  [line ("  " ++ toString c.runs ++ " runs") .plain,
    line ("  running for " ++ toString (c.ageMs / 1000) ++ "s") .plain,
    line ("  spent " ++ toString (c.spendMicrosUsd / 10000) ++ "c") .plain,
    line ("  " ++ toString c.artifacts ++ " artifacts") .plain,
    line ("  " ++ irreversible) .plain,
    line ("  " ++ survivors) .plain]

def evidenceRow : SourceEvidence → Line
  | .noExternalSources => line "  no external sources read" .plain
  | .external sources host fetchedMsAgo =>
    line ("  " ++ toString sources ++ " external sources; most recent " ++ host ++ " " ++
      toString (fetchedMsAgo / 1000) ++ "s ago") .plain

def headRows (view : EscalationView) : List Line :=
  [line (severityWord view.severity ++ " escalation from " ++ view.raisedBy) .bright,
    line (categoryWord view.category) .dim] ++
    (view.sentence.toList.map fun sentence => line (prepareModelText sentence) .normal)

def optionRow (i : Nat) (label : String) : Line :=
  [⟨("  " ++ toString (i + 1) ++ "  ").toList, .accent⟩, ⟨(prepareModelText label).toList, .normal⟩]

def optionRows (view : EscalationView) (firstOption : Nat) : List Line :=
  (view.options.mapIdx optionRow).drop firstOption

def Rect.Covers (r : Rect) (p : Nat × Nat) : Prop :=
  r.x ≤ p.1 ∧ p.1 < r.x + r.width ∧ r.y ≤ p.2 ∧ p.2 < r.y + r.height

/-- The terminal's cells. `Paragraph::render` draws in its area, and from what stands there. -/
structure Screen (γ : Type) where
  scrim : Rect → (Nat × Nat → γ) → Nat × Nat → γ
  clear : Rect → (Nat × Nat → γ) → Nat × Nat → γ
  render : Rect → List Line → (Nat × Nat → γ) → Nat × Nat → γ
  confined : ∀ area lines buf p, ¬area.Covers p → render area lines buf p = buf p
  local_render : ∀ area lines buf buf', (∀ p, area.Covers p → buf p = buf' p) →
    ∀ p, area.Covers p → render area lines buf p = render area lines buf' p

instance (r : Rect) (p : Nat × Nat) : Decidable (r.Covers p) := by
  unfold Rect.Covers
  infer_instance

/-- A screen of characters without colours. -/
def letterScreen : Screen Char where
  scrim _ buf := buf
  clear area buf p := if area.Covers p then ' ' else buf p
  render area lines buf p :=
    if area.Covers p then
      match lines[p.2 - area.y]?.bind fun line => (line.flatMap Span.text)[p.1 - area.x]? with
      | some c => c
      | none => buf p
    else buf p
  confined _ _ _ _ hp := if_neg hp
  local_render area lines buf buf' h p hp := by
    rw [if_pos hp, if_pos hp, h p hp]

variable {γ : Type}

/-- `draw_escalation`. -/
def drawEscalation (screen : Screen γ) (view : EscalationView) (area : Rect) (firstOption : Nat)
    (buf : Nat × Nat → γ) : Nat × Nat → γ :=
  let l := layout area
  let buf := screen.clear l.overlay (screen.scrim area buf)
  let buf := if 0 < l.header.height then screen.render l.header ((headRows view).take l.header.height) buf else buf
  let buf := if 0 < l.options.height then screen.render l.options (optionRows view firstOption) buf else buf
  let buf :=
    if 0 < l.cost.height then screen.render l.cost (costRows view.cost ++ [evidenceRow view.evidence]) buf else buf
  let text := (wrap terminateRowText l.terminate.width).map fun s => [⟨s, .red⟩]
  screen.render l.terminate text buf

/-- The regions are rows of the overlay, one below the other. The harness's own is as high as its
label, as far as the frame goes, and no row of the label is longer than the region is wide. -/
theorem terminate_held (area : Rect) (hwidth : 9 ≤ (layout area).terminate.width) :
    let rows := wrap terminateRowText (layout area).terminate.width
    Stacked (layout area) ∧
      (layout area).terminate.height = min rows.length (max area.height 1) ∧
      Laid (layout area).terminate.width (wholeWords terminateRowText) rows ∧
      ∀ rows', Laid (layout area).terminate.width (wholeWords terminateRowText) rows' → rows.length ≤ rows'.length := by
  have hwords : ∀ word ∈ words terminateRowText, word.length ≤ 9 := by decide
  exact ⟨stacked_layout area, terminate_height area,
    wrap_laid (by omega) fun word hword => Nat.le_trans (hwords word hword) hwidth⟩

theorem terminate_held_narrow :
    (layout ⟨0, 0, 11, 24⟩).terminate.height =
      min (wrap terminateRowText (layout ⟨0, 0, 11, 24⟩).terminate.width).length 24 :=
  (terminate_held ⟨0, 0, 11, 24⟩ (by decide)).2.1

/-! ## What an agent supplied -/

theorem digit_toDigits {n : Nat} : ∀ c ∈ Nat.toDigits 16 n, ∃ d < 16, c = Nat.digitChar d := by
  induction n using Nat.strongRecOn with
  | ind n ih =>
    intro c hc
    rw [Nat.toDigits_eq_if (by decide)] at hc
    split_ifs at hc with hlt
    · exact ⟨n, hlt, List.mem_singleton.mp hc⟩
    · rcases List.mem_append.mp hc with hhead | hlast
      · exact ih (n / 16) (by omega) c hhead
      · exact ⟨n % 16, Nat.mod_lt _ (by decide), List.mem_singleton.mp hlast⟩

theorem unreserved_hex4 {n : Nat} {c : Char} (h : c ∈ Text.hex4 n) : isReserved c = false := by
  have hdigit : ∀ d < 16, isReserved (Nat.digitChar d).toUpper = false := by decide
  unfold Text.hex4 at h
  rcases List.mem_append.mp h with hzero | hupper
  · rw [(List.mem_replicate.mp hzero).2]
    rfl
  · obtain ⟨d, hd, rfl⟩ := List.mem_map.mp hupper
    obtain ⟨d, hlt, rfl⟩ := digit_toDigits d hd
    exact hdigit d hlt

/-- No glyph of the harness is left in text that was marked. -/
theorem unreserved_markReserved {s : String} {c : Char} (h : c ∈ (markReserved s).toList) : isReserved c = false := by
  unfold markReserved at h
  rw [String.toList_ofList] at h
  obtain ⟨d, -, hd⟩ := List.mem_flatMap.mp h
  split_ifs at hd with hreserved
  · simp only [List.mem_append, List.mem_cons, List.not_mem_nil, or_false] at hd
    rcases hd with ((rfl | rfl | rfl) | hhex) | rfl
    · rfl
    · rfl
    · rfl
    · exact unreserved_hex4 hhex
    · rfl
  · rw [List.mem_singleton.mp hd]
    simpa using hreserved

theorem unreserved_prepareModelText {s : String} {c : Char} (h : c ∈ (prepareModelText s).toList) :
    isReserved c = false := by
  unfold prepareModelText at h
  exact unreserved_markReserved h

theorem unreserved_digit {c : Char} (h : c.isDigit = true) : isReserved c = false := by
  have hmarkers : ∀ d ∈ markers, (!d.isDigit) = true := List.all_eq_true.mp (by decide)
  have hhi : c.toNat ≤ 57 := (Char.isDigit_iff_toNat.mp h).2
  have hblock : ¬0x2500 ≤ c.toNat := by omega
  have hmarker : c ∉ markers := by
    intro hmem
    have hdigit := hmarkers c hmem
    rw [h] at hdigit
    exact Bool.false_ne_true hdigit
  unfold isReserved
  simp [hblock, hmarker]

/-- An option is the harness's number and marked text. -/
theorem unreserved_optionRow {i : Nat} {label : String} {span : Span Ink} (h : span ∈ optionRow i label) :
    ∀ c ∈ span.text, isReserved c = false := by
  intro c hc
  have hblanks : ∀ d ∈ "  ".toList, isReserved d = false := fun d hd => by
    rw [← Bool.not_eq_true']
    exact List.all_eq_true.mp (by decide : ("  ".toList.all fun d => !isReserved d) = true) d hd
  simp only [optionRow, List.mem_cons, List.not_mem_nil, or_false] at h
  rcases h with rfl | rfl
  · dsimp only at hc
    rw [String.toList_append, String.toList_append] at hc
    rcases List.mem_append.mp hc with hnumber | hblank
    · rcases List.mem_append.mp hnumber with hblank | hdigit
      · exact hblanks c hblank
      · rw [Nat.toString_eq_ofList_toDigits, String.toList_ofList] at hdigit
        exact unreserved_digit (Nat.isDigit_of_mem_toDigits (by decide) (by decide) hdigit)
    · exact hblanks c hblank
  · dsimp only at hc
    exact unreserved_prepareModelText hc

/-- What an agent wrote has no glyph of the harness. -/
theorem unreserved_rows (view : EscalationView) (firstOption : Nat) :
    ∀ row ∈ optionRows view firstOption ++ (headRows view).drop 2, ∀ span ∈ row, ∀ c ∈ span.text, isReserved c = false := by
  intro row hrow span hspan
  rcases List.mem_append.mp hrow with hoption | hhead
  · obtain ⟨i, hi, rfl⟩ := List.mem_mapIdx.mp (List.mem_of_mem_drop hoption)
    exact unreserved_optionRow hspan
  · intro c hc
    have hsentence : row ∈ view.sentence.toList.map fun sentence => line (prepareModelText sentence) .normal := hhead
    obtain ⟨sentence, -, rfl⟩ := List.mem_map.mp hsentence
    rw [List.mem_singleton.mp hspan] at hc
    dsimp only at hc
    exact unreserved_prepareModelText hc

/-! ## The harness's own row -/

theorem Stacked.disjoint {l : EscalationLayout} (h : Stacked l) {region : Rect}
    (hregion : region ∈ [l.header, l.options, l.cost]) {p : Nat × Nat} (hp : l.terminate.Covers p) : ¬region.Covers p := by
  intro hcovers
  have hheader := h.header
  have hoptions := h.options
  have hcost := h.cost
  have hterminate := h.terminate
  obtain ⟨-, -, htop, -⟩ := hp
  obtain ⟨-, -, -, hbottom⟩ := hcovers
  simp only [List.mem_cons, List.not_mem_nil, or_false] at hregion
  rcases hregion with rfl | rfl | rfl <;> omega

/-- Whatever the view holds and wherever it is scrolled to, the harness's row is the label drawn on
cells that were cleared, and no text of an agent has the glyph that row begins with. -/
theorem terminate_unforged (screen : Screen γ) (view : EscalationView) (area : Rect) (firstOption : Nat)
    (buf : Nat × Nat → γ) :
    (∀ p, (layout area).terminate.Covers p →
      drawEscalation screen view area firstOption buf p =
        screen.render (layout area).terminate
          ((wrap terminateRowText (layout area).terminate.width).map fun s => [⟨s, .red⟩])
          (screen.clear (layout area).overlay (screen.scrim area buf)) p) ∧
      ∀ row ∈ optionRows view firstOption ++ (headRows view).drop 2, ∀ span ∈ row, quoteRule ∉ span.text := by
  constructor
  · unfold drawEscalation
    refine screen.local_render _ _ _ _ fun p hp => ?_
    have hstacked := stacked_layout area
    have hkept {region : Rect} (hregion : region ∈ [(layout area).header, (layout area).options, (layout area).cost])
        (lines : List Line) (buf : Nat × Nat → γ) :
        (if 0 < region.height then screen.render region lines buf else buf) p = buf p := by
      split_ifs
      · exact screen.confined _ _ _ p (hstacked.disjoint hregion hp)
      · rfl
    rw [hkept (by simp), hkept (by simp), hkept (by simp)]
  · intro row hrow span hspan hmem
    cases unreserved_rows view firstOption row hrow span hspan _ hmem

/-- An option that copies the harness's row is another row than that one. -/
theorem terminate_unforged_copied :
    let copied : EscalationView :=
      { raisedBy := "run 2", severity := .critical, category := .suspectedInjection
        options := [String.ofList terminateRowText], cost := ⟨1, 0, 0, 0, [], []⟩, evidence := .noExternalSources
        sentence := none }
    drawEscalation letterScreen copied ⟨0, 0, 80, 24⟩ 0 (fun _ => ' ') (1, 23) = quoteRule ∧
      ∀ row ∈ optionRows copied 0, ∀ span ∈ row, quoteRule ∉ span.text := by
  intro copied
  obtain ⟨hcells, hrows⟩ := terminate_unforged letterScreen copied ⟨0, 0, 80, 24⟩ 0 fun _ => ' '
  exact ⟨(hcells (1, 23) (by decide)).trans (by decide), fun row hrow => hrows row (List.mem_append_left _ hrow)⟩

end MarloweAgent.Surface.Escalation
