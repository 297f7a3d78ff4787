import MarloweAgent.Contract.Text
import MarloweAgent.Library.Wrapping
import Mathlib.Data.List.Chain

/-! Styled prose in rows. The runs of a paragraph are cut into words, the words are laid into rows
with one blank between them, and adjacent text of one style is one span. -/

namespace MarloweAgent.Surface
open Contract Library.Wrapping

def minWidth : Nat := 8

structure Run (σ : Type) where
  text : List Char
  style : σ
  deriving DecidableEq, Repr

structure Span (σ : Type) where
  text : List Char
  style : σ
  deriving DecidableEq, Repr

inductive Token
  | space
  | word (text : List Char)
  deriving DecidableEq, Repr

/-- `tokenize`, with the word that has begun. -/
def tokenizeFrom (word : List Char) : List Char → List Token
  | [] => if word = [] then [] else [.word word]
  | c :: rest =>
    if Text.isWhitespace c then
      (if word = [] then [] else [.word word]) ++ .space :: tokenizeFrom [] rest
    else tokenizeFrom (word ++ [c]) rest

def tokenize (s : List Char) : List Token := tokenizeFrom [] s

/-! ## Rows -/

structure RowBuilder (σ : Type) where
  spans : List (Span σ)
  pending : List Char
  style : σ
  col : Nat

namespace RowBuilder

variable {σ : Type} [DecidableEq σ]

def flush (row : RowBuilder σ) : RowBuilder σ :=
  if row.pending = [] then row
  else { row with spans := row.spans ++ [⟨row.pending, row.style⟩], pending := [] }

def push (row : RowBuilder σ) (text : List Char) (style : σ) : RowBuilder σ :=
  let row := if row.pending ≠ [] ∧ style ≠ row.style then row.flush else row
  { row with style, pending := row.pending ++ text, col := row.col + text.length }

def finish (row : RowBuilder σ) : List (Span σ) × RowBuilder σ :=
  (row.flush.spans, { row.flush with spans := [], col := 0 })

end RowBuilder

structure Wrap (σ : Type) where
  rows : List (List (Span σ))
  row : RowBuilder σ
  pendingSpace : Option σ

namespace Wrap

variable {σ : Type} [DecidableEq σ]

def start [Inhabited σ] : Wrap σ := ⟨[], ⟨[], [], default, 0⟩, none⟩

/-- The row is finished, and no blank waits. -/
def turn (w : Wrap σ) : Wrap σ := ⟨w.rows ++ [w.row.finish.1], w.row.finish.2, none⟩

/-- The room that a waiting blank takes. -/
def gapWidth (w : Wrap σ) : Nat := if w.pendingSpace.isSome ∧ 0 < w.row.col then 1 else 0

/-- The loop over a word: in this row, in the next one, or cut where no row could hold it. -/
def place (width : Nat) (style : σ) (w : Wrap σ) (rest : List Char) : Wrap σ :=
  if _hover : w.row.col + w.gapWidth + rest.length ≤ max width minWidth then
    let row := match w.pendingSpace.filter fun _ => w.gapWidth = 1 with
      | some st => w.row.push [' '] st
      | none => w.row
    { w with row := row.push rest style, pendingSpace := none }
  else if _hbegun : 0 < w.row.col then place width style w.turn rest
  else
    let row := w.row.push (rest.take (max width minWidth)) style
    place width style { w with rows := w.rows ++ [row.finish.1], row := row.finish.2 }
      (rest.drop (max width minWidth))
termination_by (rest.length, w.row.col)
decreasing_by
  · exact Prod.Lex.right _ _hbegun
  · refine Prod.Lex.left _ _ ?_
    have hgap : w.gapWidth = 0 := if_neg fun h => _hbegun h.2
    rw [List.length_drop, minWidth]
    omega

def token (width : Nat) (style : σ) (w : Wrap σ) : Token → Wrap σ
  | .space => if 0 < w.row.col then { w with pendingSpace := some style } else w
  | .word word => w.place width style word

end Wrap

/-- `wrap_runs`. -/
def wrapRuns {σ : Type} [DecidableEq σ] [Inhabited σ] (runs : List (Run σ)) (width : Nat) : List (List (Span σ)) :=
  let w := runs.foldl (fun w run => (tokenize run.text).foldl (Wrap.token width run.style) w) .start
  let last := w.row.finish.1
  if last ≠ [] ∨ w.rows = [] then w.rows ++ [last] else w.rows

/-! ## What is drawn -/

/-- A character with its style. -/
abbrev Cell (σ : Type) := Char × σ

section Drawn

variable {σ : Type}

def Run.cells (run : Run σ) : List (Cell σ) := run.text.map (·, run.style)

def Span.cells (span : Span σ) : List (Cell σ) := span.text.map (·, span.style)

def cellsOf (row : List (Span σ)) : List (Cell σ) := row.flatMap Span.cells

def visible (cell : Cell σ) : Bool := !Text.isWhitespace cell.1

/-- No span is empty, and neighbours differ in style. -/
structure Coalesced (row : List (Span σ)) : Prop where
  solid : ∀ span ∈ row, span.text ≠ []
  apart : (row.map Span.style).IsChain (· ≠ ·)

namespace RowBuilder

def cells (row : RowBuilder σ) : List (Cell σ) := cellsOf row.spans ++ row.pending.map (·, row.style)

/-- The column is right, and the text that waits is of another style than the last span. -/
structure Tidy (row : RowBuilder σ) : Prop where
  col : row.col = row.cells.length
  begun : row.pending = [] → row.spans = []
  coalesced : Coalesced row.spans
  apart : row.pending ≠ [] → ∀ style ∈ (row.spans.map Span.style).getLast?, style ≠ row.style

variable [DecidableEq σ] {row : RowBuilder σ}

omit [DecidableEq σ] in
theorem cells_flush (row : RowBuilder σ) : cellsOf row.flush.spans = row.cells := by
  unfold flush cells
  split_ifs with hnil
  · rw [hnil, List.map_nil, List.append_nil]
  · simp [cellsOf, Span.cells]

omit [DecidableEq σ] in
theorem coalesced_flush (h : row.Tidy) : Coalesced row.flush.spans := by
  unfold flush
  split_ifs with hnil
  · exact h.coalesced
  · refine ⟨?_, ?_⟩
    · intro span hspan
      rcases List.mem_append.mp hspan with hold | hnew
      · exact h.coalesced.solid span hold
      · rw [List.mem_singleton.mp hnew]
        exact hnil
    · rw [List.map_append, List.isChain_append]
      refine ⟨h.coalesced.apart, List.isChain_singleton _, fun x hx y hy => ?_⟩
      obtain rfl : row.style = y := by simpa using hy
      exact h.apart hnil x hx

theorem cells_push (row : RowBuilder σ) (text : List Char) (style : σ) :
    (row.push text style).cells = row.cells ++ text.map (·, style) := by
  unfold push
  split_ifs with hflush
  · have hpending : row.flush.pending = [] := by
      unfold flush
      rw [if_neg hflush.1]
    unfold cells
    simp only [hpending, List.nil_append]
    rw [cells_flush]
    rfl
  · unfold cells
    by_cases hnil : row.pending = []
    · simp [hnil]
    · have hsame : style = row.style := by
        by_contra hne
        exact hflush ⟨hnil, hne⟩
      simp [hsame]

theorem tidy_push {text : List Char} (htext : text ≠ []) (h : row.Tidy) (style : σ) :
    (row.push text style).Tidy := by
  have hcol : (row.push text style).col = (row.push text style).cells.length := by
    rw [cells_push, List.length_append, List.length_map, ← h.col]
    unfold push flush
    split_ifs <;> rfl
  have hbegun : (row.push text style).pending = [] → (row.push text style).spans = [] := by
    intro hnil
    exact absurd (List.append_eq_nil_iff.mp hnil).2 htext
  refine ⟨hcol, hbegun, ?_, ?_⟩
  · unfold push
    split_ifs
    · exact coalesced_flush h
    · exact h.coalesced
  · intro _
    unfold push
    split_ifs with hflush
    · intro last hlast
      have hspans : row.flush.spans = row.spans ++ [⟨row.pending, row.style⟩] := by
        unfold flush
        rw [if_neg hflush.1]
      obtain rfl : row.style = last := by simpa [hspans] using hlast
      exact Ne.symm hflush.2
    · intro last hlast
      by_cases hnil : row.pending = []
      · simp [h.begun hnil] at hlast
      · have hsame : style = row.style := by
          by_contra hne
          exact hflush ⟨hnil, hne⟩
        rw [hsame]
        exact h.apart hnil last hlast

omit [DecidableEq σ] in
theorem tidy_finish (h : row.Tidy) :
    cellsOf row.finish.1 = row.cells ∧ Coalesced row.finish.1 ∧ row.finish.2.Tidy ∧ row.finish.2.cells = [] := by
  have hpending : row.flush.pending = [] := by
    unfold flush
    split_ifs with hnil
    · exact hnil
    · rfl
  have hcells : row.finish.2.cells = [] := by
    unfold finish cells
    simp [hpending, cellsOf]
  refine ⟨cells_flush row, coalesced_flush h, ⟨?_, fun _ => rfl, ⟨by simp [finish], by simp [finish]⟩, ?_⟩, hcells⟩
  · rw [hcells]
    rfl
  · intro hne
    exact absurd hpending hne

end RowBuilder

/-! ## The rows filled -/

/-- The state of the wrapping against rows being filled. -/
structure Follows (w : Wrap σ) (r : Rows (Cell σ)) (gap : Option (Cell σ)) : Prop where
  full : w.rows.map cellsOf = r.full
  line : w.row.cells = r.line
  gap : r.line ≠ [] → w.pendingSpace.map (' ', ·) = gap
  idle : r.line = [] → w.pendingSpace = none
  tidy : w.row.Tidy
  coalesced : ∀ row ∈ w.rows, Coalesced row

namespace Follows

variable {w : Wrap σ} {r : Rows (Cell σ)} {gap : Option (Cell σ)}

theorem col (h : Follows w r gap) : w.row.col = r.line.length := by rw [h.tidy.col, h.line]

theorem col_pos (h : Follows w r gap) : 0 < w.row.col ↔ r.line ≠ [] := by rw [h.col, List.length_pos_iff]

theorem gapWidth (h : Follows w r gap) (hline : r.line ≠ []) : w.gapWidth = gap.toList.length := by
  have hpos := h.col_pos.mpr hline
  unfold Wrap.gapWidth
  rw [← h.gap hline]
  cases w.pendingSpace with
  | none => rfl
  | some st => exact if_pos ⟨rfl, hpos⟩

variable [DecidableEq σ]

omit [DecidableEq σ] in
/-- A finished row joins the full ones. -/
theorem turn (h : Follows w r gap) : Follows w.turn ⟨r.full ++ [r.line], []⟩ none := by
  obtain ⟨hcells, hcoalesced, htidy, hnil⟩ := RowBuilder.tidy_finish h.tidy
  refine ⟨?_, hnil, fun hne => absurd rfl hne, fun _ => rfl, htidy, ?_⟩
  · rw [← h.line, ← hcells, ← h.full]
    simp [Wrap.turn]
  · intro row hrow
    rcases List.mem_append.mp hrow with hold | hnew
    · exact h.coalesced row hold
    · rw [List.mem_singleton.mp hnew]
      exact hcoalesced

/-- Text in the row, and no blank waiting. -/
theorem push (h : Follows w r gap) {text : List Char} (htext : text ≠ []) (style : σ) :
    Follows { w with row := w.row.push text style, pendingSpace := none }
      { r with line := r.line ++ text.map (·, style) } none := by
  refine ⟨h.full, ?_, fun _ => rfl, fun _ => rfl, RowBuilder.tidy_push htext h.tidy style, h.coalesced⟩
  rw [RowBuilder.cells_push, h.line]

/-- A word is placed as its pieces are. -/
theorem place (width : Nat) (style : σ) {word : List Char} (hword : word ≠ []) (h : Follows w r gap) :
    Follows (w.place width style word)
      (r.addWord (max width minWidth) gap (word.map (·, style))) none := by
  have hpos : 0 < max width minWidth := Nat.lt_of_lt_of_le (by decide) (Nat.le_max_right ..)
  induction w, word using Wrap.place.induct width style generalizing r gap with
  | case1 w word hfits =>
    obtain ⟨full, line⟩ := r
    have hcells : word.map (·, style) ≠ [] := by simpa using hword
    rw [Wrap.place, dif_pos hfits]
    by_cases hline : line = []
    · subst hline
      have hlength : (word.map (·, style)).length ≤ max width minWidth := by
        rw [List.length_map]
        omega
      rw [h.idle rfl, Option.filter_none, addWord_start hcells hlength]
      exact h.push hword style
    · have hgap := h.gap hline
      have hwidth := h.gapWidth hline
      have hroom : line.length + (gap.toList ++ word.map (·, style)).length ≤ max width minWidth := by
        rw [List.length_append, List.length_map, ← hwidth, ← Nat.add_assoc]
        exact h.col ▸ hfits
      rw [addWord_join hline hcells hroom]
      cases hspace : w.pendingSpace with
      | none =>
        rw [hspace] at hgap
        rw [Option.filter_none, ← hgap]
        exact h.push hword style
      | some st =>
        rw [hspace] at hgap
        have hone : w.gapWidth = 1 := by rw [hwidth, ← hgap]; rfl
        rw [Option.filter_some, if_pos (decide_eq_true hone), ← hgap]
        have hspaced := (h.push (List.cons_ne_nil ' ' []) st).push hword style
        rwa [List.append_assoc] at hspaced
  | case2 w word hover hbegun ih =>
    have hcells : word.map (·, style) ≠ [] := by simpa using hword
    have hline := h.col_pos.mp hbegun
    have hroom : ¬r.line.length + (gap.toList ++ word.map (·, style)).length ≤ max width minWidth := by
      rw [List.length_append, List.length_map, ← h.gapWidth hline, ← h.col, ← Nat.add_assoc]
      exact hover
    rw [Wrap.place, dif_neg hover, dif_pos hbegun]
    have hturned := ih hword h.turn
    rwa [← addWord_turn hpos hline hcells hroom] at hturned
  | case3 w word hover hbegun row =>
    rename_i ih
    obtain ⟨full, line⟩ := r
    have hline : line = [] := by
      by_contra hne
      exact hbegun (h.col_pos.mpr hne)
    subst hline
    have hidle := h.idle rfl
    have hgap : w.gapWidth = 0 := if_neg fun hboth => hbegun hboth.2
    have hlong : max width minWidth < word.length := by omega
    have hhead : word.take (max width minWidth) ≠ [] :=
      List.ne_nil_of_length_pos (by rw [List.length_take]; omega)
    have hrest : word.drop (max width minWidth) ≠ [] :=
      List.ne_nil_of_length_pos (by rw [List.length_drop]; omega)
    have hfollows : Follows
        { w with
          rows := w.rows ++ [(w.row.push (word.take (max width minWidth)) style).finish.1]
          row := (w.row.push (word.take (max width minWidth)) style).finish.2 }
        ⟨full ++ [(word.take (max width minWidth)).map (·, style)], []⟩ none := by
      rw [hidle]
      exact (h.push hhead style).turn
    have hturned := ih hrest hfollows
    rw [Wrap.place, dif_neg hover, dif_neg hbegun]
    rw [addWord_long hpos (by rwa [List.length_map]), ← List.map_take, ← List.map_drop]
    exact hturned

end Follows

/-! ## Words -/

def Token.text : Token → List Char
  | .space => []
  | .word text => text

/-- A word that has begun is the beginning of the first; every word is solid, and together they
are what is not blank. -/
theorem tokenizeFrom_spec (word s : List Char) :
    (∀ token ∈ tokenizeFrom word s, ∀ text, token = .word text → text ≠ []) ∧
      (tokenizeFrom word s).flatMap Token.text = word ++ s.filter fun c => !Text.isWhitespace c := by
  have hpiece : ∀ word : List Char, (∀ token ∈ (if word = [] then [] else [Token.word word]),
      ∀ text, token = .word text → text ≠ []) ∧
      (if word = [] then [] else [Token.word word]).flatMap Token.text = word := by
    intro word
    split_ifs with hnil
    · exact ⟨by simp, by simp [hnil]⟩
    · refine ⟨fun token htoken text htext => ?_, by simp [Token.text]⟩
      rw [List.mem_singleton.mp htoken] at htext
      obtain rfl := Token.word.inj htext
      exact hnil
  induction s generalizing word with
  | nil =>
    rw [tokenizeFrom, List.filter_nil, List.append_nil]
    exact hpiece word
  | cons c s ih =>
    by_cases hblank : Text.isWhitespace c = true
    · obtain ⟨hsolid, htexts⟩ := ih []
      obtain ⟨hfirst, hword⟩ := hpiece word
      rw [tokenizeFrom, if_pos hblank]
      refine ⟨fun token htoken text htext => ?_, ?_⟩
      · rcases List.mem_append.mp htoken with h | h
        · exact hfirst token h text htext
        · rcases List.mem_cons.mp h with rfl | h
          · cases htext
          · exact hsolid token h text htext
      · rw [List.flatMap_append, hword, List.flatMap_cons, htexts]
        simp [Token.text, hblank]
    · obtain ⟨hsolid, htexts⟩ := ih (word ++ [c])
      rw [tokenizeFrom, if_neg hblank]
      refine ⟨hsolid, ?_⟩
      rw [htexts]
      simp [hblank]

/-- The tokens of all runs, with their styles. -/
def tokensOf (runs : List (Run σ)) : List (Token × σ) :=
  runs.flatMap fun run => (tokenize run.text).map (·, run.style)

/-- The words, each with the last blank before it, if there is one. -/
def wordsAfter (blank : Option σ) : List (Token × σ) → List (Option (Cell σ) × List (Cell σ))
  | [] => []
  | (.space, style) :: rest => wordsAfter (some style) rest
  | (.word text, style) :: rest => (blank.map (' ', ·), text.map (·, style)) :: wordsAfter none rest

/-- The pieces of a paragraph: its words, and the parts of those too long for a row. -/
def piecesOf (width : Nat) (runs : List (Run σ)) : List (Library.Wrapping.Piece (Cell σ)) :=
  (wordsAfter none (tokensOf runs)).flatMap fun word => cut width word.1 word.2

theorem solid_tokensOf {runs : List (Run σ)} {t : Token × σ} (h : t ∈ tokensOf runs) {text : List Char}
    (htext : t.1 = .word text) : text ≠ [] := by
  obtain ⟨run, -, hrun⟩ := List.mem_flatMap.mp h
  obtain ⟨token, htoken, rfl⟩ := List.mem_map.mp hrun
  exact (tokenizeFrom_spec [] run.text).1 token htoken text htext

theorem mem_wordsAfter (blank : Option σ) {tokens : List (Token × σ)}
    (hsolid : ∀ t ∈ tokens, ∀ text, t.1 = .word text → text ≠ []) :
    ∀ word ∈ wordsAfter blank tokens, word.2 ≠ [] ∧ ∀ g ∈ word.1, visible g = false := by
  induction tokens generalizing blank with
  | nil => simp [wordsAfter]
  | cons t tokens ih =>
    obtain ⟨hfirst, hrest⟩ := List.forall_mem_cons.mp hsolid
    obtain ⟨token, style⟩ := t
    cases token with
    | space => exact ih _ hrest
    | word text =>
      refine List.forall_mem_cons.mpr ⟨⟨by simpa using hfirst text rfl, fun g hg => ?_⟩, ih none hrest⟩
      obtain ⟨st, -, rfl⟩ := Option.map_eq_some_iff.mp hg
      rfl

theorem text_wordsAfter (blank : Option σ) (tokens : List (Token × σ)) :
    (wordsAfter blank tokens).flatMap Prod.snd = tokens.flatMap fun t => t.1.text.map (·, t.2) := by
  induction tokens generalizing blank with
  | nil => rfl
  | cons t tokens ih =>
    obtain ⟨token, style⟩ := t
    cases token with
    | space => exact ih (some style)
    | word text => rw [wordsAfter, List.flatMap_cons, List.flatMap_cons, ih]; rfl

theorem text_tokensOf (runs : List (Run σ)) :
    ((tokensOf runs).flatMap fun t => t.1.text.map (·, t.2)) =
      (runs.flatMap Run.cells).filter visible := by
  induction runs with
  | nil => rfl
  | cons run runs ih =>
    have htexts := (tokenizeFrom_spec [] run.text).2
    rw [List.nil_append] at htexts
    have hrun : ((tokenize run.text).map (·, run.style)).flatMap (fun t => t.1.text.map (·, t.2)) =
        run.cells.filter visible := by
      rw [List.flatMap_map]
      change (tokenize run.text).flatMap (fun token => token.text.map (·, run.style)) = _
      rw [← List.map_flatMap, tokenize, htexts, Run.cells, List.filter_map]
      rfl
    unfold tokensOf at ih ⊢
    rw [List.flatMap_cons, List.flatMap_append, ih, hrun, List.flatMap_cons, List.filter_append]

/-- The pieces fit, are solid, and have no gap that is seen; their text is what is seen of the runs. -/
theorem piecesOf_spec {width : Nat} (hpos : 0 < width) (runs : List (Run σ)) :
    (∀ p ∈ piecesOf width runs, p.text ≠ [] ∧ p.text.length ≤ width ∧ ∀ g ∈ p.gap, visible g = false) ∧
      (piecesOf width runs).flatMap Library.Wrapping.Piece.text = (runs.flatMap Run.cells).filter visible := by
  have hwords := mem_wordsAfter none fun t (ht : t ∈ tokensOf runs) text htext => solid_tokensOf ht htext
  constructor
  · intro p hp
    obtain ⟨word, hword, hcut⟩ := List.mem_flatMap.mp hp
    obtain ⟨hsolid, hgap⟩ := hwords word hword
    obtain ⟨hne, hwidth, hgaps⟩ := (cut_spec hpos hsolid word.1).1 p hcut
    exact ⟨hne, hwidth, fun g hg => hgap g (hgaps g hg)⟩
  · rw [← text_tokensOf, ← text_wordsAfter none, piecesOf, List.flatMap_assoc]
    exact List.flatMap_congr fun word hword => (cut_spec hpos (hwords word hword).1 word.1).2

/-! ## The paragraph laid out -/

variable [DecidableEq σ]

/-- The tokens are placed as their words are; a row is empty only before the first of them. -/
theorem Follows.tokens (width : Nat) {tokens : List (Token × σ)}
    (hsolid : ∀ t ∈ tokens, ∀ text, t.1 = .word text → text ≠ []) {w : Wrap σ} {r : Rows (Cell σ)}
    {blank : Option σ} (h : Follows w r (blank.map (' ', ·))) (hfirst : r.line = [] → r.full = []) :
    ∃ r' gap, r' = (wordsAfter blank tokens).foldl (fun r word => r.addWord (max width minWidth) word.1 word.2) r ∧
      Follows (tokens.foldl (fun w t => Wrap.token width t.2 w t.1) w) r' gap ∧ (r'.line = [] → r'.full = []) := by
  induction tokens generalizing w r blank with
  | nil => exact ⟨r, _, rfl, h, hfirst⟩
  | cons t tokens ih =>
    obtain ⟨hword, hrest⟩ := List.forall_mem_cons.mp hsolid
    obtain ⟨token, style⟩ := t
    rw [List.foldl_cons]
    cases token with
    | space =>
      refine ih hrest ?_ hfirst
      by_cases hline : r.line = []
      · have hcol : ¬0 < w.row.col := fun hpos => h.col_pos.mp hpos hline
        rw [Wrap.token, if_neg hcol]
        exact { h with gap := fun hne => absurd hline hne }
      · rw [Wrap.token, if_pos (h.col_pos.mpr hline)]
        exact { h with gap := fun _ => rfl, idle := fun hnil => absurd hnil hline }
    | word text =>
      have htext := hword text rfl
      have hpos : 0 < max width minWidth := Nat.lt_of_lt_of_le (by decide) (Nat.le_max_right ..)
      have hcells : text.map (·, style) ≠ [] := by simpa using htext
      have hplaced : Follows (w.place width style text) (r.addWord (max width minWidth) (blank.map (' ', ·))
          (text.map (·, style))) ((none : Option σ).map (' ', ·)) := h.place width style htext
      exact ih hrest hplaced fun hnil => absurd hnil (addWord_line_ne_nil hpos hcells r)

/-- Wrapping fills rows with the pieces of the paragraph. -/
theorem cells_wrapRuns [Inhabited σ] (runs : List (Run σ)) (width : Nat) :
    (wrapRuns runs width).map cellsOf = fill (max width minWidth) (piecesOf (max width minWidth) runs) ∧
      ∀ row ∈ wrapRuns runs width, Coalesced row := by
  have hstart : Follows (Wrap.start : Wrap σ) ⟨[], []⟩ ((none : Option σ).map (' ', ·)) :=
    ⟨rfl, rfl, fun _ => rfl, fun _ => rfl, ⟨rfl, fun _ => rfl, ⟨by simp [Wrap.start], by simp [Wrap.start]⟩,
      fun hne => absurd rfl hne⟩, by simp [Wrap.start]⟩
  obtain ⟨r, gap, hr, h, hfirst⟩ := hstart.tokens width
    (fun t (ht : t ∈ tokensOf runs) text htext => solid_tokensOf ht htext) fun _ => rfl
  have hfold : runs.foldl (fun w run => (tokenize run.text).foldl (Wrap.token width run.style) w) .start =
      (tokensOf runs).foldl (fun w t => Wrap.token width t.2 w t.1) .start := by
    rw [tokensOf, List.foldl_flatMap]
    simp only [List.foldl_map]
  have hfill : fill (max width minWidth) (piecesOf (max width minWidth) runs) = r.all := by
    rw [fill, piecesOf, List.foldl_flatMap, hr]
    rfl
  unfold wrapRuns
  rw [hfold, hfill]
  generalize (tokensOf runs).foldl (fun w t => Wrap.token width t.2 w t.1) .start = w at h
  obtain ⟨hcells, hcoalesced, -, -⟩ := RowBuilder.tidy_finish h.tidy
  have hkept : w.row.finish.1 ≠ [] ∨ w.rows = [] := by
    by_cases hline : r.line = []
    · have hnone := h.full.trans (hfirst hline)
      exact .inr (List.map_eq_nil_iff.mp hnone)
    · refine .inl fun hnil => hline ?_
      rw [← h.line, ← hcells, hnil]
      rfl
  simp only
  rw [if_pos hkept]
  constructor
  · rw [List.map_append, h.full, List.map_singleton, hcells, h.line]
    rfl
  · intro row hrow
    rcases List.mem_append.mp hrow with hold | hnew
    · exact h.coalesced row hold
    · rw [List.mem_singleton.mp hnew]
      exact hcoalesced

/-- A paragraph in rows: no row overflows, spans are solid and coalesced, every character that is
seen is there once, in order, in its style, and no other layout of the words has fewer rows. -/
theorem wrapRuns_laid [Inhabited σ] (runs : List (Run σ)) (width : Nat) :
    (∀ row ∈ wrapRuns runs width, Coalesced row ∧ (cellsOf row).length ≤ max width minWidth) ∧
      ((wrapRuns runs width).flatMap cellsOf).filter visible = (runs.flatMap Run.cells).filter visible ∧
      Laid (max width minWidth) (piecesOf (max width minWidth) runs) ((wrapRuns runs width).map cellsOf) ∧
      ∀ rows, Laid (max width minWidth) (piecesOf (max width minWidth) runs) rows →
        (wrapRuns runs width).length ≤ rows.length := by
  have hpos : 0 < max width minWidth := Nat.lt_of_lt_of_le (by decide) (Nat.le_max_right ..)
  obtain ⟨hcells, hcoalesced⟩ := cells_wrapRuns runs width
  obtain ⟨hpieces, htext⟩ := piecesOf_spec hpos runs
  have hfits : ∀ p ∈ piecesOf (max width minWidth) runs, p.text ≠ [] ∧ p.text.length ≤ max width minWidth :=
    fun p hp => ⟨(hpieces p hp).1, (hpieces p hp).2.1⟩
  obtain ⟨hlaid, hfewest⟩ := fill_laid hfits
  rw [← hcells] at hlaid hfewest
  refine ⟨fun row hrow => ⟨hcoalesced row hrow, ?_⟩, ?_, hlaid, fun rows h => ?_⟩
  · exact hlaid.fits _ (List.mem_map_of_mem hrow)
  · rw [List.flatMap_def, hlaid.shown fun p hp => (hpieces p hp).2.2, htext, List.filter_filter]
    simp only [Bool.and_self]
  · have hle := hfewest rows h
    rwa [List.length_map] at hle

end Drawn

/-! ## Plain text -/

/-- `split_whitespace`. -/
def words (s : List Char) : List (List Char) := (s.splitOnP Text.isWhitespace).filter (! ·.isEmpty)

/-- The loop over a word longer than the pane, and what is left of it in the row. -/
def breakWord (w : Nat) (r : Rows Char) (rest : List Char) : Rows Char :=
  if _hlong : 0 < w ∧ w < rest.length then
    let out := if r.line = [] then r.full else r.full ++ [r.line]
    breakWord w ⟨out ++ [rest.take w], []⟩ (rest.drop w)
  else { r with line := (if r.line = [] then [] else r.line ++ [' ']) ++ rest }
termination_by rest.length
decreasing_by
  rw [List.length_drop]
  omega

def wrapWord (w : Nat) (r : Rows Char) (word : List Char) : Rows Char :=
  let extra := if r.line = [] then 0 else 1
  let r := if w < r.line.length + extra + word.length ∧ r.line ≠ [] then ⟨r.full ++ [r.line], []⟩ else r
  breakWord w r word

/-- `wrap`. -/
def wrap (text : List Char) (w : Nat) : List (List Char) :=
  (text.splitOn '\n').flatMap fun para => ((words para).foldl (wrapWord w) ⟨[], []⟩).all

theorem breakWord_start {w : Nat} (hpos : 0 < w) {word : List Char} (hne : word ≠ []) (full : List (List Char))
    (gap : Option Char) : breakWord w ⟨full, []⟩ word = Rows.addWord w ⟨full, []⟩ gap word := by
  induction hn : word.length using Nat.strongRecOn generalizing word full gap with
  | ind n ih =>
    by_cases hle : word.length ≤ w
    · rw [breakWord, dif_neg fun h => absurd h.2 (Nat.not_lt_of_le hle), addWord_start hne hle]
      rfl
    · have hlt := Nat.lt_of_not_le hle
      have hrest : word.drop w ≠ [] := List.ne_nil_of_length_pos (by rw [List.length_drop]; omega)
      rw [breakWord, dif_pos ⟨hpos, hlt⟩, addWord_long hpos hlt]
      exact ih _ (by rw [← hn, List.length_drop]; omega) hrest _ none rfl

/-- A word of plain text is placed behind a blank. -/
theorem wrapWord_eq {w : Nat} (hpos : 0 < w) {word : List Char} (hne : word ≠ []) (r : Rows Char) :
    wrapWord w r word = r.addWord w (some ' ') word := by
  obtain ⟨full, line⟩ := r
  unfold wrapWord
  by_cases hline : line = []
  · subst hline
    simp only [ne_eq, not_true_eq_false, and_false, if_false]
    exact breakWord_start hpos hne full _
  · simp only [hline, if_false, ne_eq, not_false_eq_true, and_true]
    by_cases hroom : line.length + ((some ' ').toList ++ word).length ≤ w
    · have hsum : line.length + 1 + word.length ≤ w := by
        simpa [Nat.add_assoc, Nat.add_comm word.length] using hroom
      rw [if_neg (Nat.not_lt_of_le hsum), addWord_join hline hne hroom, breakWord,
        dif_neg (by omega), if_neg hline, List.append_assoc]
      rfl
    · have hsum : w < line.length + 1 + word.length := by
        refine Nat.lt_of_not_le fun hle => hroom ?_
        simpa [Nat.add_assoc, Nat.add_comm word.length] using hle
      rw [if_pos hsum, addWord_turn hpos hline hne hroom]
      exact breakWord_start hpos hne _ none

theorem solid_words {s word : List Char} (h : word ∈ words s) : word ≠ [] := by
  have hsolid := (List.mem_filter.mp h).2
  intro hnil
  simp [hnil] at hsolid

section Agreement

variable {σ : Type}

/-- The words of one run: all but the first stand behind a blank. -/
theorem wordsAfter_tokenizeFrom (style : σ) (blank : Option σ) (word s : List Char) :
    ∃ gap, (blank = some style → gap = some (' ', style)) ∧
      wordsAfter blank ((tokenizeFrom word s).map (·, style)) =
        match (s.splitOnPPrepend Text.isWhitespace word.reverse).filter (! ·.isEmpty) with
        | [] => []
        | first :: rest =>
          (gap, first.map (·, style)) :: rest.map fun text => (some (' ', style), text.map (·, style)) := by
  induction s generalizing word blank with
  | nil =>
    refine ⟨blank.map (' ', ·), fun h => by rw [h]; rfl, ?_⟩
    rw [tokenizeFrom, List.splitOnPPrepend_nil, List.reverse_reverse]
    cases word <;> rfl
  | cons c s ih =>
    by_cases hblank : Text.isWhitespace c = true
    · obtain ⟨gap, hgap, hrest⟩ := ih (some style) []
      obtain rfl := hgap rfl
      rw [tokenizeFrom, if_pos hblank, List.splitOnPPrepend_cons_pos hblank, List.reverse_reverse]
      cases word with
      | nil => exact ⟨_, fun _ => rfl, hrest⟩
      | cons d word =>
        refine ⟨blank.map (' ', ·), fun h => by rw [h]; rfl, ?_⟩
        simp only [reduceCtorEq, if_false, List.singleton_append, List.map_cons, wordsAfter, List.filter_cons]
        rw [hrest]
        simp only [List.reverse_nil, List.splitOnPPrepend_nil_right, List.isEmpty_cons, Bool.not_false, if_true]
        cases (s.splitOnP Text.isWhitespace).filter (! ·.isEmpty) <;> rfl
    · obtain ⟨gap, hgap, hrest⟩ := ih blank (word ++ [c])
      refine ⟨gap, hgap, ?_⟩
      rw [tokenizeFrom, if_neg hblank, List.splitOnPPrepend_cons_neg (by simpa using hblank), hrest,
        List.reverse_concat]

end Agreement

end MarloweAgent.Surface
