import Mathlib.Data.List.Basic

/-! Words in rows of a width. A word brings the gap before it, which is drawn only where the word
stands behind another in its row. Filling each row as far as it goes takes the fewest rows. -/

namespace MarloweAgent.Library.Wrapping

variable {α : Type*}

structure Piece (α : Type*) where
  gap : Option α
  text : List α
  deriving DecidableEq, Repr

/-- A piece as it stands behind another one. -/
def Piece.inner (p : Piece α) : List α := p.gap.toList ++ p.text

/-- Rows that are full, and the one that is being filled. -/
structure Rows (α : Type*) where
  full : List (List α)
  line : List α
  deriving DecidableEq, Repr

/-- The next piece: behind the others of the row if it fits, and else in a row of its own. -/
def Rows.add (width : Nat) (r : Rows α) (p : Piece α) : Rows α :=
  if r.line = [] then { r with line := p.text }
  else if r.line.length + p.inner.length ≤ width then { r with line := r.line ++ p.inner }
  else ⟨r.full ++ [r.line], p.text⟩

def Rows.all (r : Rows α) : List (List α) := r.full ++ [r.line]

def fill (width : Nat) (pieces : List (Piece α)) : List (List α) :=
  (pieces.foldl (Rows.add width) ⟨[], []⟩).all

/-- The pieces, in their order, in rows of the width; the first row has begun with `line`. -/
inductive Arranged (width : Nat) : List α → List (Piece α) → List (List α) → Prop
  | last {line : List α} (fits : line.length ≤ width) : Arranged width line [] [line]
  | join {line : List α} {p : Piece α} {ps : List (Piece α)} {rows : List (List α)}
      (h : Arranged width (line ++ p.inner) ps rows) : Arranged width line (p :: ps) rows
  | turn {line : List α} {p : Piece α} {ps : List (Piece α)} {rows : List (List α)}
      (fits : line.length ≤ width) (h : Arranged width p.text ps rows) :
      Arranged width line (p :: ps) (line :: rows)

namespace Arranged

variable {width : Nat} {line : List α} {ps : List (Piece α)} {rows : List (List α)}

theorem fits (h : Arranged width line ps rows) : ∀ row ∈ rows, row.length ≤ width := by
  induction h with
  | last hfits => exact List.forall_mem_singleton.mpr hfits
  | join _ ih => exact ih
  | turn hfits _ ih => exact List.forall_mem_cons.mpr ⟨hfits, ih⟩

/-- What is not a gap is there, once and in order. -/
theorem shown {visible : α → Bool} (h : Arranged width line ps rows)
    (hgaps : ∀ p ∈ ps, ∀ g ∈ p.gap, visible g = false) :
    rows.flatten.filter visible = line.filter visible ++ (ps.flatMap Piece.text).filter visible := by
  induction h with
  | last => simp
  | @join line p ps rows h ih =>
    obtain ⟨hp, hps⟩ := List.forall_mem_cons.mp hgaps
    have hinner : p.inner.filter visible = p.text.filter visible := by
      unfold Piece.inner
      cases hgap : p.gap with
      | none => rfl
      | some g =>
        have hg := hp g (by rw [hgap]; rfl)
        simp [hg]
    rw [ih hps, List.filter_append, hinner, List.append_assoc, List.flatMap_cons, List.filter_append]
  | @turn line p ps rows _ h ih =>
    obtain ⟨-, hps⟩ := List.forall_mem_cons.mp hgaps
    rw [List.flatten_cons, List.filter_append, ih hps, List.flatMap_cons, List.filter_append]

end Arranged

section

variable {width : Nat} {ps : List (Piece α)}

theorem add_line_ne_nil {r : Rows α} {p : Piece α} (hp : p.text ≠ []) : (r.add width p).line ≠ [] := by
  unfold Rows.add
  split_ifs with hline
  · exact hp
  · simp [hline]
  · exact hp

theorem foldl_join {full : List (List α)} {line : List α} {p : Piece α} (hline : line ≠ [])
    (hroom : line.length + p.inner.length ≤ width) :
    (p :: ps).foldl (Rows.add width) ⟨full, line⟩ = ps.foldl (Rows.add width) ⟨full, line ++ p.inner⟩ := by
  rw [List.foldl_cons, Rows.add, if_neg hline, if_pos hroom]

theorem foldl_turn {full : List (List α)} {line : List α} {p : Piece α} (hline : line ≠ [])
    (hroom : ¬line.length + p.inner.length ≤ width) :
    (p :: ps).foldl (Rows.add width) ⟨full, line⟩ = ps.foldl (Rows.add width) ⟨full ++ [line], p.text⟩ := by
  rw [List.foldl_cons, Rows.add, if_neg hline, if_neg hroom]

/-- A row that has begun is filled to an arrangement. -/
theorem arranged_foldl {full : List (List α)} {line : List α} (hline : line ≠ []) (hfits : line.length ≤ width)
    (hps : ∀ p ∈ ps, p.text ≠ [] ∧ p.text.length ≤ width) :
    ∃ rows, (ps.foldl (Rows.add width) ⟨full, line⟩).all = full ++ rows ∧ Arranged width line ps rows := by
  induction ps generalizing full line with
  | nil => exact ⟨[line], rfl, .last hfits⟩
  | cons p ps ih =>
    obtain ⟨⟨hp, hwidth⟩, hrest⟩ := List.forall_mem_cons.mp hps
    by_cases hroom : line.length + p.inner.length ≤ width
    · rw [foldl_join hline hroom]
      have hjoined : line ++ p.inner ≠ [] := by simp [hline]
      obtain ⟨rows, hrows, harranged⟩ := ih hjoined (by rwa [List.length_append]) hrest
      exact ⟨rows, hrows, .join harranged⟩
    · rw [foldl_turn hline hroom]
      obtain ⟨rows, hrows, harranged⟩ := ih hp hwidth hrest
      exact ⟨line :: rows, by rw [hrows, List.append_assoc]; rfl, .turn hfits harranged⟩

/-- The row that has begun fits. -/
theorem Arranged.begun {line : List α} {rows : List (List α)} (h : Arranged width line ps rows) :
    line.length ≤ width := by
  induction h with
  | last hfits => exact hfits
  | join _ ih =>
    rw [List.length_append] at ih
    omega
  | turn hfits => exact hfits

/-- Filling stays ahead of every arrangement: with a row that is no longer it ends with no more
rows, and with any row it is behind by one at most. -/
theorem Arranged.ahead {line' : List α} {rows : List (List α)} (h : Arranged width line' ps rows)
    (hps : ∀ p ∈ ps, p.text ≠ []) (full : List (List α)) {line : List α} (hline : line ≠ []) :
    (line.length ≤ line'.length →
        (ps.foldl (Rows.add width) ⟨full, line⟩).all.length ≤ full.length + rows.length) ∧
      (ps.foldl (Rows.add width) ⟨full, line⟩).all.length ≤ full.length + 1 + rows.length := by
  induction h generalizing full line with
  | last => exact ⟨fun _ => by simp [Rows.all], by simp [Rows.all]⟩
  | @join line' p ps rows h ih =>
    obtain ⟨hp, hrest⟩ := List.forall_mem_cons.mp hps
    have hbegun := h.begun
    rw [List.length_append] at hbegun
    have hinner : p.text.length ≤ p.inner.length := by simp [Piece.inner]
    by_cases hroom : line.length + p.inner.length ≤ width
    · rw [foldl_join hline hroom]
      have hlonger : line ++ p.inner ≠ [] := by simp [hline]
      have hjoined := ih hrest full hlonger
      refine ⟨fun hle => hjoined.1 ?_, hjoined.2⟩
      rw [List.length_append, List.length_append]
      omega
    · rw [foldl_turn hline hroom]
      have hturned := (ih hrest (full ++ [line]) hp).1 (by rw [List.length_append]; omega)
      rw [List.length_append, List.length_singleton] at hturned
      exact ⟨fun hle => absurd (Nat.le_trans (Nat.add_le_add_right hle _) hbegun) hroom, hturned⟩
  | @turn line' p ps rows _ h ih =>
    obtain ⟨hp, hrest⟩ := List.forall_mem_cons.mp hps
    by_cases hroom : line.length + p.inner.length ≤ width
    · rw [foldl_join hline hroom]
      have hlonger : line ++ p.inner ≠ [] := by simp [hline]
      have hjoined := (ih hrest full hlonger).2
      rw [List.length_cons]
      exact ⟨fun _ => by omega, by omega⟩
    · rw [foldl_turn hline hroom]
      have hturned := (ih hrest (full ++ [line]) hp).1 (Nat.le_refl _)
      rw [List.length_append, List.length_singleton] at hturned
      rw [List.length_cons]
      exact ⟨fun _ => by omega, by omega⟩

/-- A layout of the pieces; without pieces it is one empty row. -/
def Laid (width : Nat) : List (Piece α) → List (List α) → Prop
  | [], rows => rows = [[]]
  | p :: ps, rows => Arranged width p.text ps rows

theorem Laid.fits {rows : List (List α)} (h : Laid width ps rows) : ∀ row ∈ rows, row.length ≤ width := by
  cases ps with
  | nil =>
    obtain rfl : rows = [[]] := h
    exact List.forall_mem_singleton.mpr (Nat.zero_le _)
  | cons p ps => exact Arranged.fits h

theorem Laid.shown {visible : α → Bool} {rows : List (List α)} (h : Laid width ps rows)
    (hgaps : ∀ p ∈ ps, ∀ g ∈ p.gap, visible g = false) :
    rows.flatten.filter visible = (ps.flatMap Piece.text).filter visible := by
  cases ps with
  | nil =>
    obtain rfl : rows = [[]] := h
    rfl
  | cons p ps =>
    rw [Arranged.shown h (List.forall_mem_cons.mp hgaps).2, List.flatMap_cons, List.filter_append]

/-- Filling lays the pieces out, and no layout has fewer rows. -/
theorem fill_laid (hps : ∀ p ∈ ps, p.text ≠ [] ∧ p.text.length ≤ width) :
    Laid width ps (fill width ps) ∧ ∀ rows, Laid width ps rows → (fill width ps).length ≤ rows.length := by
  cases ps with
  | nil =>
    refine ⟨rfl, fun rows h => ?_⟩
    obtain rfl : rows = [[]] := h
    exact Nat.le_refl _
  | cons p ps =>
    obtain ⟨⟨hp, hwidth⟩, hrest⟩ := List.forall_mem_cons.mp hps
    have hfill : fill width (p :: ps) = (ps.foldl (Rows.add width) ⟨[], p.text⟩).all := by
      rw [fill, List.foldl_cons, Rows.add, if_pos rfl]
    rw [hfill]
    constructor
    · obtain ⟨rows, hrows, harranged⟩ := arranged_foldl hp hwidth hrest
      rwa [hrows]
    · intro rows harranged
      simpa using (Arranged.ahead harranged (fun q hq => (hrest q hq).1) [] hp).1 (Nat.le_refl _)

/-! ## Words too long for a row -/

/-- `chunks`: parts of the width, and what is left. -/
def chunks (width : Nat) (word : List α) : List (List α) :=
  (List.range ((word.length + width - 1) / width)).map fun i => (word.drop (i * width)).take width

theorem chunks_short {word : List α} (hne : word ≠ []) (hle : word.length ≤ width) : chunks width word = [word] := by
  have hpos := List.length_pos_of_ne_nil hne
  have hone : (word.length + width - 1) / width = 1 :=
    Nat.div_eq_of_lt_le (by omega) (by omega)
  rw [chunks, hone, List.range_one, List.map_singleton, Nat.zero_mul, List.drop_zero, List.take_of_length_le hle]

theorem chunks_long {word : List α} (hpos : 0 < width) (hlt : width < word.length) :
    chunks width word = word.take width :: chunks width (word.drop width) := by
  have hcount : (word.length + width - 1) / width = ((word.drop width).length + width - 1) / width + 1 := by
    rw [← Nat.add_div_right _ hpos, List.length_drop]
    congr 1
    omega
  rw [chunks, hcount, List.range_succ_eq_map, List.map_cons, List.map_map, Nat.zero_mul, List.drop_zero]
  congr 1
  refine List.map_congr_left fun i _ => ?_
  change (word.drop ((i + 1) * width)).take width = _
  rw [List.drop_drop, Nat.succ_mul, Nat.add_comm]

/-- A word in pieces that fit; only the first has the gap before it. -/
def cut (width : Nat) (gap : Option α) (word : List α) : List (Piece α) :=
  match chunks width word with
  | [] => []
  | first :: rest => ⟨gap, first⟩ :: rest.map (⟨none, ·⟩)

theorem cut_short {word : List α} (hne : word ≠ []) (hle : word.length ≤ width) (gap : Option α) :
    cut width gap word = [⟨gap, word⟩] := by
  rw [cut, chunks_short hne hle]
  rfl

theorem cut_none (width : Nat) (word : List α) : cut width none word = (chunks width word).map (⟨none, ·⟩) := by
  unfold cut
  cases chunks width word <;> rfl

theorem cut_long {word : List α} (hpos : 0 < width) (hlt : width < word.length) (gap : Option α) :
    cut width gap word = ⟨gap, word.take width⟩ :: cut width none (word.drop width) := by
  rw [cut, chunks_long hpos hlt, cut_none]

theorem cut_ne_nil {word : List α} (hpos : 0 < width) (hne : word ≠ []) (gap : Option α) : cut width gap word ≠ [] := by
  by_cases hle : word.length ≤ width
  · rw [cut_short hne hle]
    exact List.cons_ne_nil _ _
  · rw [cut_long hpos (Nat.lt_of_not_le hle)]
    exact List.cons_ne_nil _ _

/-- The pieces of a word are not empty, fit, have no other gap, and are the word. -/
theorem cut_spec {word : List α} (hpos : 0 < width) (hne : word ≠ []) (gap : Option α) :
    (∀ p ∈ cut width gap word, p.text ≠ [] ∧ p.text.length ≤ width ∧ ∀ g ∈ p.gap, g ∈ gap) ∧
      (cut width gap word).flatMap Piece.text = word := by
  induction hn : word.length using Nat.strongRecOn generalizing word gap with
  | ind n ih =>
    by_cases hle : word.length ≤ width
    · rw [cut_short hne hle]
      exact ⟨List.forall_mem_singleton.mpr ⟨hne, hle, fun _ => id⟩, by simp⟩
    · have hlt := Nat.lt_of_not_le hle
      have hrest : word.drop width ≠ [] := List.ne_nil_of_length_pos (by rw [List.length_drop]; omega)
      obtain ⟨hall, hflat⟩ := ih _ (by rw [← hn, List.length_drop]; omega) hrest none rfl
      rw [cut_long hpos hlt]
      refine ⟨List.forall_mem_cons.mpr ⟨⟨?_, ?_, fun _ => id⟩, fun p hp => ?_⟩, ?_⟩
      · exact List.ne_nil_of_length_pos (by rw [List.length_take]; omega)
      · rw [List.length_take]
        exact Nat.min_le_left ..
      · obtain ⟨hp, hwidth, hgap⟩ := hall p hp
        exact ⟨hp, hwidth, fun g hg => absurd (hgap g hg) (by simp)⟩
      · rw [List.flatMap_cons, hflat, List.take_append_drop]

/-- A word with its gap, cut where no row could hold it. -/
def Rows.addWord (width : Nat) (r : Rows α) (gap : Option α) (word : List α) : Rows α :=
  (cut width gap word).foldl (Rows.add width) r

variable {full : List (List α)} {line word : List α} {gap : Option α}

theorem addWord_start (hne : word ≠ []) (hle : word.length ≤ width) :
    Rows.addWord width ⟨full, []⟩ gap word = ⟨full, word⟩ := by
  rw [Rows.addWord, cut_short hne hle, List.foldl_cons, List.foldl_nil, Rows.add, if_pos rfl]

theorem addWord_join (hline : line ≠ []) (hne : word ≠ [])
    (hroom : line.length + (gap.toList ++ word).length ≤ width) :
    Rows.addWord width ⟨full, line⟩ gap word = ⟨full, line ++ (gap.toList ++ word)⟩ := by
  have hle : word.length ≤ width := by
    rw [List.length_append] at hroom
    omega
  rw [Rows.addWord, cut_short hne hle, foldl_join hline hroom]
  rfl

/-- A word that does not fit begins a row, and its gap is not drawn. -/
theorem addWord_turn (hpos : 0 < width) (hline : line ≠ []) (hne : word ≠ [])
    (hroom : ¬line.length + (gap.toList ++ word).length ≤ width) :
    Rows.addWord width ⟨full, line⟩ gap word = Rows.addWord width ⟨full ++ [line], []⟩ none word := by
  by_cases hle : word.length ≤ width
  · rw [addWord_start hne hle, Rows.addWord, cut_short hne hle, foldl_turn hline hroom]
    rfl
  · have hlt := Nat.lt_of_not_le hle
    have hlength := List.length_pos_of_ne_nil hline
    have hover : ¬line.length + (Piece.inner ⟨gap, word.take width⟩).length ≤ width := by
      rw [Piece.inner, List.length_append, List.length_take]
      omega
    rw [Rows.addWord, Rows.addWord, cut_long hpos hlt, cut_long hpos hlt, foldl_turn hline hover,
      List.foldl_cons, Rows.add, if_pos rfl]

theorem addWord_long (hpos : 0 < width) (hlt : width < word.length) :
    Rows.addWord width ⟨full, []⟩ gap word =
      Rows.addWord width ⟨full ++ [word.take width], []⟩ none (word.drop width) := by
  have htake : (word.take width).length = width := by
    rw [List.length_take]
    omega
  have hrest : word.drop width ≠ [] := List.ne_nil_of_length_pos (by rw [List.length_drop]; omega)
  have hfull : ¬(word.take width).length + ((none : Option α).toList ++ word.drop width).length ≤ width := by
    have hleft := List.length_pos_of_ne_nil hrest
    rw [htake, List.length_append]
    omega
  have hturn : Rows.addWord width ⟨full, word.take width⟩ none (word.drop width) = _ :=
    addWord_turn hpos (List.ne_nil_of_length_pos (by omega)) hrest hfull
  rw [← hturn, Rows.addWord, cut_long hpos hlt, List.foldl_cons, Rows.add, if_pos rfl]
  rfl

theorem addWord_line_ne_nil (hpos : 0 < width) (hne : word ≠ []) (r : Rows α) :
    (r.addWord width gap word).line ≠ [] := by
  unfold Rows.addWord
  have hall := (cut_spec hpos hne gap).1
  obtain ⟨most, final, hmost⟩ : ∃ most final, cut width gap word = most ++ [final] :=
    ⟨_, _, (List.dropLast_concat_getLast (cut_ne_nil hpos hne gap)).symm⟩
  rw [hmost, List.foldl_append, List.foldl_cons, List.foldl_nil]
  exact add_line_ne_nil (hall final (by rw [hmost]; simp)).1

/-- An empty row takes no gap. -/
theorem addWord_gap (width : Nat) (full : List (List α)) (gap gap' : Option α) (word : List α) :
    Rows.addWord width ⟨full, []⟩ gap word = Rows.addWord width ⟨full, []⟩ gap' word := by
  unfold Rows.addWord cut
  cases chunks width word with
  | nil => rfl
  | cons first rest => rw [List.foldl_cons, List.foldl_cons, Rows.add, Rows.add, if_pos rfl, if_pos rfl]

/-! ## Letters of another kind -/

variable {β : Type*} (f : α → β)

def Piece.map (p : Piece α) : Piece β := ⟨p.gap.map f, p.text.map f⟩

def Rows.map (r : Rows α) : Rows β := ⟨r.full.map (List.map f), r.line.map f⟩

theorem add_map (width : Nat) (r : Rows α) (p : Piece α) : (r.map f).add width (p.map f) = (r.add width p).map f := by
  have hinner : (p.map f).inner = p.inner.map f := by
    unfold Piece.inner Piece.map
    cases p.gap <;> simp
  unfold Rows.add
  rw [hinner]
  simp only [Rows.map, Piece.map, List.map_eq_nil_iff, List.length_map]
  split_ifs <;> simp

theorem cut_map (width : Nat) (gap : Option α) (word : List α) :
    cut width (gap.map f) (word.map f) = (cut width gap word).map (Piece.map f) := by
  have hchunks : chunks width (word.map f) = (chunks width word).map (List.map f) := by
    unfold chunks
    rw [List.length_map, List.map_map]
    exact List.map_congr_left fun i _ => by simp
  unfold cut
  rw [hchunks]
  cases chunks width word with
  | nil => rfl
  | cons first rest =>
    simp only [List.map_cons, List.map_map]
    rfl

theorem addWord_map (width : Nat) (r : Rows α) (gap : Option α) (word : List α) :
    (r.map f).addWord width (gap.map f) (word.map f) = (r.addWord width gap word).map f := by
  unfold Rows.addWord
  rw [cut_map]
  induction cut width gap word generalizing r with
  | nil => rfl
  | cons p ps ih => rw [List.map_cons, List.foldl_cons, List.foldl_cons, add_map, ih]

end

end MarloweAgent.Library.Wrapping
