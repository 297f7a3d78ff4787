import MarloweAgent.Extract.Document
import MarloweAgent.Extract.Markup

/-! Tables of comma-separated values. What is kept of one is bounded while it is read: the rows, the
columns of a row, the bytes of a field. The rows are counted all the same. -/

namespace MarloweAgent.Extract.Csv
open Contract

def maxCsvRows : Nat := 5000

def maxCsvCols : Nat := 4096

def maxCsvFieldBytes : Nat := 1024 * 1024

abbrev Field := List Char

structure Scan where
  rows : List (List Field)
  total : Nat
  row : List Field
  field : Field
  quoted : Bool
  deriving DecidableEq, Repr

def pushFieldChar (field : Field) (c : Char) : Field :=
  if Text.byteLen field < maxCsvFieldBytes then field ++ [c] else field

namespace Scan

def start : Scan := ⟨[], 0, [], [], false⟩

def push (s : Scan) (c : Char) : Scan := { s with field := pushFieldChar s.field c }

def finishField (s : Scan) : Scan :=
  { s with row := if s.row.length < maxCsvCols then s.row ++ [s.field] else s.row, field := [] }

/-- A finished row is counted, and kept while there is room. -/
def finishRow (keep : Nat) (s : Scan) : Scan :=
  { s with
    total := s.total + 1
    rows := if s.rows.length < keep then s.rows ++ [s.row] else s.rows
    row := [] }

/-- The loop; `skip` when the next character was looked at already. -/
def run (delim : Char) (keep : Nat) (s : Scan) (skip : Bool) : List Char → Scan
  | [] => s
  | c :: rest =>
    if skip then run delim keep s false rest
    else if s.quoted then
      if c = '"' then
        if rest.head? = some '"' then run delim keep (s.push '"') true rest
        else run delim keep { s with quoted := false } false rest
      else run delim keep (s.push c) false rest
    else if c = '"' ∧ s.field = [] then run delim keep { s with quoted := true } false rest
    else if c = delim then run delim keep s.finishField false rest
    else if c = '\n' then run delim keep (s.finishField.finishRow keep) false rest
    else if c = '\r' then run delim keep s false rest
    else run delim keep (s.push c) false rest

end Scan

def parseCsv (src : List Char) (delim : Char) (keep : Nat) : List (List Field) × Nat :=
  -- One more row than will be shown: the first may be a header.
  let keep := keep + 1
  let s := Scan.start.run delim keep false src
  let s := if s.field ≠ [] ∨ s.row ≠ [] then s.finishField.finishRow keep else s
  (s.rows, s.total)

/-- The candidate that the first lines have most of, the last of equals. -/
def pickDelimiter (src : List Char) : Char :=
  let head := ['\n'].intercalate (((Text.lines (String.ofList src)).take 5).map String.toList)
  [',', '\t', ';', '|'].foldl (fun best d => if head.count best ≤ head.count d then d else best) ','

def blank (cell : Field) : Bool := (Html.trim cell).isEmpty

/-- One row as prose: the cells that are not blank, under their headers. -/
def record (header : Option (List Field)) (row : List Field) : List Char :=
  row.zipIdx.flatMap (fun p =>
    if blank p.1 then []
    else
      let named := match header.bind (·[p.2]?) with
        | some h => Html.trim h ++ ": ".toList
        | none => []
      named ++ Html.trim p.1 ++ ['\n']) ++ ['\n']

/-- `csv`; what `parse::<f64>` takes is a parameter. -/
def csv (isNumber : List Char → Bool) (src : List Char) : List Char × List Warning :=
  let (rows, totalRows) := parseCsv src (pickDelimiter src) maxCsvRows
  match rows with
  | [] => ([], [])
  | header :: below =>
    let looksHeaded := header.all (fun c => !blank c) && header.any fun c => !isNumber c
    let body := if looksHeaded then below else rows
    let out := (body.take maxCsvRows).flatMap (record (if looksHeaded then some header else none))
    let totalBody := if looksHeaded then totalRows - 1 else totalRows
    if maxCsvRows < totalBody then
      (out ++ ("[" ++ toString maxCsvRows ++ " of " ++ toString totalBody ++ " rows shown]\n").toList,
        [.truncated maxCsvRows maxCsvRows])
    else (out, [])

/-! ## Nothing bounded -/

/-- A table on its way in, all of it. -/
structure Reading where
  rows : List (List Field)
  row : List Field
  field : Field
  quoted : Bool
  deriving DecidableEq, Repr

namespace Reading

def start : Reading := ⟨[], [], [], false⟩

def finishField (r : Reading) : Reading := { r with row := r.row ++ [r.field], field := [] }

def finishRow (r : Reading) : Reading := { r with rows := r.rows ++ [r.row], row := [] }

def run (delim : Char) (r : Reading) (skip : Bool) : List Char → Reading
  | [] => r
  | c :: rest =>
    if skip then run delim r false rest
    else if r.quoted then
      if c = '"' then
        if rest.head? = some '"' then run delim { r with field := r.field ++ ['"'] } true rest
        else run delim { r with quoted := false } false rest
      else run delim { r with field := r.field ++ [c] } false rest
    else if c = '"' ∧ r.field = [] then run delim { r with quoted := true } false rest
    else if c = delim then run delim r.finishField false rest
    else if c = '\n' then run delim r.finishField.finishRow false rest
    else if c = '\r' then run delim r false rest
    else run delim { r with field := r.field ++ [c] } false rest

/-- The rows, with the one that no newline ended. -/
def close (r : Reading) : List (List Field) :=
  if r.field ≠ [] ∨ r.row ≠ [] then r.rows ++ [r.row ++ [r.field]] else r.rows

end Reading

/-- Every row of a text, whole. -/
def table (delim : Char) (src : List Char) : List (List Field) :=
  (Reading.start.run delim false src).close

/-! ## What the bounds leave -/

def clip (field : Field) : Field := field.foldl pushFieldChar []

def clipRow (row : List Field) : List Field := (row.take maxCsvCols).map clip

theorem clip_concat (field : Field) (c : Char) : clip (field ++ [c]) = pushFieldChar (clip field) c := by
  rw [clip, List.foldl_append]
  rfl

theorem pushFieldChar_ne_nil {field : Field} (h : field ≠ []) (c : Char) : pushFieldChar field c ≠ [] := by
  unfold pushFieldChar
  split
  · exact List.append_ne_nil_of_right_ne_nil _ (List.cons_ne_nil c [])
  · exact h

theorem clip_eq_nil (field : Field) : clip field = [] ↔ field = [] := by
  constructor
  · intro h
    induction field using List.reverseRecOn with
    | nil => rfl
    | append_singleton field c ih =>
      rw [clip_concat] at h
      by_cases hnil : clip field = []
      · rw [hnil] at h
        cases h
      · exact absurd h (pushFieldChar_ne_nil hnil c)
  · intro h
    rw [h]
    rfl

theorem length_clipRow (row : List Field) : (clipRow row).length = min maxCsvCols row.length := by
  rw [clipRow, List.length_map, List.length_take]

theorem clipRow_eq_nil (row : List Field) : clipRow row = [] ↔ row = [] := by
  rw [← List.length_eq_zero_iff, length_clipRow, ← List.length_eq_zero_iff, maxCsvCols]
  omega

theorem clipRow_concat (row : List Field) (field : Field) :
    clipRow (row ++ [field]) =
      if (clipRow row).length < maxCsvCols then clipRow row ++ [clip field] else clipRow row := by
  rw [length_clipRow]
  by_cases hroom : row.length < maxCsvCols
  · rw [if_pos (by omega)]
    unfold clipRow
    rw [List.take_of_length_le (by simp; omega), List.take_of_length_le hroom.le, List.map_append]
    rfl
  · rw [if_neg (by omega)]
    unfold clipRow
    rw [List.take_append_of_le_length (Nat.le_of_not_lt hroom)]

theorem byteLen_clip (field : Field) : Text.byteLen (clip field) < maxCsvFieldBytes + 4 := by
  induction field using List.reverseRecOn with
  | nil => decide
  | append_singleton field c ih =>
    rw [clip_concat]
    unfold pushFieldChar
    split
    · have hsize := c.utf8Size_le_four
      have hlen : Text.byteLen (clip field ++ [c]) = Text.byteLen (clip field) + c.utf8Size := by
        simp [Text.byteLen]
      omega
    · exact ih

/-- What the bounded scan has where the whole table is this far. -/
def kept (keep : Nat) (r : Reading) : Scan :=
  ⟨(r.rows.map clipRow).take keep, r.rows.length, clipRow r.row, clip r.field, r.quoted⟩

theorem kept_push (keep : Nat) (r : Reading) (c : Char) :
    (kept keep r).push c = kept keep { r with field := r.field ++ [c] } := by
  simp only [kept, Scan.push, clip_concat]

theorem kept_finishField (keep : Nat) (r : Reading) :
    (kept keep r).finishField = kept keep r.finishField := by
  simp only [kept, Scan.finishField, Reading.finishField, clipRow_concat]
  rfl

theorem take_concat_if (keep : Nat) (rows : List (List Field)) (row : List Field) :
    (rows ++ [row]).take keep = if (rows.take keep).length < keep then rows.take keep ++ [row] else rows.take keep := by
  by_cases hroom : rows.length < keep
  · rw [List.take_of_length_le (by simp; omega), List.take_of_length_le hroom.le, if_pos hroom]
  · have hle := Nat.le_of_not_lt hroom
    rw [List.take_append_of_le_length hle, List.length_take, if_neg (by omega)]

theorem kept_finishRow (keep : Nat) (r : Reading) : (kept keep r).finishRow keep = kept keep r.finishRow := by
  have hrows := take_concat_if keep (r.rows.map clipRow) (clipRow r.row)
  unfold Scan.finishRow Reading.finishRow
  rw [kept, kept, List.map_append, List.map_singleton, hrows, List.length_append, List.length_singleton]
  rfl

/-- The bounded scan follows the whole table. -/
theorem kept_run (delim : Char) (keep : Nat) (r : Reading) (skip : Bool) (src : List Char) :
    (kept keep r).run delim keep skip src = kept keep (r.run delim skip src) := by
  induction src generalizing r skip with
  | nil => rfl
  | cons c rest ih =>
    have hquoted : (kept keep r).quoted = r.quoted := rfl
    have hfield : (kept keep r).field = [] ↔ r.field = [] := clip_eq_nil r.field
    have hquote : ∀ q, { kept keep r with quoted := q } = kept keep { r with quoted := q } := fun q => rfl
    unfold Scan.run Reading.run
    simp only [hquoted, hfield, hquote, kept_push, kept_finishField, kept_finishRow, ih]
    split_ifs <;> rfl

theorem parseCsv_eq (src : List Char) (delim : Char) (keep : Nat) :
    parseCsv src delim keep =
      (((table delim src).map clipRow).take (keep + 1), (table delim src).length) := by
  have hrun : Scan.start.run delim (keep + 1) false src =
      kept (keep + 1) (Reading.start.run delim false src) := kept_run delim (keep + 1) .start false src
  unfold parseCsv table Reading.close
  simp only [hrun]
  generalize Reading.start.run delim false src = r
  have hopen : ((kept (keep + 1) r).field ≠ [] ∨ (kept (keep + 1) r).row ≠ []) ↔
      (r.field ≠ [] ∨ r.row ≠ []) :=
    or_congr (not_congr (clip_eq_nil r.field)) (not_congr (clipRow_eq_nil r.row))
  by_cases h : r.field ≠ [] ∨ r.row ≠ []
  · rw [if_pos (hopen.mpr h), if_pos h, kept_finishField, kept_finishRow]
    rfl
  · rw [if_neg (hopen.not.mpr h), if_neg h]
    rfl

/-- A table as prose, when all of it is there: the rows below a header, or all rows, the first of
them and then how many there are. -/
def prose (isNumber : List Char → Bool) : List (List Field) → List Char × List Warning
  | [] => ([], [])
  | header :: below =>
    let headed := header.all (fun c => !blank c) && header.any fun c => !isNumber c
    let body := if headed then below else header :: below
    let out := (body.take maxCsvRows).flatMap (record (if headed then some header else none))
    if maxCsvRows < body.length then
      (out ++ ("[" ++ toString maxCsvRows ++ " of " ++ toString body.length ++ " rows shown]\n").toList,
        [.truncated maxCsvRows maxCsvRows])
    else (out, [])

/-- Not holding the whole table changes nothing in what is said of it. -/
theorem csv_whole (isNumber : List Char → Bool) (src : List Char) :
    csv isNumber src = prose isNumber ((table (pickDelimiter src) src).map clipRow) := by
  unfold csv
  rw [parseCsv_eq]
  generalize table (pickDelimiter src) src = rows
  cases rows with
  | nil => rfl
  | cons header below =>
    simp only [List.map_cons, List.take_succ_cons, prose, List.length_cons]
    cases hheaded : (clipRow header).all (fun c => !blank c) && (clipRow header).any fun c => !isNumber c with
    | true =>
      simp only [if_true, Nat.add_sub_cancel, List.take_take, Nat.min_self, List.length_map]
    | false =>
      have htake : (clipRow header :: (below.map clipRow).take maxCsvRows).take maxCsvRows =
          (clipRow header :: below.map clipRow).take maxCsvRows := by
        rw [← List.take_succ_cons, List.take_take, Nat.min_eq_left (Nat.le_succ _)]
      simp only [Bool.false_eq_true, if_false, htake, List.length_cons, List.length_map]

/-! ## Written tables -/

/-- A cell as someone writes it, in quotes or bare. -/
structure Cell where
  text : Field
  quoted : Bool
  deriving DecidableEq, Repr

/-- The quotes of a cell's text stand twice. -/
def doubled (text : Field) : List Char := text.flatMap fun c => if c = '"' then ['"', '"'] else [c]

namespace Cell

def write (cell : Cell) : List Char :=
  if cell.quoted then '"' :: doubled cell.text ++ ['"'] else cell.text

/-- A bare cell holds nothing that ends it, and does not begin with a quote. -/
def Sound (delim : Char) (cell : Cell) : Prop :=
  cell.quoted = false →
    (∀ c ∈ cell.text, c ≠ delim ∧ c ≠ '\n' ∧ c ≠ '\r') ∧ cell.text.head? ≠ some '"'

instance (delim : Char) (cell : Cell) : Decidable (cell.Sound delim) :=
  haveI : Decidable (∀ c ∈ cell.text, c ≠ delim ∧ c ≠ '\n' ∧ c ≠ '\r') := List.decidableBAll _ _
  inferInstanceAs (Decidable (_ → _ ∧ _))

end Cell

def writeRow (delim : Char) (cells : List Cell) : List Char := [delim].intercalate (cells.map Cell.write)

/-- A row with its newline, which a carriage return may stand before. -/
structure Line where
  cells : List Cell
  carriageReturn : Bool
  deriving DecidableEq, Repr

def Line.write (delim : Char) (line : Line) : List Char :=
  writeRow delim line.cells ++ (if line.carriageReturn then ['\r', '\n'] else ['\n'])

/-- A table: its ended rows, and perhaps one more that nothing ends. -/
structure Sheet where
  lines : List Line
  last : Option (List Cell)
  deriving DecidableEq, Repr

namespace Sheet

def rows (sheet : Sheet) : List (List Cell) := sheet.lines.map Line.cells ++ sheet.last.toList

def write (delim : Char) (sheet : Sheet) : List Char :=
  sheet.lines.flatMap (Line.write delim) ++ (sheet.last.map (writeRow delim)).getD []

def texts (sheet : Sheet) : List (List Field) := sheet.rows.map fun row => row.map Cell.text

/-- Rows have cells, bare cells are sound, and a row that nothing ends is not one empty cell. -/
structure Sound (delim : Char) (sheet : Sheet) : Prop where
  apart : delim ≠ '"' ∧ delim ≠ '\n' ∧ delim ≠ '\r'
  cells : ∀ row ∈ sheet.rows, row ≠ [] ∧ ∀ cell ∈ row, cell.Sound delim
  last : ∀ row, sheet.last = some row → row.map Cell.text ≠ [[]]

end Sheet

section Round

variable {delim : Char} (rows : List (List Field)) (row : List Field)

theorem run_doubled (field text rest : List Char) :
    Reading.run delim ⟨rows, row, field, true⟩ false (doubled text ++ rest) =
      Reading.run delim ⟨rows, row, field ++ text, true⟩ false rest := by
  induction text generalizing field with
  | nil => simp [doubled]
  | cons c text ih =>
    have hrest := ih (field ++ [c])
    rw [List.append_assoc] at hrest
    by_cases hc : c = '"'
    · subst hc
      exact hrest
    · have hcons : doubled (c :: text) = c :: doubled text := by
        simp only [doubled, List.flatMap_cons, if_neg hc, List.singleton_append]
      rw [List.singleton_append] at hrest
      rw [← hrest, hcons, List.cons_append, Reading.run]
      simp only [hc, Bool.false_eq_true, if_true, if_false]

theorem run_bare {text : List Char}
    (htext : ∀ c ∈ text, c ≠ delim ∧ c ≠ '\n' ∧ c ≠ '\r') {field : Field}
    (hfirst : field = [] → text.head? ≠ some '"') (rest : List Char) :
    Reading.run delim ⟨rows, row, field, false⟩ false (text ++ rest) =
      Reading.run delim ⟨rows, row, field ++ text, false⟩ false rest := by
  induction text generalizing field with
  | nil => rw [List.nil_append, List.append_nil]
  | cons c text ih =>
    obtain ⟨⟨hdelim, hnewline, hreturn⟩, htail⟩ := List.forall_mem_cons.mp htext
    have hlonger : field ++ [c] = [] → text.head? ≠ some '"' := fun h => absurd h (by simp)
    have hrest := ih htail hlonger
    have hopen : ¬(c = '"' ∧ field = []) := fun h => hfirst h.2 (congrArg some h.1)
    rw [List.append_assoc, List.singleton_append] at hrest
    rw [List.cons_append, Reading.run, ← hrest]
    simp only [Bool.false_eq_true, if_false, hopen, hdelim, hnewline, hreturn]

/-- A cell is read as its text, if no quote follows it. -/
theorem run_cell {cell : Cell} (hcell : cell.Sound delim) {rest : List Char}
    (hrest : rest.head? ≠ some '"') :
    Reading.run delim ⟨rows, row, [], false⟩ false (cell.write ++ rest) =
      Reading.run delim ⟨rows, row, cell.text, false⟩ false rest := by
  unfold Cell.write
  cases hquoted : cell.quoted with
  | false =>
    obtain ⟨htext, hfirst⟩ := hcell hquoted
    rw [if_neg Bool.false_ne_true, run_bare rows row htext fun _ => hfirst]
    rfl
  | true =>
    rw [if_pos rfl, List.append_assoc, List.cons_append, Reading.run]
    simp only [Bool.false_eq_true, if_false, and_self, if_true]
    rw [run_doubled, List.singleton_append, Reading.run]
    simp only [Bool.false_eq_true, if_false, if_true, hrest, List.nil_append]

theorem run_row (hquote : delim ≠ '"') {cells : List Cell} (hne : cells ≠ [])
    (hcells : ∀ cell ∈ cells, cell.Sound delim) {rest : List Char} (hrest : rest.head? ≠ some '"') :
    ∃ before last, cells.map Cell.text = before ++ [last] ∧
      Reading.run delim ⟨rows, row, [], false⟩ false (writeRow delim cells ++ rest) =
        Reading.run delim ⟨rows, row ++ before, last, false⟩ false rest := by
  induction cells generalizing row with
  | nil => exact absurd rfl hne
  | cons cell cells ih =>
    obtain ⟨hcell, htail⟩ := List.forall_mem_cons.mp hcells
    cases cells with
    | nil =>
      refine ⟨[], cell.text, rfl, ?_⟩
      rw [List.append_nil, ← run_cell rows row hcell hrest]
      simp [writeRow]
    | cons next cells =>
      obtain ⟨before, last, htexts, hrun⟩ := ih (row ++ [cell.text]) (List.cons_ne_nil _ _) htail
      refine ⟨cell.text :: before, last, by rw [List.map_cons, htexts, List.cons_append], ?_⟩
      have hwrite : writeRow delim (cell :: next :: cells) =
          cell.write ++ delim :: writeRow delim (next :: cells) := by
        simp [writeRow, List.intercalate]
      rw [hwrite, List.append_assoc, List.cons_append,
        run_cell rows row hcell (by simpa using hquote), Reading.run]
      have hopen : ¬(delim = '"' ∧ cell.text = []) := fun h => hquote h.1
      simp only [Bool.false_eq_true, if_false, hopen, if_true, Reading.finishField]
      rw [hrun, List.append_assoc, List.singleton_append]

theorem run_line (hapart : delim ≠ '"' ∧ delim ≠ '\n' ∧ delim ≠ '\r') {line : Line} (hne : line.cells ≠ [])
    (hcells : ∀ cell ∈ line.cells, cell.Sound delim) (rest : List Char) :
    Reading.run delim ⟨rows, [], [], false⟩ false (line.write delim ++ rest) =
      Reading.run delim ⟨rows ++ [line.cells.map Cell.text], [], [], false⟩ false rest := by
  obtain ⟨hquote, hnewline, hreturn⟩ := hapart
  have hend : ∀ before last, line.cells.map Cell.text = before ++ [last] →
      Reading.run delim ⟨rows, before, last, false⟩ false ('\n' :: rest) =
        Reading.run delim ⟨rows ++ [line.cells.map Cell.text], [], [], false⟩ false rest := by
    intro before last htexts
    rw [Reading.run, htexts]
    simp [Ne.symm hnewline, Reading.finishField, Reading.finishRow]
  unfold Line.write
  rw [List.append_assoc]
  cases line.carriageReturn with
  | false =>
    have hfirst : (['\n'] ++ rest).head? ≠ some '"' := by simp
    obtain ⟨before, last, htexts, hrun⟩ := run_row rows [] hquote hne hcells hfirst
    rw [if_neg Bool.false_ne_true, hrun]
    exact hend before last htexts
  | true =>
    have hfirst : (['\r', '\n'] ++ rest).head? ≠ some '"' := by simp
    obtain ⟨before, last, htexts, hrun⟩ := run_row rows [] hquote hne hcells hfirst
    rw [if_pos rfl, hrun, List.cons_append, Reading.run]
    simpa [Ne.symm hreturn] using hend before last htexts

theorem run_lines (hapart : delim ≠ '"' ∧ delim ≠ '\n' ∧ delim ≠ '\r') {lines : List Line}
    (hlines : ∀ line ∈ lines, line.cells ≠ [] ∧ ∀ cell ∈ line.cells, cell.Sound delim) (rest : List Char) :
    Reading.run delim ⟨rows, [], [], false⟩ false (lines.flatMap (Line.write delim) ++ rest) =
      Reading.run delim ⟨rows ++ lines.map fun line => line.cells.map Cell.text, [], [], false⟩ false rest := by
  induction lines generalizing rows with
  | nil => rw [List.map_nil, List.append_nil, List.flatMap_nil, List.nil_append]
  | cons line lines ih =>
    obtain ⟨⟨hne, hcells⟩, htail⟩ := List.forall_mem_cons.mp hlines
    rw [List.flatMap_cons, List.append_assoc, run_line rows hapart hne hcells, ih _ htail,
      List.append_assoc, List.map_cons, List.singleton_append]

/-- Every sound sheet, however its cells are quoted and its rows ended, is read as its texts. -/
theorem table_write {sheet : Sheet} (h : sheet.Sound delim) :
    table delim (sheet.write delim) = sheet.texts := by
  have hlines : ∀ line ∈ sheet.lines, line.cells ≠ [] ∧ ∀ cell ∈ line.cells, cell.Sound delim := by
    intro line hline
    exact h.cells line.cells (List.mem_append_left _ (List.mem_map_of_mem hline))
  unfold table Sheet.write Sheet.texts Sheet.rows
  rw [Reading.start, run_lines [] h.apart hlines, List.nil_append, List.map_append, List.map_map]
  cases hlast : sheet.last with
  | none =>
    rw [Option.map_none, Option.getD_none, Reading.run, Reading.close, if_neg (by simp), Option.toList_none,
      List.map_nil, List.append_nil]
    rfl
  | some cells =>
    obtain ⟨hne, hcells⟩ := h.cells cells (List.mem_append_right _ (by rw [hlast]; exact List.mem_singleton.mpr rfl))
    have hnil : ([] : List Char).head? ≠ some '"' := by simp
    obtain ⟨before, last, htexts, hrun⟩ := run_row
      (sheet.lines.map fun line => line.cells.map Cell.text) [] h.apart.1 hne hcells hnil
    have hopen : last ≠ [] ∨ before ≠ [] := by
      by_contra hempty
      obtain ⟨rfl, rfl⟩ : last = [] ∧ before = [] := by simpa using hempty
      exact h.last cells hlast htexts
    rw [Option.map_some, Option.getD_some, ← List.append_nil (writeRow delim cells), hrun, Reading.run,
      Reading.close, List.nil_append, if_pos hopen, ← htexts]
    rfl

/-- **Round trip.** A sheet is parsed as its texts, within the bounds: the first rows, their first
columns, the beginnings of their fields, and the number of all its rows. -/
theorem parseCsv_write {sheet : Sheet} (h : sheet.Sound delim) (keep : Nat) :
    parseCsv (sheet.write delim) delim keep =
      ((sheet.texts.map clipRow).take (keep + 1), sheet.rows.length) := by
  rw [parseCsv_eq, table_write h, Sheet.texts, List.length_map]

/-- Two columns; a cell with a delimiter, quotes and a newline; a row that nothing ends. -/
def places : Sheet :=
  ⟨[⟨[⟨"city".toList, false⟩, ⟨"note".toList, true⟩], true⟩,
      ⟨[⟨"Nice".toList, false⟩, ⟨"a \"port\",\nold".toList, true⟩], false⟩],
    some [⟨"Lyon".toList, false⟩, ⟨[], false⟩]⟩

theorem sound_places : places.Sound ',' := ⟨by decide, by decide, by decide⟩

theorem parseCsv_write_places :
    parseCsv (places.write ',') ',' 1 = ((places.texts.map clipRow).take 2, 3) ∧
      (places.texts.map clipRow)[1]? = some ["Nice".toList, "a \"port\",\nold".toList] :=
  ⟨parseCsv_write sound_places 1, by decide⟩

end Round

end MarloweAgent.Extract.Csv
