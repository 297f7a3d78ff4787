import MarloweAgent.Exec.Web
import MarloweAgent.Library.Lines

/-! Line numbers. What is read of a file has its lines numbered, what is edited is
compared with the numbers taken off again, and a search and an edit name lines as well.
The numbers are those of one count, whatever ends the lines. -/

namespace MarloweAgent.Exec
open Contract Library Net

/-! ## Numbers before lines -/

def lineNumberWidth : Nat := 6

/-- `{:>6}` and a tab. -/
def linePrefix (n : Nat) : List Char :=
  let digits := Nat.toDigits 10 n
  List.replicate (lineNumberWidth - digits.length) ' ' ++ digits ++ ['\t']

/-- `number_lines`: the ends of the lines are kept as they are. -/
def numberLines (text : List Char) (firstLine : Nat) : List Char :=
  ((splitInclusive '\n' text).mapIdx fun i line => linePrefix (firstLine + i) ++ line).flatten

/-- The digits before a line, behind their padding. -/
def digitsOf (line : List Char) : List Char := (line.dropWhile (· = ' ')).takeWhile Char.isDigit

/-- One line of `strip_line_numbers`: its number, and the line behind its tab. -/
def numberedLine (line : List Char) : Option (Nat × List Char) :=
  let spaces := (line.takeWhile (· = ' ')).length
  let digits := digitsOf line
  if digits = [] then none
  else
    match line.drop (spaces + digits.length) with
    | '\t' :: body =>
      if spaces + digits.length = lineNumberWidth ∨ spaces = 0 ∧ lineNumberWidth < digits.length then
        let n := Nat.ofDigitChars 10 digits 0
        if n < 2 ^ 64 then some (n, body) else none
      else none
    | _ => none

/-- The loop of `strip_line_numbers`, with the number the next line has to have. -/
def stripFrom (expected : Option Nat) : List (List Char) → Option (List Char)
  | [] => some []
  | line :: rest =>
    match numberedLine line with
    | none => none
    | some (n, body) =>
      if expected.any (· ≠ n) then none
      else if n + 1 < 2 ^ 64 then (stripFrom (some (n + 1)) rest).map (body ++ ·)
      else none

def stripLineNumbers (text : List Char) : Option (List Char) :=
  if text = [] then none else stripFrom none (splitInclusive '\n' text)

/-- `line_at`: the line, from one on, that a byte is on. -/
def lineAt (text : List Char) (offset : Nat) : Nat := (upToBoundary text offset).count '\n' + 1

/-- `slice_lines`: the lines of a range, and the number of the first. -/
def sliceLines (text : List Char) (range : String) : Except String (List Char × Nat) :=
  let malformed (detail : String) : Except String (List Char × Nat) :=
    .error ("`range` must be `first-last`, 1-based and inclusive, e.g. \"20-60\" — " ++ detail
      ++ ". Omit `range` to read the whole file.")
  if '-' ∈ range.toList then
    let a := Text.trim (String.ofList (range.toList.takeWhile (· ≠ '-')))
    let b := Text.trim (String.ofList ((range.toList.dropWhile (· ≠ '-')).drop 1))
    match parseUsize 10 a, parseUsize 10 b with
    | some a, some b =>
      if a = 0 then malformed "lines are numbered from 1, not 0"
      else if b < a then
        malformed ("\"" ++ range ++ "\" runs backwards; did you mean \"" ++ toString b ++ "-"
          ++ toString a ++ "\"?")
      else .ok ((((splitInclusive '\n' text).drop (a - 1)).take (b - a + 1)).flatten, a)
    | _, _ => malformed ("\"" ++ range ++ "\" is not two whole numbers")
  else malformed ("\"" ++ range ++ "\" has no `-`")

/-- `take_lines`. -/
def takeLines (text : List Char) (n : Nat) : List Char := ((splitInclusive '\n' text).take n).flatten

/-! ## Digits -/

theorem isDigit_toDigits {n : Nat} {c : Char} (h : c ∈ Nat.toDigits 10 n) : c.isDigit = true :=
  Nat.isDigit_of_mem_toDigits (by decide) (by decide) h

theorem isDigit_digitsOf {line : List Char} {c : Char} (h : c ∈ digitsOf line) : c.isDigit = true :=
  List.mem_takeWhile_imp h

theorem digitChar_of_isDigit {c : Char} (h : c.isDigit = true) :
    c.toNat - 48 < 10 ∧ Nat.digitChar (c.toNat - 48) = c := by
  obtain ⟨hlo, hhi⟩ := Char.isDigit_iff_toNat.mp h
  have hlo : 48 ≤ c.toNat := hlo
  have hhi : c.toNat ≤ 57 := hhi
  refine ⟨by omega, Char.toNat_inj.mp ?_⟩
  rw [Nat.toNat_digitChar_of_lt_ten (by omega)]
  omega

/-- Digits without a zero before them are the digits of their number. -/
theorem toDigits_ofDigitChars {ds : List Char} (hdigits : ∀ c ∈ ds, c.isDigit = true) (hne : ds ≠ [])
    (hlead : ds.head? = some '0' → ds = ['0']) :
    Nat.toDigits 10 (Nat.ofDigitChars 10 ds 0) = ds := by
  induction ds using List.reverseRecOn with
  | nil => exact absurd rfl hne
  | append_singleton front d ih =>
    obtain ⟨hsmall, hchar⟩ := digitChar_of_isDigit (hdigits d (by simp))
    rw [Nat.ofDigitChars_append, Nat.ofDigitChars_cons, Nat.ofDigitChars_nil]
    show Nat.toDigits 10 (10 * Nat.ofDigitChars 10 front 0 + (d.toNat - 48)) = front ++ [d]
    by_cases hfront : front = []
    · subst hfront
      rw [Nat.ofDigitChars_nil, Nat.mul_zero, Nat.zero_add, Nat.toDigits_of_lt_base hsmall, hchar]
      rfl
    · have hhead : (front ++ [d]).head? = front.head? := List.head?_append_of_ne_nil front hfront
      have hnonzero : front.head? ≠ some '0' := fun hzero => by
        have hlength := congrArg List.length (hlead (hhead.trans hzero))
        have := List.length_pos_iff.mpr hfront
        simp only [List.length_append, List.length_cons, List.length_nil] at hlength
        omega
      have hdone := ih (fun c hc => hdigits c (List.mem_append_left _ hc)) hfront
        fun hzero => absurd hzero hnonzero
      have hpos : 0 < Nat.ofDigitChars 10 front 0 := Nat.pos_of_ne_zero fun hzero => by
        rw [hzero, Nat.toDigits_zero] at hdone
        exact hnonzero (by rw [← hdone]; rfl)
      rw [← Nat.toDigits_append_toDigits (by decide) hpos hsmall, hdone,
        Nat.toDigits_of_lt_base hsmall, hchar]

/-! ## One line -/

theorem newline_notMem_linePrefix (n : Nat) : '\n' ∉ linePrefix n := by
  simp only [linePrefix, List.mem_append, List.mem_replicate, List.mem_singleton]
  rintro ((⟨-, h⟩ | h) | h)
  · cases h
  · cases isDigit_toDigits h
  · cases h

/-- A line with spaces, digits and a tab before it. -/
theorem padded_line (spaces : Nat) {ds : List Char} (hdigits : ∀ c ∈ ds, c.isDigit = true)
    (hne : ds ≠ []) (body : List Char) {line : List Char}
    (hline : line = List.replicate spaces ' ' ++ ds ++ '\t' :: body) :
    line.takeWhile (· = ' ') = List.replicate spaces ' ' ∧ digitsOf line = ds ∧
      line.drop (spaces + ds.length) = '\t' :: body := by
  obtain ⟨d, more, rfl⟩ := List.exists_cons_of_ne_nil hne
  have hblank : ∀ c ∈ List.replicate spaces ' ', decide (c = ' ') = true := by simp
  have hd : d ≠ ' ' := by
    rintro rfl
    cases hdigits ' ' List.mem_cons_self
  subst hline
  refine ⟨?_, ?_, ?_⟩
  · rw [List.append_assoc, List.takeWhile_append_of_pos hblank]
    simp [hd]
  · rw [digitsOf, List.append_assoc, List.dropWhile_append_of_pos hblank, List.cons_append,
      List.dropWhile_cons_of_neg (by simpa using hd), ← List.cons_append,
      List.takeWhile_append_of_pos hdigits]
    simp
  · rw [List.drop_append]
    simp

/-- What `linePrefix` puts before a line, `numberedLine` takes off again. -/
theorem numberedLine_linePrefix {n : Nat} (hn : n < 2 ^ 64) (body : List Char) :
    numberedLine (linePrefix n ++ body) = some (n, body) := by
  have hline : linePrefix n ++ body =
      List.replicate (lineNumberWidth - (Nat.toDigits 10 n).length) ' ' ++ Nat.toDigits 10 n ++
        '\t' :: body := by simp [linePrefix]
  obtain ⟨hspaces, hdigits, hrest⟩ :=
    padded_line _ (fun _ => isDigit_toDigits) Nat.toDigits_ne_nil body hline
  have hwidth : lineNumberWidth - (Nat.toDigits 10 n).length + (Nat.toDigits 10 n).length =
      lineNumberWidth ∨ lineNumberWidth - (Nat.toDigits 10 n).length = 0 ∧
        lineNumberWidth < (Nat.toDigits 10 n).length := by omega
  unfold numberedLine
  dsimp only
  rw [hspaces, List.length_replicate, hdigits, hrest, if_neg Nat.toDigits_ne_nil]
  simp only [hwidth, if_true, Nat.ofDigitChars_ten_toDigits, hn]

theorem digitsOf_linePrefix (n : Nat) (body : List Char) :
    digitsOf (linePrefix n ++ body) = Nat.toDigits 10 n := by
  have hline : linePrefix n ++ body =
      List.replicate (lineNumberWidth - (Nat.toDigits 10 n).length) ' ' ++ Nat.toDigits 10 n ++
        '\t' :: body := by simp [linePrefix]
  exact (padded_line _ (fun _ => isDigit_toDigits) Nat.toDigits_ne_nil body hline).2.1

/-- A line that has a number taken off had it before it: padding, digits and a tab. -/
theorem of_numberedLine {n : Nat} {line body : List Char} (h : numberedLine line = some (n, body)) :
    ∃ spaces, line = List.replicate spaces ' ' ++ digitsOf line ++ '\t' :: body ∧
      digitsOf line ≠ [] ∧ (spaces + (digitsOf line).length = lineNumberWidth ∨
        spaces = 0 ∧ lineNumberWidth < (digitsOf line).length) ∧
      n = Nat.ofDigitChars 10 (digitsOf line) 0 ∧ n < 2 ^ 64 := by
  have hspaces : line.takeWhile (· = ' ') = List.replicate (line.takeWhile (· = ' ')).length ' ' :=
    List.eq_replicate_of_mem fun c hc => by simpa using List.mem_takeWhile_imp hc
  have hsplit : line = line.takeWhile (· = ' ') ++ digitsOf line ++
      line.drop ((line.takeWhile (· = ' ')).length + (digitsOf line).length) := by
    have hdigits : line.dropWhile (· = ' ') = digitsOf line ++
        (line.dropWhile (· = ' ')).dropWhile Char.isDigit := (List.takeWhile_append_dropWhile).symm
    have hline : line = line.takeWhile (· = ' ') ++ digitsOf line ++
        (line.dropWhile (· = ' ')).dropWhile Char.isDigit := by
      rw [List.append_assoc, ← hdigits, List.takeWhile_append_dropWhile]
    have hdrop := congrArg
      (List.drop ((line.takeWhile (· = ' ')).length + (digitsOf line).length)) hline
    rw [← List.length_append, List.drop_left] at hdrop
    rw [← List.length_append, hdrop]
    exact hline
  unfold numberedLine at h
  dsimp only at h
  split at h
  next => cases h
  next hne =>
    split at h
    next rest hrest =>
      split at h
      next hwidth =>
        split at h
        next hsmall =>
          cases h
          rw [hrest, hspaces] at hsplit
          exact ⟨_, hsplit, hne, hwidth, rfl, hsmall⟩
        next => cases h
      next => cases h
    next => cases h

/-- Where no zero stands before the number, it is `linePrefix` that put it there. -/
theorem eq_linePrefix {n : Nat} {line body : List Char} (h : numberedLine line = some (n, body))
    (hlead : (digitsOf line).head? = some '0' → digitsOf line = ['0']) :
    line = linePrefix n ++ body := by
  obtain ⟨spaces, hline, hne, hwidth, hn, -⟩ := of_numberedLine h
  have hcanonical := toDigits_ofDigitChars (fun _ => isDigit_digitsOf) hne hlead
  have hspaces : spaces = lineNumberWidth - (digitsOf line).length := by omega
  rw [hline, linePrefix, hn, hcanonical, hspaces]
  simp

/-! ## All lines -/

/-- Numbers that run on are taken off again. -/
theorem stripFrom_mapIdx (ls : List (List Char)) (k : Nat) (expected : Option Nat)
    (hexpected : ∀ n ∈ expected, n = k) (hfits : k + ls.length < 2 ^ 64) :
    stripFrom expected (ls.mapIdx fun i l => linePrefix (k + i) ++ l) = some ls.flatten := by
  induction ls generalizing k expected with
  | nil => rfl
  | cons l ls ih =>
    rw [List.length_cons] at hfits
    have hany : expected.any (· ≠ k) = false := by
      cases expected with
      | none => rfl
      | some n => simp [hexpected n rfl]
    have hrest := ih (k + 1) (some (k + 1)) (by simp) (by omega)
    have hnext : k + 1 < 2 ^ 64 := by omega
    rw [List.mapIdx_cons, stripFrom, Nat.add_zero, numberedLine_linePrefix (by omega)]
    simp only [Nat.add_assoc, Nat.add_comm 1] at hrest ⊢
    simp only [hany, hnext, hrest, Bool.false_eq_true, if_false, if_true, Option.map_some,
      List.flatten_cons]

theorem splitInclusive_numberLines {text : List Char} {k : Nat} :
    splitInclusive '\n' (numberLines text k) =
      (splitInclusive '\n' text).mapIdx fun i l => linePrefix (k + i) ++ l :=
  ((lined_splitInclusive text).mapIdx fun i =>
    newline_notMem_linePrefix (k + i)).splitInclusive_flatten

/-- Lines that carry numbers from one on, with what stands behind the numbers. -/
inductive Numbered : Nat → List (List Char) → List (List Char) → Prop
  | nil (k : Nat) : Numbered k [] []
  | cons {k line body ls bodies} (hline : numberedLine line = some (k, body))
      (hrest : Numbered (k + 1) ls bodies) : Numbered k (line :: ls) (body :: bodies)

/-- What is left of lines that are stripped, they carried behind numbers that run on. -/
theorem numbered_of_stripFrom {ls : List (List Char)} {expected : Option Nat} {u : List Char} {k : Nat}
    (h : stripFrom expected ls = some u)
    (hk : expected = some k ∨ expected = none ∧ (ls.head?.bind numberedLine).map Prod.fst = some k) :
    ∃ bodies, Numbered k ls bodies ∧ u = bodies.flatten := by
  induction ls generalizing expected u k with
  | nil =>
    cases h
    exact ⟨[], .nil k, rfl⟩
  | cons line ls ih =>
    unfold stripFrom at h
    split at h
    next => cases h
    next n body hline =>
      have hn : n = k := by
        rcases hk with rfl | ⟨rfl, hfirst⟩
        · split at h
          next => cases h
          next heq =>
            have hsame : k = n := by simpa using heq
            exact hsame.symm
        · simpa [hline] using hfirst
      subst hn
      split at h
      next => cases h
      next =>
        split at h
        next =>
          obtain ⟨rest, hrest, rfl⟩ := Option.map_eq_some_iff.mp h
          obtain ⟨bodies, hbodies, rfl⟩ := ih hrest (.inl rfl)
          exact ⟨body :: bodies, .cons hline hbodies, rfl⟩
        next => cases h

/-- A text gets its numbers off again. -/
theorem strip_numberLines {text : List Char} {k : Nat} (hne : text ≠ [])
    (hfits : k + (splitInclusive '\n' text).length < 2 ^ 64) :
    stripLineNumbers (numberLines text k) = some text := by
  have hlines := stripFrom_mapIdx (splitInclusive '\n' text) k none (by simp) hfits
  rw [← splitInclusive_numberLines, flatten_splitInclusive] at hlines
  unfold stripLineNumbers
  split
  next hempty =>
    rw [hempty] at hlines
    exact absurd (Option.some.inj hlines).symm hne
  next => exact hlines

/-- The number of the first line. -/
def firstNumber (text : List Char) : Option Nat :=
  ((splitInclusive '\n' text).head?.bind numberedLine).map Prod.fst

/-- The line behind its number and tab. -/
def bodyOf (line : List Char) : List Char :=
  line.drop ((line.takeWhile (· = ' ')).length + (digitsOf line).length + 1)

theorem bodyOf_eq {n : Nat} {line body : List Char} (h : numberedLine line = some (n, body)) :
    bodyOf line = body := by
  obtain ⟨spaces, hline, hne, -⟩ := of_numberedLine h
  obtain ⟨hspaces, -, hrest⟩ :=
    padded_line spaces (fun _ => isDigit_digitsOf) hne body hline
  rw [bodyOf, hspaces, List.length_replicate, ← List.drop_drop, hrest]
  rfl

/-- No zero stands before a number, and the last line has something behind its tab. -/
def AsPrinted (text : List Char) : Prop :=
  (∀ line ∈ splitInclusive '\n' text, (digitsOf line).head? = some '0' → digitsOf line = ['0']) ∧
    ∀ line ∈ (splitInclusive '\n' text).getLast?, bodyOf line ≠ []

theorem toDigits_head {n : Nat} (h : (Nat.toDigits 10 n).head? = some '0') :
    Nat.toDigits 10 n = ['0'] := by
  induction n using Nat.strongRecOn with
  | ind n ih =>
    by_cases hn : n < 10
    · rw [Nat.toDigits_of_lt_base hn] at h ⊢
      rw [Option.some.inj h]
    · have hbase : 10 ≤ n := Nat.le_of_not_lt hn
      rw [Nat.toDigits_of_base_le (by decide) hbase,
        List.head?_append_of_ne_nil _ Nat.toDigits_ne_nil] at h
      have hzero := congrArg (Nat.ofDigitChars 10 · 0) (ih (n / 10) (by omega) h)
      simp only [Nat.ofDigitChars_ten_toDigits] at hzero
      have : n / 10 = 0 := hzero
      omega

/-- What numbers are put before is printed: no zero leads, and no line is empty. -/
theorem asPrinted_numberLines (text : List Char) (k : Nat)
    (hfits : k + (splitInclusive '\n' text).length ≤ 2 ^ 64) : AsPrinted (numberLines text k) := by
  rw [AsPrinted, splitInclusive_numberLines]
  refine ⟨fun line hline => ?_, fun line hline => ?_⟩
  · obtain ⟨i, hi, rfl⟩ := List.mem_mapIdx.mp hline
    rw [digitsOf_linePrefix]
    exact toDigits_head
  · obtain ⟨i, hi, rfl⟩ := List.mem_mapIdx.mp (List.mem_of_getLast? hline)
    rw [bodyOf_eq (numberedLine_linePrefix (by omega) _)]
    exact (lined_splitInclusive text).ne_nil _ (List.getElem_mem hi)

theorem Numbered.fits {k : Nat} {ls bodies : List (List Char)} (h : Numbered k ls bodies)
    (hne : ls ≠ []) : k + ls.length ≤ 2 ^ 64 := by
  induction h with
  | nil => exact absurd rfl hne
  | @cons k line body ls bodies hline hrest ih =>
    obtain ⟨-, -, -, -, -, hk⟩ := of_numberedLine hline
    rw [List.length_cons]
    cases ls with
    | nil =>
      show k + 1 ≤ 2 ^ 64
      omega
    | cons next more =>
      have hlater := ih (List.cons_ne_nil next more)
      omega

/-- Printed lines are their bodies with the numbers before them. -/
theorem Numbered.printed {k : Nat} {ls bodies : List (List Char)} (h : Numbered k ls bodies)
    (hls : Lined '\n' ls)
    (hlead : ∀ line ∈ ls, (digitsOf line).head? = some '0' → digitsOf line = ['0'])
    (hlast : ∀ line ∈ ls.getLast?, bodyOf line ≠ []) :
    Lined '\n' bodies ∧ ls = bodies.mapIdx fun i l => linePrefix (k + i) ++ l := by
  induction h with
  | nil => exact ⟨.nil, rfl⟩
  | @cons k line body ls bodies hline hrest ih =>
    have hlabel := eq_linePrefix hline (hlead line List.mem_cons_self)
    cases hls with
    | last hne hnone =>
      cases hrest
      have hbody : body ≠ [] := bodyOf_eq hline ▸ hlast line rfl
      rw [hlabel] at hnone
      exact ⟨.last hbody fun hmem => hnone (List.mem_append_right _ hmem), by simp [hlabel]⟩
    | @line l ls hnone hls =>
      have hlaterLast : ∀ line ∈ ls.getLast?, bodyOf line ≠ [] := fun line hmem =>
        hlast line (by simp [List.getLast?_cons, Option.mem_def.mp hmem])
      obtain ⟨hbodies, hrestLines⟩ :=
        ih hls (fun line hmem => hlead line (List.mem_cons_of_mem _ hmem)) hlaterLast
      rcases List.eq_nil_or_concat body with rfl | ⟨front, c, rfl⟩
      · rw [List.append_nil] at hlabel
        exact absurd (hlabel ▸ (by simp : '\n' ∈ l ++ ['\n'])) (newline_notMem_linePrefix k)
      · rw [List.concat_eq_append, ← List.append_assoc] at hlabel
        obtain ⟨rfl, hend⟩ := List.append_inj' hlabel rfl
        cases hend
        rw [List.concat_eq_append]
        refine ⟨.line (fun hmem => hnone (List.mem_append_right _ hmem)) hbodies, ?_⟩
        rw [List.mapIdx_cons, Nat.add_zero, List.append_assoc]
        conv_lhs => rw [hrestLines]
        simp only [Nat.add_assoc, Nat.add_comm 1]

/-- The numbers of a printed text, taken off, are put back as they were; and only those of a
printed text are. -/
theorem number_strip_iff {x u : List Char} {k : Nat} (h : stripLineNumbers x = some u)
    (hk : firstNumber x = some k) :
    numberLines u k = x ↔ AsPrinted x := by
  have hx : x ≠ [] := by
    rintro rfl
    cases h
  rw [stripLineNumbers, if_neg hx] at h
  obtain ⟨bodies, hnumbered, rfl⟩ := numbered_of_stripFrom h (.inr ⟨rfl, hk⟩)
  constructor
  · intro heq
    have hlength : (splitInclusive '\n' x).length =
        (splitInclusive '\n' bodies.flatten).length := by
      rw [← heq, splitInclusive_numberLines, List.length_mapIdx]
    have hfits := hnumbered.fits fun hnone => hx (by rw [← flatten_splitInclusive x, hnone]; rfl)
    rw [hlength] at hfits
    rw [← heq]
    exact asPrinted_numberLines _ _ hfits
  · rintro ⟨hlead, hlast⟩
    obtain ⟨hbodies, hlines⟩ := hnumbered.printed (lined_splitInclusive x) hlead hlast
    rw [numberLines, hbodies.splitInclusive_flatten, ← hlines, flatten_splitInclusive]

/-! ## One count of lines -/

/-- A line less its end, as `str::lines` has it. -/
def chomp (piece : List Char) : List Char :=
  if piece.getLast? = some '\n' then Text.stripCr piece.dropLast else piece

/-- `str::lines` and `split_inclusive` find the same lines. -/
theorem lines_eq (text : List Char) : Text.lines (String.ofList text) =
    (splitInclusive '\n' text).map fun piece => String.ofList (chomp piece) := by
  rw [Text.lines, String.toList_ofList]
  induction text using lines_induction '\n' with
  | nil => rfl
  | last l hne hl =>
    have hlast : l.getLast? ≠ some '\n' := fun h => hl (List.mem_of_getLast? h)
    simp [List.splitOn_eq_singleton hl, splitInclusive_last hne hl, chomp, hlast, hne]
  | line l rest hl ih =>
    have hrest := List.splitOn_ne_nil '\n' rest
    rw [List.splitOn_append_cons_self_of_not_mem hl, splitInclusive_line hl, List.map_cons, ← ih,
      List.dropLast_cons_of_ne_nil hrest, List.getLast?_cons]
    cases hpieces : (rest.splitOn '\n').getLast? with
    | none => exact absurd (List.getLast?_eq_none_iff.mp hpieces) hrest
    | some last => simp [chomp]

theorem upToBoundary_append (before after : List Char) :
    upToBoundary (before ++ after) (Text.byteLen before) = before := by
  induction before with
  | nil =>
    cases after with
    | nil => rfl
    | cons c rest =>
      have hsize : ¬ c.utf8Size ≤ 0 := Nat.not_le.mpr c.utf8Size_pos
      show upToBoundary (c :: rest) 0 = []
      rw [upToBoundary, if_neg hsize]
  | cons c before ih =>
    have hlength : Text.byteLen (c :: before) = c.utf8Size + Text.byteLen before := rfl
    rw [List.cons_append, hlength, upToBoundary, if_pos (Nat.le_add_right _ _), Nat.add_sub_cancel_left,
      ih]

/-- The first byte of a line is on the line of its number. -/
theorem lineAt_line {text : List Char} {i : Nat} (hi : i < (splitInclusive '\n' text).length) :
    lineAt text (Text.byteLen ((splitInclusive '\n' text).take i).flatten) = i + 1 := by
  have hsplit : text = ((splitInclusive '\n' text).take i).flatten ++
      ((splitInclusive '\n' text).drop i).flatten := by
    rw [← List.flatten_append, List.take_append_drop, flatten_splitInclusive]
  have hbefore := upToBoundary_append ((splitInclusive '\n' text).take i).flatten
    ((splitInclusive '\n' text).drop i).flatten
  rw [← hsplit] at hbefore
  rw [lineAt, hbefore, (lined_splitInclusive text).count_take hi]

/-- The lines a range selects are those from its first on. -/
theorem sliceLines_eq {text sliced : List Char} {range : String} {first : Nat}
    (h : sliceLines text range = .ok (sliced, first)) :
    first ≠ 0 ∧ ∃ count, sliced = (((splitInclusive '\n' text).drop (first - 1)).take count).flatten := by
  unfold sliceLines at h
  dsimp only at h
  split at h
  next =>
    split at h
    next a b _ _ =>
      split at h
      next => cases h
      next hzero =>
        split at h
        next => cases h
        next =>
          cases h
          exact ⟨hzero, _, rfl⟩
    next => cases h
  next => cases h

/-- What a read numbers: a text, or a range of it with the number of its first line. -/
def Selects (text : List Char) (selected : List Char × Nat) : Prop :=
  selected = (text, 1) ∨ ∃ range, sliceLines text range = .ok selected

/-- A line of a text is one line to every tool: a search reports it under its number, its first byte is
on it, and whatever window is read, what stands under its number is the line. -/
structure SameLine (text : List Char) (n : Nat) (piece : List Char) : Prop where
  grep : (Text.lines (String.ofList text))[n]? = some (String.ofList (chomp piece))
  offset : ∃ before after, text = before ++ piece ++ after ∧ piece ≠ [] ∧
    lineAt text (Text.byteLen before) = n + 1
  read : ∀ sliced first, Selects text (sliced, first) → ∀ window i shown,
    (splitInclusive '\n' (numberLines (takeLines sliced window) first))[i]? = some shown →
      first + i = n + 1 → shown = linePrefix (n + 1) ++ piece

theorem sameLine {text piece : List Char} {n : Nat}
    (h : (splitInclusive '\n' text)[n]? = some piece) : SameLine text n piece := by
  obtain ⟨hn, rfl⟩ := List.getElem?_eq_some_iff.mp h
  have hlines : Lined '\n' (splitInclusive '\n' text) := lined_splitInclusive text
  refine ⟨by rw [lines_eq, List.getElem?_map, h]; rfl, ?_, ?_⟩
  · refine ⟨((splitInclusive '\n' text).take n).flatten,
      ((splitInclusive '\n' text).drop (n + 1)).flatten, ?_, hlines.ne_nil _ (List.getElem_mem hn),
      lineAt_line hn⟩
    have hall : ((splitInclusive '\n' text).take n ++
        (splitInclusive '\n' text)[n] :: (splitInclusive '\n' text).drop (n + 1)).flatten = text := by
      rw [← List.drop_eq_getElem_cons hn, List.take_append_drop, flatten_splitInclusive]
    rw [List.flatten_append, List.flatten_cons] at hall
    rw [List.append_assoc]
    exact hall.symm
  · intro sliced first hselects window i shown hshown hnumber
    obtain ⟨hfirst, count, hsliced⟩ : first ≠ 0 ∧ ∃ count,
        sliced = (((splitInclusive '\n' text).drop (first - 1)).take count).flatten := by
      rcases hselects with heq | ⟨range, hrange⟩
      · cases heq
        refine ⟨by simp, (splitInclusive '\n' text).length, ?_⟩
        simp [flatten_splitInclusive]
      · exact sliceLines_eq hrange
    have hpieces : splitInclusive '\n' (takeLines sliced window) =
        (((splitInclusive '\n' text).drop (first - 1)).take count).take window := by
      have hslice := ((hlines.drop (first - 1)).take count).splitInclusive_flatten
      rw [takeLines, hsliced, hslice]
      exact (((hlines.drop (first - 1)).take count).take window).splitInclusive_flatten
    rw [splitInclusive_numberLines, List.getElem?_mapIdx, hpieces, List.take_take] at hshown
    obtain ⟨found, hfound, rfl⟩ := Option.map_eq_some_iff.mp hshown
    rw [List.getElem?_take] at hfound
    split at hfound
    next =>
      rw [List.getElem?_drop, show first - 1 + i = n by omega, h] at hfound
      cases hfound
      rw [hnumber]
    next => cases hfound

/-- Line numbers come off as they were put on, they go on as they came off where they were printed, and
all tools count the same lines. -/
theorem numbering_agrees (text x u : List Char) (k : Nat) :
    (text ≠ [] → k + (splitInclusive '\n' text).length < 2 ^ 64 →
      stripLineNumbers (numberLines text k) = some text) ∧
    (stripLineNumbers x = some u → firstNumber x = some k → (numberLines u k = x ↔ AsPrinted x)) ∧
    ∀ n piece, (splitInclusive '\n' text)[n]? = some piece → SameLine text n piece :=
  ⟨strip_numberLines, number_strip_iff, fun _ _ => sameLine⟩

/-- A line, with its number and without. -/
theorem one_line_agrees : stripLineNumbers (numberLines "a\n".toList 1) = some "a\n".toList :=
  (numbering_agrees "a\n".toList [] [] 1).1 (by decide) (by decide +kernel)

/-- A number with zeros before it comes off, and goes on with spaces. -/
theorem zeros_not_put_back :
    ¬ ∀ x u k, stripLineNumbers x = some u → u ≠ [] → firstNumber x = some k → numberLines u k = x := by
  intro h
  have hback := h "000042\tfoo".toList "foo".toList 42 (by decide +kernel) (by decide)
    (by decide +kernel)
  exact absurd hback (by decide +kernel)

end MarloweAgent.Exec
