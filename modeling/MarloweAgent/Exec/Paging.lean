import MarloweAgent.Exec.Reading

/-! A file read page by page. A reader takes the range each notice names, from a plain read on,
and stops where there is no notice. Every character has been shown, under its number, if no line
is longer than a window and every page between the first and the last was cut short of its range:
a page that shows all its range asks for carries no notice, and nothing behind it is read. -/

namespace MarloweAgent.Exec
open Contract Library Net Permission Tools Loop

/-! ## Following the notices -/

/-- The pages a reader sees from a read on, up to one without a notice. -/
inductive Follows (text : List Char) : Option String → List Page → Prop
  | last {range : Option String} {page : Page} (hread : readPage text range = .ok page)
      (hend : page.notice (lineCount text) = none) : Follows text range [page]
  | next {range : Option String} {page : Page} {pages : List Page} {notice : Notice}
      (hread : readPage text range = .ok page) (hnotice : page.notice (lineCount text) = some notice)
      (hrest : Follows text (some notice.range) pages) : Follows text range (page :: pages)

/-- No read leaves out anything it selected without a notice, and the pages from a plain read on
show the whole text under its numbers, each line once. -/
def ReadsWhole (text : List Char) : Prop :=
  (∀ range selection first page, select text range = .ok (selection, first) →
    readPage text range = .ok page → page.shown ≠ numberLines selection first →
      (page.notice (lineCount text)).isSome = true) ∧
    ∃ pages, Follows text none pages ∧ (pages.map Page.shown).flatten = numberLines text 1

/-- The numbered lines of a text. -/
def numberedLines (text : List Char) : List (List Char) := numbered (splitInclusive '\n' text) 1

/-- Every line has room in a window, and of the pages the lines are laid out on, those between the first
and the last have fewer lines than a window may have. -/
def PagesThrough (text : List Char) : Prop :=
  (∀ line ∈ numberedLines text, Text.byteLen line ≤ readWindowBytes) ∧
    ∀ page ∈ (pack Text.byteLen readWindowBytes readWindowLines (numberedLines text)).tail.dropLast,
      page.length < readWindowLines

instance (text : List Char) : Decidable (PagesThrough text) := inferInstanceAs (Decidable (_ ∧ _))

/-! ## Ranges -/

theorem toDigit_of_isDigit {c : Char} (h : c.isDigit = true) :
    toDigit 10 c = some (c.toNat - '0'.toNat) := by
  have hsmall := (digitChar_of_isDigit h).1
  unfold toDigit
  dsimp only
  rw [if_pos h]
  exact if_pos hsmall

theorem foldlM_toDigit {ds : List Char} (hdigits : ∀ c ∈ ds, c.isDigit = true) (n : Nat) :
    ds.foldlM (fun n c => (toDigit 10 c).map (n * 10 + ·)) n = some (Nat.ofDigitChars 10 ds n) := by
  induction ds generalizing n with
  | nil => rfl
  | cons d ds ih =>
    obtain ⟨hd, hds⟩ := List.forall_mem_cons.mp hdigits
    rw [List.foldlM_cons, toDigit_of_isDigit hd, Nat.ofDigitChars_cons, Nat.mul_comm 10 n]
    exact ih hds _

/-- A number is read as it is written. -/
theorem parseUsize_toDigits {n : Nat} (hn : n < 2 ^ 64) :
    parseUsize 10 (String.ofList (Nat.toDigits 10 n)) = some n := by
  have hplain : Text.stripPrefix (Nat.toDigits 10 n) ['+'] = none := by
    refine if_neg fun hplus => ?_
    have hmem : '+' ∈ Nat.toDigits 10 n :=
      (List.isPrefixOf_iff_prefix.mp hplus).subset (List.mem_singleton_self _)
    cases isDigit_toDigits hmem
  unfold parseUsize
  rw [String.toList_ofList, hplain]
  dsimp only [Option.getD_none]
  rw [foldlM_toDigit fun _ => isDigit_toDigits, Nat.ofDigitChars_ten_toDigits]
  exact if_pos ⟨Nat.toDigits_ne_nil, hn⟩

theorem trim_toDigits (n : Nat) : Text.trim (String.ofList (Nat.toDigits 10 n)) =
    String.ofList (Nat.toDigits 10 n) := by
  refine Text.trim_of_forall fun c hc => ?_
  rw [String.toList_ofList] at hc
  obtain ⟨hlo, hhi⟩ := Char.isDigit_iff_toNat.mp (isDigit_toDigits hc)
  have hlo : 48 ≤ c.toNat := hlo
  have hhi : c.toNat ≤ 57 := hhi
  simp only [Text.isWhitespace, Bool.or_eq_false_iff, Bool.and_eq_false_iff, decide_eq_false_iff_not,
    beq_eq_false_iff_ne]
  omega

/-- A range as a notice writes it selects the lines it names. -/
theorem sliceLines_range (text : List Char) {a b : Nat} (ha : 0 < a) (hab : a ≤ b) (hb : b < 2 ^ 64) :
    sliceLines text (toString a ++ "-" ++ toString b) =
      .ok ((((splitInclusive '\n' text).drop (a - 1)).take (b - a + 1)).flatten, a) := by
  have hrange : (toString a ++ "-" ++ toString b).toList =
      Nat.toDigits 10 a ++ '-' :: Nat.toDigits 10 b := by
    simp
  have hdigits : ∀ c ∈ Nat.toDigits 10 a, decide (c ≠ '-') = true := fun c hc =>
    decide_eq_true fun heq => by
      rw [heq] at hc
      cases isDigit_toDigits hc
  unfold sliceLines
  dsimp only
  rw [hrange, if_pos (by simp), List.takeWhile_append_of_pos hdigits,
    List.dropWhile_append_of_pos hdigits]
  simp only [List.takeWhile_cons, List.dropWhile_cons, ne_eq, not_true_eq_false, decide_false,
    Bool.false_eq_true, if_false, List.append_nil, List.drop_one, List.tail_cons, trim_toDigits,
    parseUsize_toDigits (show a < 2 ^ 64 by omega), parseUsize_toDigits hb, Nat.ne_of_gt ha,
    Nat.not_lt.mpr hab]

/-! ## One read -/

theorem lineCount_eq (text : List Char) : lineCount text = (splitInclusive '\n' text).length := by
  rw [lineCount, lines_eq, List.length_map]

@[simp] theorem length_numberedLines (text : List Char) :
    (numberedLines text).length = lineCount text := by
  rw [numberedLines, length_numbered, lineCount_eq]

theorem lined_numberedLines (text : List Char) : Lined '\n' (numberedLines text) :=
  lined_numbered (lined_splitInclusive text) 1

/-- Some lines of a text in a row, with their numbers. -/
theorem numbered_slice (text : List Char) (s n : Nat) :
    numbered (((splitInclusive '\n' text).drop s).take n) (s + 1) =
      ((numberedLines text).drop s).take n := by
  rw [numbered_take, Nat.add_comm, numbered_drop, numberedLines]

/-- How many lines the page that begins behind `s` lines takes. -/
def taken (text : List Char) (s : Nat) : Nat :=
  fitting Text.byteLen readWindowBytes (((numberedLines text).drop s).take readWindowLines)

/-- The range that goes on behind `s` lines. -/
def rangeFrom (text : List Char) (s : Nat) : String :=
  toString (s + 1) ++ "-" ++ toString (min (s + readWindowLines) (lineCount text))

theorem taken_le (text : List Char) (s : Nat) :
    taken text s ≤ min readWindowLines (lineCount text - s) := by
  have hle := fitting_le Text.byteLen readWindowBytes (((numberedLines text).drop s).take readWindowLines)
  rwa [List.length_take, List.length_drop, length_numberedLines] at hle

section
variable {text : List Char} {s : Nat}
  (hsmall : ∀ line ∈ numberedLines text, Text.byteLen line ≤ readWindowBytes)
include hsmall

theorem taken_pos (hs : s < lineCount text) : 0 < taken text s := by
  refine fitting_pos (fun hnil => ?_) fun line hline =>
    hsmall line (List.mem_of_mem_drop (List.mem_of_mem_take hline))
  have hlength := congrArg List.length hnil
  rw [List.length_take, List.length_drop, length_numberedLines, List.length_nil] at hlength
  have : readWindowLines = 2000 := rfl
  omega

/-- A plain read. -/
theorem readPage_none : readPage text none =
    .ok { shown := ((numberedLines text).take (taken text 0)).flatten, first := 1
          kept := taken text 0, selected := lineCount text } := by
  have hwindow := window_eq (lined_splitInclusive text) 1 hsmall
  rw [flatten_splitInclusive, ← lineCount_eq] at hwindow
  exact congrArg Except.ok hwindow

/-- A read that goes on from a notice. -/
theorem readPage_from (hs : s < lineCount text) (hfew : lineCount text < 2 ^ 64) :
    readPage text (some (rangeFrom text s)) =
      .ok { shown := (((numberedLines text).drop s).take (taken text s)).flatten, first := s + 1
            kept := taken text s, selected := min readWindowLines (lineCount text - s) } := by
  have hwidth : readWindowLines = 2000 := rfl
  have hslice := sliceLines_range text (Nat.succ_pos s)
    (show s + 1 ≤ min (s + readWindowLines) (lineCount text) by omega) (by omega)
  have hlines : ((splitInclusive '\n' text).drop (s + 1 - 1)).take
      (min (s + readWindowLines) (lineCount text) - (s + 1) + 1) =
      ((splitInclusive '\n' text).drop s).take readWindowLines := by
    refine List.take_eq_take_iff.mpr ?_
    rw [List.length_drop, ← lineCount_eq]
    omega
  rw [hlines] at hslice
  have hlined : Lined '\n' (((splitInclusive '\n' text).drop s).take readWindowLines) :=
    ((lined_splitInclusive text).drop s).take readWindowLines
  have hne : (((splitInclusive '\n' text).drop s).take readWindowLines).flatten ≠ [] := fun hnil => by
    have hcount := lineCount_flatten hlined
    rw [hnil, List.length_take, List.length_drop, ← lineCount_eq] at hcount
    have hzero : lineCount [] = 0 := rfl
    omega
  have hwindow := window_eq hlined (s + 1) (by
    rw [numbered_slice]
    exact fun line hline => hsmall line (List.mem_of_mem_drop (List.mem_of_mem_take hline)))
  have htaken : roomFor (((splitInclusive '\n' text).drop s).take readWindowLines) (s + 1) =
      taken text s := by
    rw [roomFor, numbered_slice, List.take_take, Nat.min_self, taken]
  have hshort := taken_le text s
  rw [htaken, numbered_slice, List.take_take, Nat.min_eq_left (by omega), List.length_take,
    List.length_drop, ← lineCount_eq] at hwindow
  have hselect : select text (some (rangeFrom text s)) =
      .ok ((((splitInclusive '\n' text).drop s).take readWindowLines).flatten, s + 1) := by
    unfold select
    dsimp only
    rw [rangeFrom, hslice]
    exact if_neg fun h => hne h.1
  rw [readPage, hselect]
  exact congrArg Except.ok hwindow

end

/-! ## Reading on -/

theorem Follows.of_last {text : List Char} {range : Option String} {page : Page} {pages : List Page}
    (hread : readPage text range = .ok page) (hend : page.notice (lineCount text) = none)
    (h : Follows text range pages) : pages = [page] := by
  cases h with
  | last hread' => cases hread.symm.trans hread'; rfl
  | next hread' hnotice =>
    cases hread.symm.trans hread'
    cases hend.symm.trans hnotice

theorem Follows.of_next {text : List Char} {range : Option String} {page : Page} {pages : List Page}
    {notice : Notice} (hread : readPage text range = .ok page)
    (hnotice : page.notice (lineCount text) = some notice) (h : Follows text range pages) :
    ∃ rest, pages = page :: rest ∧ Follows text (some notice.range) rest := by
  cases h with
  | last hread' hend =>
    cases hread.symm.trans hread'
    cases hend.symm.trans hnotice
  | next hread' hnotice' hrest =>
    cases hread.symm.trans hread'
    cases hnotice.symm.trans hnotice'
    exact ⟨_, rfl, hrest⟩

/-- The pages from a read on show the lines behind the first `s`, and nothing else. -/
def ReadsFrom (text : List Char) (range : Option String) (s : Nat) : Prop :=
  ∃ pages, Follows text range pages ∧
    (pages.map Page.shown).flatten = ((numberedLines text).drop s).flatten

section
variable {text : List Char} {range : Option String} {page : Page} {s k : Nat}

/-- Behind lines that are all there is, there are none. -/
theorem flatten_take_eq_iff {ls : List (List Char)} (hls : Lined '\n' ls) {k : Nat} :
    (ls.take k).flatten = ls.flatten ↔ ls.length ≤ k := by
  constructor
  · intro h
    have hlength := congrArg List.length
      ((hls.take k).splitInclusive_flatten.symm.trans ((congrArg _ h).trans hls.splitInclusive_flatten))
    rw [List.length_take] at hlength
    omega
  · exact fun h => by rw [List.take_of_length_le h]

/-- Where there is no notice, what is left must be on the page. -/
theorem readsFrom_last (hread : readPage text range = .ok page)
    (hshown : page.shown = (((numberedLines text).drop s).take k).flatten)
    (hend : page.notice (lineCount text) = none) :
    ReadsFrom text range s ↔ lineCount text ≤ s + k := by
  have hflat := flatten_take_eq_iff ((lined_numberedLines text).drop s) (k := k)
  rw [List.length_drop, length_numberedLines] at hflat
  have hshow : ([page].map Page.shown).flatten = (((numberedLines text).drop s).take k).flatten := by
    rw [List.map_singleton, List.flatten_singleton, hshown]
  constructor
  · rintro ⟨pages, hfollows, hpages⟩
    rw [hfollows.of_last hread hend, hshow, hflat] at hpages
    omega
  · exact fun hall => ⟨[page], .last hread hend, hshow.trans (hflat.mpr (by omega))⟩

/-- Where there is a notice, what is left is on the pages it leads to. -/
theorem readsFrom_next (hread : readPage text range = .ok page)
    (hshown : page.shown = (((numberedLines text).drop s).take k).flatten) {notice : Notice}
    (hnotice : page.notice (lineCount text) = some notice) :
    ReadsFrom text range s ↔ ReadsFrom text (some notice.range) (s + k) := by
  have hsplit : ((numberedLines text).drop s).flatten =
      page.shown ++ ((numberedLines text).drop (s + k)).flatten := by
    rw [hshown, ← List.flatten_append, ← List.drop_drop, List.take_append_drop]
  constructor
  · rintro ⟨pages, hfollows, hpages⟩
    obtain ⟨rest, rfl, hrest⟩ := hfollows.of_next hread hnotice
    rw [List.map_cons, List.flatten_cons, hsplit, List.append_cancel_left_eq] at hpages
    exact ⟨rest, hrest, hpages⟩
  · rintro ⟨rest, hrest, hpages⟩
    refine ⟨page :: rest, .next hread hnotice hrest, ?_⟩
    rw [List.map_cons, List.flatten_cons, hsplit, hpages]

end

theorem readPage_of_select {text selection : List Char} {range : Option String} {first : Nat}
    (h : select text range = .ok (selection, first)) :
    readPage text range = .ok (window selection first) := by
  rw [readPage, h]
  rfl

/-- What a read numbers is some lines in a row, from the number of the first. -/
theorem select_eq {text selection : List Char} {range : Option String} {first : Nat}
    (h : select text range = .ok (selection, first)) : ∃ s n, first = s + 1 ∧
      selection = (((splitInclusive '\n' text).drop s).take n).flatten := by
  unfold select at h
  split at h
  next =>
    cases h
    exact ⟨0, (splitInclusive '\n' text).length, rfl, by
      rw [List.drop_zero, List.take_length, flatten_splitInclusive]⟩
  next =>
    dsimp only at h
    split at h
    next hslice =>
      split at h
      next => cases h
      next =>
        cases h
        obtain ⟨hfirst, n, hsliced⟩ := sliceLines_eq hslice
        exact ⟨first - 1, n, by omega, hsliced⟩
    next => cases h

section
variable {text : List Char}
  (hsmall : ∀ line ∈ numberedLines text, Text.byteLen line ≤ readWindowBytes)
include hsmall

theorem pack_numberedLines {s : Nat} (hs : s < lineCount text) :
    pack Text.byteLen readWindowBytes readWindowLines ((numberedLines text).drop s) =
      ((numberedLines text).drop s).take (taken text s) ::
        pack Text.byteLen readWindowBytes readWindowLines
          ((numberedLines text).drop (s + taken text s)) := by
  rw [pack_cons (taken_pos hsmall hs), List.drop_drop]
  rfl

theorem pack_drop_ne_nil {s : Nat} (hs : s < lineCount text) :
    pack Text.byteLen readWindowBytes readWindowLines ((numberedLines text).drop s) ≠ [] := by
  rw [pack_numberedLines hsmall hs]
  exact List.cons_ne_nil _ _

/-- From a notice on, all is shown if every page but the last is cut short of its range. -/
theorem readsFrom_iff (hfew : lineCount text < 2 ^ 64) {s : Nat} (hs : s < lineCount text) :
    ReadsFrom text (some (rangeFrom text s)) s ↔
      ∀ page ∈ (pack Text.byteLen readWindowBytes readWindowLines ((numberedLines text).drop s)).dropLast,
        page.length < readWindowLines := by
  induction hleft : lineCount text - s using Nat.strongRecOn generalizing s with
  | ind left ih =>
    have hread := readPage_from hsmall hs hfew
    have hpos := taken_pos hsmall hs
    have hle := taken_le text s
    have hlength : (((numberedLines text).drop s).take (taken text s)).length = taken text s := by
      rw [List.length_take, List.length_drop, length_numberedLines]
      omega
    rw [pack_numberedLines hsmall hs]
    by_cases hcut : taken text s < min readWindowLines (lineCount text - s)
    · -- The page is cut short, and its notice leads on.
      have hmore : s + taken text s < lineCount text := by omega
      have hrest := ih _ (by omega) hmore rfl
      have hne := pack_drop_ne_nil hsmall hmore
      rw [readsFrom_next hread rfl (if_pos hcut), List.dropLast_cons_of_ne_nil hne,
        List.forall_mem_cons, hlength]
      have hrange : s + 1 + taken text s - 1 = s + taken text s := by omega
      rw [Notice.range, hrange]
      exact hrest.trans (iff_and_self.mpr fun _ => by omega)
    · -- The page shows all of its range, and nothing leads on.
      rw [readsFrom_last hread rfl (if_neg hcut)]
      constructor
      · intro hall
        have hnone : pack Text.byteLen readWindowBytes readWindowLines
            ((numberedLines text).drop (s + taken text s)) = [] := by
          rw [List.drop_eq_nil_of_le (by rw [length_numberedLines]; exact hall), pack_nil]
        rw [hnone]
        exact nofun
      · intro hpages
        by_contra hmore
        have hne := pack_drop_ne_nil hsmall (Nat.not_le.mp hmore)
        rw [List.dropLast_cons_of_ne_nil hne, List.forall_mem_cons, hlength] at hpages
        have := hpages.1
        omega

/-- From a plain read on, all is shown if every page between the first and the last is cut short. -/
theorem readsFrom_start (hfew : lineCount text < 2 ^ 64) :
    ReadsFrom text none 0 ↔
      ∀ page ∈ (pack Text.byteLen readWindowBytes readWindowLines (numberedLines text)).tail.dropLast,
        page.length < readWindowLines := by
  have hread := readPage_none hsmall
  have hle := taken_le text 0
  by_cases hcut : taken text 0 < lineCount text
  · have hpack := pack_numberedLines hsmall (Nat.zero_lt_of_lt hcut)
    rw [List.drop_zero, Nat.zero_add] at hpack
    have hrange : 1 + taken text 0 - 1 = taken text 0 := by omega
    have hrest := readsFrom_iff hsmall hfew hcut
    rw [rangeFrom] at hrest
    rw [readsFrom_next hread rfl (if_pos hcut), hpack, List.tail_cons, Notice.range, hrange,
      Nat.zero_add]
    exact hrest
  · have hnone : (pack Text.byteLen readWindowBytes readWindowLines (numberedLines text)).tail = [] := by
      rcases Nat.eq_zero_or_pos (lineCount text) with hzero | hpos
      · rw [List.eq_nil_of_length_eq_zero ((length_numberedLines text).trans hzero), pack_nil]
        rfl
      · have hpack := pack_numberedLines hsmall hpos
        rw [List.drop_zero, Nat.zero_add] at hpack
        rw [hpack, List.tail_cons, List.drop_eq_nil_of_le (by rw [length_numberedLines]; omega), pack_nil]
    rw [readsFrom_last hread rfl (if_neg hcut), hnone]
    exact ⟨fun _ => nofun, fun _ => by omega⟩

/-- Where no line is too long, what a read leaves out is counted, and a notice says so. -/
theorem notice_of_cut {range : Option String} {selection : List Char} {first : Nat} {page : Page}
    (hselect : select text range = .ok (selection, first)) (hread : readPage text range = .ok page)
    (hcut : page.shown ≠ numberLines selection first) :
    (page.notice (lineCount text)).isSome = true := by
  obtain ⟨s, n, rfl, rfl⟩ := select_eq hselect
  have hlined : Lined '\n' (((splitInclusive '\n' text).drop s).take n) :=
    ((lined_splitInclusive text).drop s).take n
  obtain rfl : window _ (s + 1) = page :=
    Except.ok.inj ((readPage_of_select hselect).symm.trans hread)
  have hpage := window_eq hlined (s + 1) (by
    rw [numbered_slice]
    exact fun line hline => hsmall line (List.mem_of_mem_drop (List.mem_of_mem_take hline)))
  rw [hpage, numberLines_flatten hlined, Ne, flatten_take_eq_iff (lined_numbered hlined (s + 1)),
    length_numbered] at hcut
  rw [hpage, Page.notice, if_pos (Nat.not_le.mp hcut)]
  rfl

end

/-- A line that is too long, asked for alone, is cut without a notice. -/
theorem not_readsWhole_of_long {text : List Char} (hfew : lineCount text < 2 ^ 64) {line : List Char}
    (hline : line ∈ numberedLines text) (hlong : readWindowBytes < Text.byteLen line) :
    ¬ ReadsWhole text := by
  rintro ⟨hnotice, -⟩
  obtain ⟨i, hi, rfl⟩ := List.mem_mapIdx.mp hline
  rw [Nat.add_comm] at hlong
  have hone : ((splitInclusive '\n' text).drop i).take 1 = [(splitInclusive '\n' text)[i]] := by
    rw [List.drop_eq_getElem_cons hi]
    rfl
  have hlined : Lined '\n' [(splitInclusive '\n' text)[i]] :=
    hone ▸ ((lined_splitInclusive text).drop i).take 1
  have hslice := sliceLines_range text (Nat.succ_pos i) (Nat.le_refl (i + 1))
    (by rw [lineCount_eq] at hfew; omega)
  rw [Nat.sub_self] at hslice
  change _ = Except.ok ((((splitInclusive '\n' text).drop i).take 1).flatten, i + 1) at hslice
  rw [hone, List.flatten_singleton] at hslice
  have hselect : select text (some (toString (i + 1) ++ "-" ++ toString (i + 1))) =
      .ok ((splitInclusive '\n' text)[i], i + 1) := by
    unfold select
    dsimp only
    rw [hslice]
    exact if_neg fun h => hlined.ne_nil _ List.mem_cons_self h.1
  have hpage := window_long hlined hlong
  have hread := readPage_of_select hselect
  have hsome := hnotice _ _ _ _ hselect hread fun hshown => ?_
  · rw [hpage] at hsome
    cases hsome
  · have hlength := congrArg Text.byteLen hshown
    have hnumbers := numberLines_flatten hlined (i + 1)
    have hfits := byteLen_upToBoundary (linePrefix (i + 1) ++ (splitInclusive '\n' text)[i]) readWindowBytes
    rw [List.flatten_singleton] at hnumbers
    rw [hpage, hnumbers] at hlength
    change Text.byteLen (upToBoundary _ _) =
      Text.byteLen [linePrefix (i + 1) ++ (splitInclusive '\n' text)[i]].flatten at hlength
    rw [List.flatten_singleton] at hlength
    omega

/-! ## Reading whole files -/

theorem length_le_byteLen {ls : List (List Char)} (hne : ∀ l ∈ ls, l ≠ []) :
    ls.length ≤ Text.byteLen ls.flatten := by
  induction ls with
  | nil => exact Nat.le_refl 0
  | cons l ls ih =>
    obtain ⟨hl, hls⟩ := List.forall_mem_cons.mp hne
    obtain ⟨c, rest, rfl⟩ := List.exists_cons_of_ne_nil hl
    have hrest := ih hls
    have hc := c.utf8Size_pos
    have hfirst : Text.byteLen (c :: rest) = c.utf8Size + Text.byteLen rest := rfl
    rw [List.length_cons, List.flatten_cons, byteLen_append, hfirst]
    omega

/-- A text of the read cap has fewer lines than a range can name. -/
theorem lineCount_lt {text : List Char} (hcap : Text.byteLen text ≤ maxReadBytes) :
    lineCount text < 2 ^ 64 := by
  have hne : ∀ line ∈ splitInclusive '\n' text, line ≠ [] := (lined_splitInclusive text).ne_nil
  have hlines := length_le_byteLen hne
  rw [← lineCount_eq, flatten_splitInclusive] at hlines
  have : maxReadBytes = 4194304 := rfl
  omega

/-- What `read` hands over of a text file within the cap is the page, with its notice in the body, and
its reads leave nothing out in silence and show it all just where its lines lay out on such pages. -/
theorem reads_whole_iff {text : List Char} (hcap : Text.byteLen text ≤ maxReadBytes) :
    (∀ contextTokens args, read contextTokens args (some (.ok (fileOf text))) =
      match readPage text ((args.get "range").bind ArgValue.asText) with
      | .ok page => page.outcome contextTokens text false
      | .error why => failed "read" why) ∧
    (ReadsWhole text ↔ PagesThrough text) := by
  have hfew := lineCount_lt hcap
  refine ⟨fun contextTokens args => ?_, fun hwhole => ?_, fun ⟨hsmall, hpages⟩ => ?_⟩
  · unfold read
    dsimp only
    rewrite [cloneAndRead_text hcap]
    rfl
  · have hsmall : ∀ line ∈ numberedLines text, Text.byteLen line ≤ readWindowBytes := fun line hline =>
      Nat.not_lt.mp fun hlong => not_readsWhole_of_long hfew hline hlong hwhole
    exact ⟨hsmall, (readsFrom_start hsmall hfew).mp hwhole.2⟩
  · exact ⟨fun _ _ _ _ => notice_of_cut hsmall, (readsFrom_start hsmall hfew).mpr hpages⟩

/-- Two lines are read in one page. -/
theorem two_lines_read : ReadsWhole "a\nb\n".toList :=
  (reads_whole_iff (by decide +kernel)).2.mpr (by decide +kernel)

theorem byteLen_replicate (n : Nat) : Text.byteLen (List.replicate n 'a') = n := by
  induction n with
  | zero => rfl
  | succ n ih =>
    rw [List.replicate_succ]
    show 1 + Text.byteLen _ = n + 1
    omega

/-- A line of the size of a window, which its number makes longer, is cut without a notice. -/
theorem long_line_cut : ¬ ∀ text, Text.byteLen text ≤ maxReadBytes → ReadsWhole text := by
  intro h
  have hlength : Text.byteLen (List.replicate readWindowBytes 'a') = readWindowBytes :=
    byteLen_replicate _
  have hline : splitInclusive '\n' (List.replicate readWindowBytes 'a') =
      [List.replicate readWindowBytes 'a'] :=
    splitInclusive_last (List.ne_nil_of_length_pos (by rw [List.length_replicate]; decide))
      fun hmem => absurd (List.eq_of_mem_replicate hmem) (by decide)
  have hcap : Text.byteLen (List.replicate readWindowBytes 'a') ≤ maxReadBytes := by
    rw [hlength]
    decide
  have hmem : linePrefix 1 ++ List.replicate readWindowBytes 'a' ∈
      numberedLines (List.replicate readWindowBytes 'a') := by
    rw [numberedLines, hline]
    exact List.mem_singleton_self _
  refine not_readsWhole_of_long (lineCount_lt hcap) hmem ?_ (h _ hcap)
  rw [byteLen_append, hlength]
  exact Nat.lt_add_of_pos_left (by decide)

end MarloweAgent.Exec
