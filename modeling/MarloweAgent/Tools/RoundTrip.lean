import MarloweAgent.Tools.Writing

/-! What is lost when a written line is cut short. Nothing that reads the front matter makes a `#` of its own,
short of the `u` of a `\u` escape, so a map that is read weighs no more in these two characters than the
lines it is read from: a comment found in a written line is missing from the result. -/

namespace MarloweAgent.Tools.FrontMatter
open Contract Library

/-- The hashes in a text, and the `u`s that may stand for one. -/
def weight (s : List Char) : Nat := s.countP fun c => c == '#' || c == 'u'

theorem weight_append (s t : List Char) : weight (s ++ t) = weight s + weight t := List.countP_append

theorem weight_cons_le (c : Char) (s : List Char) : weight s ≤ weight (c :: s) := by
  rw [weight, weight, List.countP_cons]
  exact Nat.le_add_right _ _

theorem weight_le_of_sublist {s t : List Char} (h : s.Sublist t) : weight s ≤ weight t := h.countP_le

theorem weight_trim_le (s : List Char) : weight (trim s) ≤ weight s :=
  weight_le_of_sublist ((List.rdropWhile_prefix _ _).sublist.trans (List.dropWhile_sublist _))

theorem weight_hash (s t : List Char) : weight s < weight (s ++ '#' :: t) := by
  rw [weight_append]
  have hcons : weight ('#' :: t) = weight t + 1 := List.countP_cons_of_pos rfl
  omega

/-! ## Scalars -/

/-- An escape is one character, and only a `\u` can make it a hash. -/
theorem weight_unescapeFrom {no skip : Nat} {s x : List Char} (h : unescapeFrom no skip s = .ok x) :
    weight x ≤ weight (s.drop skip) := by
  induction hn : s.length using Nat.strong_induction_on generalizing skip s x with
  | _ n ih =>
    cases s with
    | nil =>
      cases h
      exact Nat.zero_le _
    | cons c rest =>
      have hlen : rest.length < n := by simp [← hn]
      cases skip with
      | succ skip =>
        have hrest : unescapeFrom no skip rest = .ok x := h
        have hle := ih rest.length hlen hrest rfl
        exact hle
      | zero =>
        by_cases hc : c = '\\'
        · subst hc
          obtain ⟨hex, c, rfl, hu⟩ | ⟨e, after, c, rfl, he, hlook⟩ := escape_cases h
          · rw [unescapeFrom_unicode, hu] at h
            obtain ⟨y, hy, rfl⟩ := map_eq_ok h
            have hle := ih hex.length (by simp at hlen; omega) hy rfl
            have hdrop : weight (hex.drop 4) ≤ weight hex := weight_le_of_sublist (List.drop_sublist _ _)
            have hu : weight ('\\' :: 'u' :: hex) = weight hex + 1 := by simp [weight]
            have hc : weight (c :: y) ≤ weight y + 1 := by
              rw [weight, weight, List.countP_cons]
              split <;> omega
            rw [List.drop_zero]
            omega
          · rw [unescapeFrom_escape he hlook] at h
            obtain ⟨y, hy, rfl⟩ := map_eq_ok h
            have hle := ih after.length (by simp at hlen; omega) hy rfl
            have htable : ∀ d ∈ escapes, (d.2 == '#' || d.2 == 'u') = false := by decide
            obtain ⟨l, r, hl, -⟩ := List.lookup_eq_some_iff.mp hlook
            have hc := htable (e, c) (by rw [hl]; simp)
            have hcons : weight (c :: y) = weight y := List.countP_cons_of_neg (by simp [hc])
            have hafter := (weight_cons_le e after).trans (weight_cons_le '\\' (e :: after))
            rw [List.drop_zero] at hle ⊢
            omega
        · rw [unescapeFrom, if_pos hc] at h
          obtain ⟨y, hy, rfl⟩ := map_eq_ok h
          have hle := ih rest.length hlen hy rfl
          rw [List.drop_zero] at hle ⊢
          rw [weight, weight, List.countP_cons, List.countP_cons]
          exact Nat.add_le_add_right hle _

theorem weight_scalar {s : List Char} {no : Nat} {x : String} (h : scalar s no = .ok x) :
    weight x.toList ≤ weight s := by
  cases s with
  | nil =>
    cases h
    exact Nat.zero_le _
  | cons c rest =>
    by_cases hd : c = '"'
    · subst hd
      obtain ⟨body, rfl, hb⟩ := scalar_double_ok h
      obtain ⟨y, hy, rfl⟩ := map_eq_ok hb
      have hle := weight_unescapeFrom hy
      rw [List.drop_zero] at hle
      rw [String.toList_ofList]
      exact hle.trans (weight_le_of_sublist ((List.sublist_append_left _ _).trans (List.sublist_cons_self _ _)))
    · by_cases hq : c = '\''
      · subst hq
        obtain ⟨body, rfl, rfl⟩ := scalar_single_ok h
        rw [String.toList_ofList, weight, Text.replace, countP_replaceFrom rfl, List.drop_zero]
        exact weight_le_of_sublist ((List.sublist_append_left _ _).trans (List.sublist_cons_self _ _))
      · rw [scalar_plain_ok h hd hq, String.toList_ofList]

def weights (items : List String) : Nat := (items.map fun s => weight s.toList).sum

theorem weights_append (a b : List String) : weights (a ++ b) = weights a + weights b := by
  rw [weights, List.map_append, List.sum_append]
  rfl

theorem weight_flowFrom {no : Nat} {out items : List String} {item s : List Char} {quote : Option Char}
    (h : flowFrom no out item quote s = .ok items) : weights items ≤ weights out + weight item + weight s := by
  have hlast : ∀ {item : List Char} {x : String}, scalar (trim item) no = .ok x → weights [x] ≤ weight item := by
    intro item x hx
    have hle := (weight_scalar hx).trans (weight_trim_le item)
    simpa [weights] using hle
  have hpush : ∀ (item : List Char) (c : Char) (rest : List Char),
      weight (item ++ [c]) + weight rest = weight item + weight (c :: rest) := by
    intro item c rest
    rw [weight_append, Nat.add_assoc, ← weight_append]
    rfl
  induction s generalizing out item quote with
  | nil =>
    cases quote with
    | some q => cases h
    | none =>
      rw [flowFrom] at h
      split at h
      next =>
        cases h
        omega
      next =>
        obtain ⟨x, hx, rfl⟩ := map_eq_ok h
        have hle := hlast hx
        rw [weights_append]
        omega
  | cons c rest ih =>
    cases quote with
    | some q =>
      have hle := ih h
      have hp := hpush item c rest
      omega
    | none =>
      rw [flowFrom] at h
      have hp := hpush item c rest
      split at h
      next =>
        have hle := ih h
        omega
      next =>
        split at h
        next hc =>
          obtain ⟨x, hx, hrest⟩ := bind_eq_ok h
          have hle := ih hrest
          have hl := hlast hx
          have hcons := weight_cons_le c rest
          rw [weights_append, show weight [] = 0 from rfl] at hle
          omega
        next =>
          split at h
          next => cases h
          next =>
            have hle := ih h
            omega

/-! ## Lines and blocks -/

/-- What a value weighs. A block below weighs nothing here: the maps that are written have none. -/
def Value.weight : Value → Nat
  | .scalar s => FrontMatter.weight s.toList
  | .seq items => weights items
  | .map _ => 0

def blockWeight (m : Block) : Nat := (m.bindings.map fun e => weight e.1.toList + e.2.weight).sum

def lineWeight (lines : List Line) : Nat := (lines.map fun line => weight line.content).sum

theorem weight_parseInline {s : List Char} {no : Nat} {v : Value} (h : parseInline s no = .ok v) :
    v.weight ≤ weight s := by
  cases s with
  | nil => cases h; exact Nat.zero_le _
  | cons c rest =>
    by_cases hb : c = '['
    · subst hb
      obtain ⟨items, hitems, rfl⟩ := map_eq_ok h
      obtain ⟨inner, rfl, hinner⟩ := parseFlowSeq_ok hitems
      have hle := weight_flowFrom hinner
      have hsub : weight inner ≤ weight ('[' :: (inner ++ [']'])) :=
        weight_le_of_sublist ((List.sublist_append_left _ _).trans (List.sublist_cons_self _ _))
      have hnil : weights [] + weight [] = 0 := rfl
      show weights items ≤ _
      omega
    · obtain ⟨x, hx, rfl⟩ := parseInline_scalar_ok h hb
      exact weight_scalar hx

theorem weight_cutKey {s before after : List Char} (h : cutKey s = some (before, after)) :
    weight before + weight after ≤ weight s := by
  induction s generalizing before with
  | nil => cases h
  | cons c rest ih =>
    rw [cutKey] at h
    split at h
    next =>
      obtain ⟨rfl, rfl⟩ : [] = before ∧ rest = after := by simpa using h
      have hcons := weight_cons_le c rest
      have hnil : weight [] = 0 := rfl
      omega
    next =>
      obtain ⟨⟨before', after'⟩, hrest, heq⟩ := Option.map_eq_some_iff.mp h
      cases heq
      have hle := ih hrest
      have hc : ∀ t, weight (c :: t) = weight [c] + weight t := fun t => weight_append [c] t
      rw [hc before', hc rest]
      omega

theorem weight_splitKey {content value : List Char} {no : Nat} {key : String}
    (h : splitKey content no = .ok (key, value)) : weight key.toList + weight value ≤ weight content := by
  obtain ⟨before, after, hcut, rfl, rfl, -⟩ := splitKey_ok h
  rw [String.toList_ofList]
  exact (Nat.add_le_add (weight_trim_le before) (weight_trim_le after)).trans (weight_cutKey hcut)

theorem lineWeight_cons (line : Line) (rest : List Line) :
    lineWeight (line :: rest) = weight line.content + lineWeight rest := rfl

theorem weight_parseBlockSeq {indent : Nat} {lines after : List Line} {items : List String}
    (h : parseBlockSeq indent lines = .ok (items, after)) : weights items + lineWeight after ≤ lineWeight lines := by
  induction lines generalizing items with
  | nil =>
    cases h
    exact Nat.le_refl _
  | cons line rest ih =>
    cases parseBlockSeq_cons_iff.mp h with
    | back _ hitems hafter =>
      subst hitems hafter
      exact (Nat.zero_add _).le
    | @item item s more _ hitem _ _ hs hrest hitems =>
      subst hitems
      have hle := ih hrest
      have hline : weight s.toList ≤ weight line.content := by
        refine (weight_scalar hs).trans ((weight_trim_le item).trans (weight_le_of_sublist ?_))
        rw [Text.stripPrefix_eq_some hitem]
        exact List.sublist_append_right _ _
      rw [lineWeight_cons]
      show weight s.toList + weights more + _ ≤ _
      omega

theorem weight_reads {block : Nat → List Line → Parse (Block × List Line)} {indent no : Nat} {value : List Char}
    {rest after : List Line} {v : Value} (h : Reads block indent no value rest v after)
    (hblock : ∀ child b, block child rest = .ok (b, after) → lineWeight after ≤ lineWeight rest) :
    v.weight + lineWeight after ≤ weight value + lineWeight rest := by
  cases h with
  | inline _ hv => exact Nat.add_le_add_right (weight_parseInline hv) _
  | nothing _ => exact Nat.add_le_add_right (Nat.zero_le _) _
  | items _ hseq => exact (weight_parseBlockSeq hseq).trans (Nat.le_add_left _ _)
  | block _ hb => exact Nat.add_le_add (Nat.zero_le _) (hblock _ _ hb)

theorem blockWeight_insert {m : Block} {key : String} (h : m.get? key = none) (v : Value) :
    blockWeight (m.insert key v) = weight key.toList + v.weight + blockWeight m := by
  obtain ⟨bindings, hsorted⟩ := m
  change OrderedMap.lookupIn key bindings = none at h
  show ((OrderedMap.insertIn key v bindings).map _).sum = _ + (bindings.map _).sum
  clear hsorted
  induction bindings with
  | nil => rfl
  | cons e rest ih =>
    obtain ⟨k, w⟩ := e
    rw [OrderedMap.lookupIn] at h
    split at h
    next => cases h
    next hne =>
      rw [OrderedMap.insertIn]
      split
      next => rfl
      next =>
        rw [List.map_cons, List.sum_cons, ih h, List.map_cons, List.sum_cons]
        omega

/-- A block that is read weighs no more than the lines it is read from. -/
theorem weight_parseMap {fuel indent : Nat} {out m : Block} {lines after : List Line}
    (h : parseMap fuel indent out lines = .ok (m, after)) :
    blockWeight m + lineWeight after ≤ blockWeight out + lineWeight lines := by
  induction fuel generalizing indent out m lines after with
  | zero =>
    cases h
    exact Nat.le_refl _
  | succ fuel ih =>
    cases lines with
    | nil =>
      cases h
      exact Nat.le_refl _
    | cons line rest =>
      cases parseMap_cons_iff.mp h with
      | back _ hm hafter =>
        subst hm hafter
        exact Nat.le_refl _
      | entry _ _ hkey hfresh hv hrest =>
        have hle := ih hrest
        have hsplit := weight_splitKey hkey
        have hval := weight_reads hv fun child b hb =>
          (Nat.le_add_left _ _).trans ((ih hb).trans (Nat.zero_add _).le)
        rw [blockWeight_insert hfresh] at hle
        rw [lineWeight_cons]
        omega

theorem weight_scanned_le (raw : List Char) : weight (scanned raw) ≤ weight raw :=
  weight_le_of_sublist ((List.dropWhile_sublist _).trans (List.rdropWhile_prefix _ _).sublist)

/-- A line gives no more than it weighs, and less when a comment is found in it. -/
theorem weight_readLine {no : Nat} {raw : List Char} {line : Option Line} (h : readLine no raw = .ok line) :
    lineWeight line.toList ≤ weight raw ∧ (opensComment raw = true → lineWeight line.toList < weight raw) := by
  have hline : lineWeight line.toList ≤ weight (stripComment (scanned raw)) := by
    have hnone : lineWeight (none : Option Line).toList ≤ weight (stripComment (scanned raw)) := Nat.zero_le _
    unfold readLine at h
    split at h
    next =>
      cases h
      exact hnone
    next =>
      split at h
      next => cases h
      next =>
        split at h
        next =>
          cases h
          exact hnone
        next =>
          split at h
          next => cases h
          next =>
            cases h
            exact weight_le_of_sublist (List.rdropWhile_prefix _ _).sublist
  have hle := weight_scanned_le raw
  cases hscan : scan (scanned raw) with
  | none =>
    obtain ⟨kept, cut, heq, hself, -⟩ := stripComment_of_scan_none hscan
    have hlt := weight_hash kept cut
    rw [hself] at hline
    rw [heq] at hle
    exact ⟨by omega, fun _ => by omega⟩
  | some ends =>
    rw [stripComment_of_scan_some hscan] at hline
    refine ⟨hline.trans hle, fun hopen => ?_⟩
    rw [opensComment, hscan] at hopen
    cases hopen

theorem weight_readLines {no : Nat} {raws : List (List Char)} {lines : List Line} (h : readLines no raws = .ok lines) :
    lineWeight lines ≤ (raws.map weight).sum ∧
      ((∃ raw ∈ raws, opensComment raw = true) → lineWeight lines < (raws.map weight).sum) := by
  induction raws generalizing no lines with
  | nil =>
    cases h
    exact ⟨Nat.le_refl _, fun ⟨_, hraw, _⟩ => (by cases hraw)⟩
  | cons raw rest ih =>
    obtain ⟨line, hline, h⟩ := bind_eq_ok h
    obtain ⟨lines', hlines, heq⟩ := bind_eq_ok h
    cases heq
    obtain ⟨hle, hlt⟩ := weight_readLine hline
    obtain ⟨hrest, hrestlt⟩ := ih hlines
    have hsum : lineWeight (line.toList ++ lines') = lineWeight line.toList + lineWeight lines' := by
      rw [lineWeight, List.map_append, List.sum_append]
      rfl
    rw [hsum, List.map_cons, List.sum_cons]
    refine ⟨Nat.add_le_add hle hrest, ?_⟩
    rintro ⟨cut, hmem, hcut⟩
    rcases List.mem_cons.mp hmem with rfl | hmem
    · exact Nat.add_lt_add_of_lt_of_le (hlt hcut) hrest
    · exact Nat.add_lt_add_of_le_of_lt hle (hrestlt ⟨cut, hmem, hcut⟩)

/-! ## What the written lines weigh -/

theorem weight_escape (s : List Char) : weight (escape s) = weight s := by
  induction s with
  | nil => rfl
  | cons c rest ih =>
    show weight (escapeChar c ++ escape rest) = weight ([c] ++ rest)
    rw [weight_append, weight_append, ih]
    obtain ⟨e, he, -, hmem, -⟩ | ⟨he, -⟩ := escapeChar_cases c
    · have htable : ∀ d ∈ escapes, weight ['\\', d.1] = weight [d.2] := by decide
      rw [he, htable (e, c) hmem]
    · rw [he]

theorem weight_quoted (s : String) : weight (quoted s) = weight s.toList := by
  show weight (['"'] ++ (escape s.toList ++ ['"'])) = _
  rw [weight_append, weight_append, weight_escape]
  exact Nat.zero_add _

theorem weight_indented (line : Nat × List Char) : weight (indented line) = weight line.2 := by
  rw [indented, weight_append]
  have hblank : weight (List.replicate line.1 ' ') = 0 :=
    List.countP_eq_zero.mpr fun c hc => by rw [List.eq_of_mem_replicate hc]; decide
  omega

theorem weight_entryLines (key : String) (v : Flat) :
    ((entryLines key v).map fun line => weight line.2).sum = weight key.toList + v.value.weight := by
  have hkey : ∀ rest, weight (key.toList ++ ':' :: rest) = weight key.toList + weight rest := fun rest => by
    rw [weight_append]
    rfl
  have hitems : ∀ items : List String,
      ((items.map fun s => ((2, '-' :: ' ' :: quoted s) : Nat × List Char)).map fun line => weight line.2).sum =
        weights items := by
    intro items
    rw [List.map_map, weights]
    refine congrArg List.sum (List.map_congr_left fun s _ => ?_)
    exact weight_quoted s
  cases v with
  | scalar s =>
    show weight (key.toList ++ ':' :: ' ' :: quoted s) + 0 = _ + weight s.toList
    have hvalue : weight (' ' :: quoted s) = weight s.toList := weight_quoted s
    rw [hkey, Nat.add_zero, hvalue]
  | seq items =>
    cases items with
    | nil => exact hkey _
    | cons s items =>
      show weight (key.toList ++ ':' :: []) + _ = _ + weights (s :: items)
      rw [hkey, ← hitems (s :: items)]
      rfl

theorem weight_written (m : FlatMap) :
    ((m.lines.map indented ++ [[]]).map weight).sum = blockWeight m.block := by
  rw [List.map_append, List.sum_append, List.map_map]
  show (m.lines.map fun line => weight (indented line)).sum + 0 = _
  rw [Nat.add_zero, blockWeight, FlatMap.lines, FlatMap.block]
  dsimp only
  induction m.entries.bindings with
  | nil => rfl
  | cons e rest ih =>
    have hentry := weight_entryLines e.1 e.2
    rw [List.flatMap_cons, List.map_append, List.sum_append, ih, List.map_cons, List.map_cons, List.sum_cons,
      ← hentry]
    refine congrArg (· + _) (congrArg List.sum (List.map_congr_left fun line _ => weight_indented line))

theorem mem_numbered {lines : List (Nat × List Char)} {line : Nat × List Char} (h : line ∈ lines) (no : Nat) :
    ∃ n, { no := n, indent := line.1, content := line.2 : Line } ∈ numbered no lines := by
  induction lines generalizing no with
  | nil => cases h
  | cons l rest ih =>
    rcases List.mem_cons.mp h with rfl | h
    · exact ⟨no, List.mem_cons_self⟩
    · obtain ⟨n, hn⟩ := ih h (no + 1)
      exact ⟨n, List.mem_cons_of_mem _ hn⟩

/-! ## The round trip -/

/-- A map is read back from what is written for it if and only if no comment is found in a written line
and no item of a list holds a pair. -/
theorem parse_written_iff (m : FlatMap) : parse m.written = .ok m.block ↔ m.ReadsBack := by
  refine ⟨fun h => ?_, FlatMap.ReadsBack.parse_written⟩
  obtain ⟨lines, hlines, hblock⟩ := parse_ok h
  rw [m.splitOn_written] at hlines
  have huncut : ∀ line ∈ m.lines, opensComment (indented line) = false := by
    intro line hline
    refine Bool.eq_false_iff.mpr fun hcut => ?_
    have hlt := (weight_readLines hlines).2
      ⟨indented line, List.mem_append_left _ (List.mem_map_of_mem hline), hcut⟩
    have hle := weight_parseMap hblock
    have hempty : blockWeight OrderedMap.empty = 0 := rfl
    rw [weight_written] at hlt
    omega
  refine ⟨huncut, fun e he => ?_⟩
  rw [readLines_indented m.solid huncut] at hlines
  cases hlines
  obtain ⟨used, hused, hpair⟩ := noPair_of_parseMap hblock
  rw [List.append_nil] at hused
  subst hused
  obtain ⟨key, v⟩ := e
  cases v with
  | scalar s => exact trivial
  | seq items =>
    intro s hs
    have hline : (2, '-' :: ' ' :: quoted s) ∈ m.lines := by
      refine List.mem_flatMap.mpr ⟨_, he, ?_⟩
      cases items with
      | nil => cases hs
      | cons t items => exact List.mem_cons_of_mem _ (List.mem_map_of_mem hs)
    obtain ⟨n, hn⟩ := mem_numbered hline 1
    have hstrip := hpair _ hn (quoted s) (by simp [Text.stripPrefix])
    rwa [(Solid.quoted s).trim_eq, hasColonBlank_quoted] at hstrip

/-- A front matter means what it says where no quote is left open: in it, a comment behind a complete
`key: value` line is ignored if and only if no quote is open where that line ends; and a map is read
back from what is written for it if and only if no comment is found in a written line and no item of
a list holds a pair. -/
theorem meansWhatItSays_iff {front : String} {before after : List (List Char)} {raw text : List Char} {m : Block}
    (hfront : front.toList.splitOn '\n' = before ++ raw :: after) (hentry : isEntry raw = true)
    (htext : '\n' ∉ text) (hm : parse front = .ok m) (flat : FlatMap) :
    (parse (joined (before ++ commented raw text :: after)) = .ok m ↔ leavesQuoteOpen raw = false) ∧
      (parse flat.written = .ok flat.block ↔ flat.ReadsBack) :=
  ⟨parse_commented_iff hfront hentry htext hm, parse_written_iff flat⟩

/-- One scalar under one key. -/
def single (key s : String) (h : PlainKey key.toList) : FlatMap where
  entries := ⟨[(key, .scalar s)], List.pairwise_singleton _ _⟩
  plain := by
    intro k hk
    rw [List.mem_singleton.mp hk]
    exact h

theorem plain_name : PlainKey "name".toList :=
  { trimmed := by decide, nonempty := by decide, line := by decide, colon := by decide, item := by decide,
    plain := by simp }

theorem exists_of_isSome {α : Type} {x : Parse α} (h : x.toOption.isSome = true) : ∃ a, x = .ok a := by
  cases x with
  | error e => cases h
  | ok a => exact ⟨a, rfl⟩

theorem quoted_name_commented :
    ∃ m, parse "name: \"it's\"" = .ok m ∧
      parse (joined [commented "name: \"it's\"".toList "c".toList]) = .ok m ∧
      parse (single "name" "it's" plain_name).written = .ok (single "name" "it's" plain_name).block := by
  have hok : (parse "name: \"it's\"").toOption.isSome = true := by decide +kernel
  have hlines : "name: \"it's\"".toList.splitOn '\n' = [] ++ "name: \"it's\"".toList :: [] := by decide +kernel
  have htext : '\n' ∉ "c".toList := by decide
  obtain ⟨m, hm⟩ := exists_of_isSome hok
  have h := meansWhatItSays_iff hlines (by decide +kernel) htext hm (single "name" "it's" plain_name)
  refine ⟨m, hm, h.1.mpr (by decide +kernel), h.2.mpr ⟨by decide +kernel, ?_⟩⟩
  intro e he
  rw [List.mem_singleton.mp he]
  exact trivial

/-- The apostrophe of a plain scalar keeps the comment, and an escaped quote lets one begin. -/
theorem apostrophe_keeps_comment :
    (∃ m, parse "name: it's" = .ok m ∧ isEntry "name: it's".toList = true ∧
      parse (joined [commented "name: it's".toList "c".toList]) ≠ .ok m) ∧
      parse (single "name" "a\" # b" plain_name).written ≠ .ok (single "name" "a\" # b" plain_name).block := by
  have hok : (parse "name: it's").toOption.isSome = true := by decide +kernel
  have hvalue : ((parse "name: it's").toOption.bind (·.get? "name")).bind Value.asScalar = some "it's" := by
    decide +kernel
  have hvalue' : ((parse (joined [commented "name: it's".toList "c".toList])).toOption.bind (·.get? "name")).bind
      Value.asScalar = some "it's # c" := by
    decide +kernel
  have hfails : (parse (single "name" "a\" # b" plain_name).written).toOption.isSome = false := by decide +kernel
  obtain ⟨m, hm⟩ := exists_of_isSome hok
  refine ⟨⟨m, hm, by decide +kernel, fun hm' => ?_⟩, fun hm' => ?_⟩
  · rw [hm', ← hm, hvalue] at hvalue'
    revert hvalue'
    decide
  · rw [hm'] at hfails
    cases hfails

end MarloweAgent.Tools.FrontMatter
