import MarloweAgent.Tools.Commenting

/-! Front matter written for a map of scalars and lists of scalars, in the block form and with every scalar in
double quotes. Where no comment is found in a written line and no item of a list holds a colon and a
blank, it is read back as the map it was written for. -/

namespace MarloweAgent.Tools.FrontMatter
open Contract Library

/-! ## The writer -/

/-- The letter a character is escaped with. The slash has one too, but needs none. -/
def escapeOf (c : Char) : Option Char := (escapes.find? fun e => e.2 = c ∧ e.1 ≠ '/').map Prod.fst

def escapeChar (c : Char) : List Char :=
  match escapeOf c with
  | some e => ['\\', e]
  | none => [c]

def escape (s : List Char) : List Char := s.flatMap escapeChar

def quoted (s : String) : List Char := '"' :: (escape s.toList ++ ['"'])

/-- A value without blocks. -/
inductive Flat
  | scalar (s : String)
  | seq (items : List String)

def Flat.value : Flat → Value
  | .scalar s => .scalar s
  | .seq items => .seq items

/-- A key that needs no quotes: it begins and ends with a character that shows, it is one line, and
nothing in it ends a key, makes an item of the line or is left to the quoted or the refused forms. -/
structure PlainKey (key : List Char) : Prop where
  trimmed : trim key = key
  nonempty : key ≠ []
  line : '\n' ∉ key
  colon : hasColonBlank key = false
  item : "- ".toList.isPrefixOf key = false
  plain : ∀ c ∈ key.head?, c ∉ ['"', '\'', '&', '*']

/-- A map of scalars and lists of scalars. -/
structure FlatMap where
  entries : OrderedMap String Flat
  plain : ∀ key ∈ entries.keys, PlainKey key.toList

/-- What `parse` is to give back. -/
def FlatMap.block (m : FlatMap) : Block :=
  ⟨m.entries.bindings.map fun entry => (entry.1, entry.2.value),
    List.pairwise_map.mpr m.entries.sorted⟩

/-- The lines of an entry, each with the blanks before it. A list without items has no block form. -/
def entryLines (key : String) : Flat → List (Nat × List Char)
  | .scalar s => [(0, key.toList ++ ':' :: ' ' :: quoted s)]
  | .seq [] => [(0, key.toList ++ ':' :: ' ' :: "[]".toList)]
  | .seq (s :: items) =>
    (0, key.toList ++ [':']) :: (s :: items).map fun s => (2, '-' :: ' ' :: quoted s)

def FlatMap.lines (m : FlatMap) : List (Nat × List Char) :=
  m.entries.bindings.flatMap fun entry => entryLines entry.1 entry.2

def indented (line : Nat × List Char) : List Char := List.replicate line.1 ' ' ++ line.2

/-- The front matter written for the map: each of its lines, with a newline behind it. -/
def FlatMap.written (m : FlatMap) : String := joined (m.lines.map indented ++ [[]])

/-! ## Escapes -/

theorem escapeChar_cases (c : Char) :
    (∃ e, escapeChar c = ['\\', e] ∧ e ≠ 'u' ∧ (e, c) ∈ escapes ∧ escapes.lookup e = some c) ∨
      (escapeChar c = [c] ∧ ∀ e, (e, c) ∈ escapes → e = '/') := by
  have htable : ∀ e ∈ escapes, e.1 ≠ 'u' ∧ escapes.lookup e.1 = some e.2 := by decide
  unfold escapeChar escapeOf
  cases h : escapes.find? fun e => e.2 = c ∧ e.1 ≠ '/' with
  | some e =>
    have hmem := List.mem_of_find?_eq_some h
    obtain ⟨rfl, -⟩ : e.2 = c ∧ e.1 ≠ '/' := by simpa using List.find?_some h
    exact .inl ⟨e.1, rfl, (htable e hmem).1, hmem, (htable e hmem).2⟩
  | none =>
    refine .inr ⟨rfl, fun e he => ?_⟩
    have hnone := List.find?_eq_none.mp h (e, c) he
    simpa using hnone

/-- What is escaped is unescaped as it was. -/
theorem unescapeFrom_escape_all (no : Nat) (s : List Char) : unescapeFrom no 0 (escape s) = .ok s := by
  induction s with
  | nil => rfl
  | cons c rest ih =>
    rw [escape, List.flatMap_cons]
    change unescapeFrom no 0 (escapeChar c ++ escape rest) = _
    obtain ⟨e, he, hu, -, hlook⟩ | ⟨he, hplain⟩ := escapeChar_cases c
    · rw [he, List.cons_append, List.singleton_append, unescapeFrom_escape hu hlook, ih]
      rfl
    · have hc : c ≠ '\\' := by
        rintro rfl
        exact absurd (hplain '\\' (by decide)) (by decide)
      rw [he, List.singleton_append, unescapeFrom, if_pos hc, ih]
      rfl

theorem mem_escape {s : List Char} {d : Char} (h : d ∈ escape s) :
    d ∈ s ∧ (∀ e, (e, d) ∈ escapes → e = '/') ∨ d = '\\' ∨ ∃ c, (d, c) ∈ escapes := by
  obtain ⟨c, hc, hd⟩ := List.mem_flatMap.mp h
  obtain ⟨e, he, -, hmem, -⟩ | ⟨he, hplain⟩ := escapeChar_cases c
  · rw [he] at hd
    rcases List.mem_cons.mp hd with rfl | hd
    · exact .inr (.inl rfl)
    · rw [List.mem_singleton.mp hd]
      exact .inr (.inr ⟨c, hmem⟩)
  · rw [he] at hd
    rw [List.mem_singleton.mp hd]
    exact .inl ⟨hc, hplain⟩

/-- What is written is one line. -/
theorem newline_not_mem_escape (s : List Char) : '\n' ∉ escape s := by
  intro h
  rcases mem_escape h with ⟨-, hplain⟩ | heq | ⟨c, hc⟩
  · exact absurd (hplain 'n' (by decide)) (by decide)
  · cases heq
  · revert hc
    simp [escapes]

/-! ## Colons -/

theorem hasColonBlank_cons (c : Char) (rest : List Char) :
    hasColonBlank (c :: rest) = (decide (c = ':' ∧ rest.head? = some ' ') || hasColonBlank rest) := by
  by_cases h : c = ':' ∧ rest.head? = some ' '
  · obtain ⟨rfl, hhead⟩ := h
    cases rest with
    | nil => cases hhead
    | cons d rest =>
      cases hhead
      rfl
  · rw [decide_eq_false h, Bool.false_or]
    refine hasColonBlank.eq_2 c rest fun rest' hc hr => h ⟨hc, ?_⟩
    rw [hr]
    rfl

theorem head?_escapeChar (c : Char) (rest : List Char) :
    (escapeChar c ++ rest).head? = some ' ' ↔ c = ' ' := by
  obtain ⟨e, he, -, hmem, -⟩ | ⟨he, -⟩ := escapeChar_cases c
  · rw [he]
    refine ⟨fun h => (by cases h), ?_⟩
    rintro rfl
    revert hmem
    simp [escapes]
  · rw [he]
    exact Option.some_inj

/-- A scalar holds a colon and a blank when what is written for it does. -/
theorem hasColonBlank_escape (s : List Char) (t : List Char) (ht : t.head? ≠ some ' ') :
    hasColonBlank (escape s ++ t) = (hasColonBlank s || hasColonBlank t) := by
  induction s with
  | nil => rfl
  | cons c rest ih =>
    have hhead : (escape rest ++ t).head? = some ' ' ↔ rest.head? = some ' ' := by
      cases rest with
      | nil => exact ⟨fun h => absurd h ht, fun h => (by cases h)⟩
      | cons d rest =>
        show ((escapeChar d ++ escape rest) ++ t).head? = _ ↔ _
        rw [List.append_assoc, head?_escapeChar]
        exact Option.some_inj.symm
    show hasColonBlank ((escapeChar c ++ escape rest) ++ t) = _
    rw [List.append_assoc, hasColonBlank_cons]
    obtain ⟨e, he, -, hmem, -⟩ | ⟨he, -⟩ := escapeChar_cases c
    · have hplain : e ≠ ':' ∧ c ≠ ':' := by
        revert hmem
        simp only [escapes, List.mem_cons, Prod.mk.injEq, List.not_mem_nil, or_false]
        rintro (⟨rfl, rfl⟩ | ⟨rfl, rfl⟩ | ⟨rfl, rfl⟩ | ⟨rfl, rfl⟩ | ⟨rfl, rfl⟩ | ⟨rfl, rfl⟩ | ⟨rfl, rfl⟩) <;> decide
      rw [he, List.cons_append, List.singleton_append, hasColonBlank_cons, hasColonBlank_cons, ih]
      simp [hplain.1, hplain.2]
    · rw [he, List.singleton_append, hasColonBlank_cons, ih, ← Bool.or_assoc]
      simp only [hhead]

theorem hasColonBlank_quoted (s : String) : hasColonBlank (quoted s) = hasColonBlank s.toList := by
  rw [quoted, hasColonBlank_cons, hasColonBlank_escape _ _ (by decide)]
  simp [hasColonBlank]

/-- The key is cut at the colon behind it. -/
theorem cutKey_key {key rest : List Char} (hkey : hasColonBlank key = false)
    (hrest : rest = [] ∨ rest.head? = some ' ') : cutKey (key ++ ':' :: rest) = some (key, rest) := by
  induction key with
  | nil =>
    rw [List.nil_append, cutKey, if_pos ⟨rfl, hrest⟩]
  | cons c key ih =>
    rw [hasColonBlank_cons, Bool.or_eq_false_iff, decide_eq_false_iff_not] at hkey
    rw [List.cons_append, cutKey, if_neg, ih hkey.2]
    · rfl
    · rintro ⟨hc, hnil | hblank⟩
      · exact List.append_ne_nil_of_right_ne_nil _ (List.cons_ne_nil _ _) hnil
      · cases key with
        | nil => cases hblank
        | cons d key => exact hkey.1 ⟨hc, hblank⟩

theorem splitKey_key {key : String} (hkey : PlainKey key.toList) {rest : List Char}
    (hrest : rest = [] ∨ rest.head? = some ' ') (no : Nat) :
    splitKey (key.toList ++ ':' :: rest) no = .ok (key, trim rest) := by
  have hplain := hkey.plain
  unfold splitKey
  rw [cutKey_key hkey.colon hrest]
  dsimp only
  rw [hkey.trimmed]
  split
  next hnil => exact absurd hnil hkey.nonempty
  next heq => rw [heq] at hplain; exact absurd (by simp) (hplain _ rfl)
  next heq => rw [heq] at hplain; exact absurd (by simp) (hplain _ rfl)
  next heq => rw [heq] at hplain; exact absurd (by simp) (hplain _ rfl)
  next heq => rw [heq] at hplain; exact absurd (by simp) (hplain _ rfl)
  next => rw [String.ofList_toList]

/-! ## Lines -/

/-- What a written line says: it begins with a character that shows and ends with one of the three that
end a value, a key or a list. -/
structure Solid (content : List Char) : Prop where
  first : ∃ c rest, content = c :: rest ∧ Text.isWhitespace c = false
  last : ∃ front c, content = front ++ [c] ∧ c ∈ ['"', ':', ']']

theorem Solid.last_shows {content : List Char} (h : Solid content) :
    ∃ front c, content = front ++ [c] ∧ Text.isWhitespace c = false ∧ c ≠ '\r' ∧ c ≠ '-' ∧ c ≠ '.' := by
  obtain ⟨front, c, hc, hmem⟩ := h.last
  have hends : c = '"' ∨ c = ':' ∨ c = ']' := by simpa using hmem
  obtain rfl | rfl | rfl := hends
  all_goals exact ⟨front, _, hc, by decide⟩

theorem Solid.trimStart_eq {content : List Char} (h : Solid content) : trimStart content = content := by
  obtain ⟨c, rest, rfl, hc⟩ := h.first
  exact List.dropWhile_cons_of_neg (by simp [hc])

theorem Solid.trimEnd_eq {content : List Char} (h : Solid content) : trimEnd content = content := by
  obtain ⟨front, c, rfl, hc, -⟩ := h.last_shows
  exact List.rdropWhile_concat_neg _ _ _ (by simp [hc])

theorem Solid.trim_eq {content : List Char} (h : Solid content) : trim content = content := by
  rw [trim, h.trimStart_eq, h.trimEnd_eq]

theorem Solid.no_mark {content : List Char} (h : Solid content) :
    content ≠ "---".toList ∧ content ≠ "...".toList := by
  obtain ⟨front, c, rfl, -, -, hdash, hdot⟩ := h.last_shows
  constructor
  · intro heq
    have hlast := congrArg List.getLast? heq
    rw [List.getLast?_concat] at hlast
    exact hdash (Option.some.inj hlast)
  · intro heq
    have hlast := congrArg List.getLast? heq
    rw [List.getLast?_concat] at hlast
    exact hdot (Option.some.inj hlast)

theorem Solid.quoted (s : String) : Solid (quoted s) :=
  { first := ⟨'"', _, rfl, by decide⟩
    last := ⟨'"' :: escape s.toList, '"', rfl, by simp⟩ }

theorem trimCr_indented {depth : Nat} {content : List Char} (h : Solid content) :
    trimCr (indented (depth, content)) = indented (depth, content) := by
  obtain ⟨front, c, rfl, -, hcr, -⟩ := h.last_shows
  rw [indented, ← List.append_assoc, trimCr, List.rdropWhile_concat_neg]
  simpa using hcr

theorem scanned_indented {depth : Nat} {content : List Char} (h : Solid content) :
    scanned (indented (depth, content)) = content := by
  rw [scanned, trimCr_indented h, indented, trimStart,
    List.dropWhile_append_of_pos (by intro c hc; rw [List.eq_of_mem_replicate hc]; decide)]
  exact h.trimStart_eq

theorem indent_indented {depth : Nat} {content : List Char} (h : Solid content) :
    (trimCr (indented (depth, content))).takeWhile Text.isWhitespace = List.replicate depth ' ' := by
  obtain ⟨c, rest, hc, hshow⟩ := h.first
  rw [trimCr_indented h, indented,
    List.takeWhile_append_of_pos (by intro c hc; rw [List.eq_of_mem_replicate hc]; decide), hc,
    List.takeWhile_cons_of_neg (by simp [hshow]), List.append_nil]

/-- A comment is found in the line. -/
def opensComment (raw : List Char) : Bool := (scan (scanned raw)).isNone

theorem readLine_indented {depth : Nat} {content : List Char} (h : Solid content)
    (hscan : opensComment (indented (depth, content)) = false) (no : Nat) :
    readLine no (indented (depth, content)) = .ok (some { no, indent := depth, content }) := by
  rw [opensComment, scanned_indented h, Option.isNone_eq_false_iff, Option.isSome_iff_exists] at hscan
  obtain ⟨ends, hends⟩ := hscan
  have hcontent : contentOf (indented (depth, content)) = content := by
    show trimEnd (stripComment (scanned (indented (depth, content)))) = content
    rw [scanned_indented h, stripComment_of_scan_some hends, h.trimEnd_eq]
  have hne : content ≠ [] := by
    obtain ⟨c, rest, rfl, -⟩ := h.first
    exact List.cons_ne_nil _ _
  rw [readLine_ok_iff (by rwa [hcontent]), hcontent, indent_indented h]
  refine ⟨fun htab => ?_, h.no_mark.1, h.no_mark.2, ?_⟩
  · cases List.eq_of_mem_replicate htab
  · rw [byteLen_of_ascii fun c hc => by rw [List.eq_of_mem_replicate hc]; decide, List.length_replicate]

theorem PlainKey.first {key : List Char} (h : PlainKey key) (rest : List Char) :
    ∃ c after, key ++ rest = c :: after ∧ Text.isWhitespace c = false := by
  have htrim := h.trimmed
  cases hstart : trimStart key with
  | nil => exact absurd (htrim.symm.trans (trim_eq_nil_iff.mpr hstart)) h.nonempty
  | cons c after =>
    obtain ⟨gap, hgap⟩ : key <+: c :: after := by
      rw [← hstart, ← htrim]
      nth_rewrite 2 [htrim]
      exact List.rdropWhile_prefix _ _
    cases key with
    | nil => exact absurd rfl h.nonempty
    | cons d key =>
      obtain rfl := (List.cons.inj hgap).1
      exact ⟨d, key ++ rest, rfl, isWhitespace_of_trimStart_eq_cons hstart⟩

theorem Solid.after {content : List Char} (h : Solid content) (before : List Char)
    (hfirst : ∃ c rest, before ++ content = c :: rest ∧ Text.isWhitespace c = false) : Solid (before ++ content) := by
  obtain ⟨front, c, rfl, hc⟩ := h.last
  exact { first := hfirst, last := ⟨before ++ front, c, (List.append_assoc _ _ _).symm, hc⟩ }

theorem solid_of_mem_entryLines {key : String} {v : Flat} (hkey : PlainKey key.toList) {line : Nat × List Char}
    (h : line ∈ entryLines key v) : Solid line.2 := by
  cases v with
  | scalar s =>
    obtain rfl := List.mem_singleton.mp h
    have hsolid := (Solid.quoted s).after (key.toList ++ [':', ' ']) <| by
      simpa using hkey.first _
    simpa using hsolid
  | seq items =>
    cases items with
    | nil =>
      obtain rfl := List.mem_singleton.mp h
      exact { first := hkey.first _, last := ⟨key.toList ++ [':', ' ', '['], ']', by simp, by simp⟩ }
    | cons s items =>
      rcases List.mem_cons.mp h with rfl | h
      · exact { first := hkey.first _, last := ⟨key.toList, ':', rfl, by simp⟩ }
      · obtain ⟨item, -, rfl⟩ := List.mem_map.mp h
        exact (Solid.quoted item).after ['-', ' '] ⟨'-', _, rfl, by decide⟩

/-! ## The lines of the whole map -/

/-- The lines as they are read, from number `no` on. -/
def numbered (no : Nat) : List (Nat × List Char) → List Line
  | [] => []
  | line :: rest => { no, indent := line.1, content := line.2 } :: numbered (no + 1) rest

theorem numbered_append (no : Nat) (a b : List (Nat × List Char)) :
    numbered no (a ++ b) = numbered no a ++ numbered (no + a.length) b := by
  induction a generalizing no with
  | nil => rfl
  | cons line a ih =>
    rw [List.cons_append, numbered, ih, numbered, List.length_cons, Nat.add_comm a.length, ← Nat.add_assoc]
    rfl

theorem length_numbered (no : Nat) (lines : List (Nat × List Char)) :
    (numbered no lines).length = lines.length := by
  induction lines generalizing no with
  | nil => rfl
  | cons line rest ih => rw [numbered, List.length_cons, ih, List.length_cons]

theorem readLines_indented {lines : List (Nat × List Char)} (hsolid : ∀ line ∈ lines, Solid line.2)
    (hscan : ∀ line ∈ lines, opensComment (indented line) = false) (no : Nat) :
    readLines no (lines.map indented ++ [[]]) = .ok (numbered no lines) := by
  induction lines generalizing no with
  | nil => rfl
  | cons line rest ih =>
    have hline := readLine_indented (hsolid line List.mem_cons_self) (hscan line List.mem_cons_self) no
    rw [List.map_cons, List.cons_append, readLines, hline,
      ih (fun l hl => hsolid l (List.mem_cons_of_mem _ hl)) (fun l hl => hscan l (List.mem_cons_of_mem _ hl))]
    rfl

/-! ## Reading back -/

theorem scalar_quoted (s : String) (no : Nat) : scalar (quoted s) no = .ok s := by
  have hclose : Text.stripSuffix (escape s.toList ++ ['"']) ['"'] = some (escape s.toList) :=
    stripSuffix_eq_some.mpr rfl
  show scalar ('"' :: (escape s.toList ++ ['"'])) no = _
  rw [scalar, hclose]
  dsimp only
  rw [unescape, unescapeFrom_escape_all]
  exact congrArg Except.ok (String.ofList_toList)

/-- Where the items of a list end: before what stands less deep. -/
theorem parseBlockSeq_items {items : List String} {after : List Line}
    (hitems : ∀ s ∈ items, hasColonBlank s.toList = false) (hafter : ∀ line ∈ after.head?, line.indent < 2)
    (no : Nat) :
    parseBlockSeq 2 (numbered no (items.map fun s => (2, '-' :: ' ' :: quoted s)) ++ after) =
      .ok (items, after) := by
  induction items generalizing no with
  | nil =>
    cases after with
    | nil => rfl
    | cons line after => exact if_pos (hafter line rfl)
  | cons s items ih =>
    have htrim := (Solid.quoted s).trim_eq
    have hlast : (quoted s).getLast? = some '"' := List.getLast?_concat (l := '"' :: escape s.toList)
    have hstrip : Text.stripPrefix ('-' :: ' ' :: quoted s) "- ".toList = some (quoted s) := by
      simp [Text.stripPrefix]
    have hrest := ih (fun t ht => hitems t (List.mem_cons_of_mem _ ht)) (no + 1)
    refine parseBlockSeq_cons_iff.mpr (.item rfl hstrip ?_ ?_ ?_ hrest rfl)
    · rw [htrim, hasColonBlank_quoted]
      exact hitems s List.mem_cons_self
    · rw [htrim, hlast]
      simp
    · rw [htrim]
      exact scalar_quoted s no

theorem isItem_key {key : List Char} (h : PlainKey key) (rest : List Char) : isItem (key ++ ':' :: rest) = false := by
  refine Bool.or_eq_false_iff.mpr ⟨?_, beq_eq_false_iff_ne.mpr fun heq => ?_⟩
  · match key, h.nonempty, h.item with
    | [c], _, _ => simp [List.isPrefixOf]
    | c :: d :: key, _, hitem => simpa [List.isPrefixOf] using hitem
  · have hmem : ':' ∈ ['-'] := heq ▸ List.mem_append_right _ List.mem_cons_self
    simp at hmem

/-- No item of the list holds a colon and a blank. -/
def Flat.NoPairs : Flat → Prop
  | .scalar _ => True
  | .seq items => ∀ s ∈ items, hasColonBlank s.toList = false

/-- The lines of an entry: its key, what stands behind that, and the lines under it, which are read as
the value. -/
theorem entryLines_read (key : String) {v : Flat} (hv : v.NoPairs) :
    ∃ rest below, entryLines key v = (0, key.toList ++ ':' :: rest) :: below ∧
      (rest = [] ∨ rest.head? = some ' ') ∧
      ∀ block no, ∀ after : List Line, (∀ line ∈ after.head?, line.indent < 2) →
        Reads block 0 no (trim rest) (numbered (no + 1) below ++ after) v.value after := by
  cases v with
  | scalar s =>
    refine ⟨' ' :: quoted s, [], rfl, .inr rfl, fun block no after _ => ?_⟩
    have htrim : trim (' ' :: quoted s) = quoted s := (Solid.quoted s).trim_eq
    rw [htrim]
    refine .inline (List.cons_ne_nil _ _) ?_
    show (scalar (quoted s) no).map Value.scalar = _
    rw [scalar_quoted]
    rfl
  | seq items =>
    cases items with
    | nil => exact ⟨_, [], rfl, .inr rfl, fun block no after _ => .inline (by decide) rfl⟩
    | cons s items =>
      refine ⟨[], _, rfl, .inl rfl, fun block no after hafter => ?_⟩
      have hunder : under 0 (numbered (no + 1) ((s :: items).map fun s => (2, '-' :: ' ' :: quoted s)) ++ after) =
          .items 2 := by
        simp [under, numbered, isItem, List.isPrefixOf]
      exact .items hunder (parseBlockSeq_items hv hafter (no + 1))

theorem entryLines_eq_cons (key : String) (v : Flat) :
    ∃ content below, entryLines key v = (0, content) :: below := by
  cases v with
  | scalar s => exact ⟨_, _, rfl⟩
  | seq items => cases items <;> exact ⟨_, _, rfl⟩

theorem indent_head_entries {no : Nat} {entries : List (String × Flat)} {line : Line}
    (h : line ∈ (numbered no (entries.flatMap fun e => entryLines e.1 e.2)).head?) : line.indent < 2 := by
  cases entries with
  | nil => cases h
  | cons e entries =>
    obtain ⟨content, below, hlines⟩ := entryLines_eq_cons e.1 e.2
    rw [List.flatMap_cons, hlines] at h
    cases h
    exact Nat.zero_lt_two

/-- The entries are read one by one, and each is bound to its key. -/
theorem parseMap_entries {entries : List (String × Flat)} {out : Block} {fuel : Nat}
    (hplain : ∀ e ∈ entries, PlainKey e.1.toList) (hpairs : ∀ e ∈ entries, e.2.NoPairs)
    (hkeys : (entries.map Prod.fst).Nodup) (hfresh : ∀ e ∈ entries, out.get? e.1 = none)
    (hfuel : (entries.flatMap fun e => entryLines e.1 e.2).length ≤ fuel) (no : Nat) :
    parseMap fuel 0 out (numbered no (entries.flatMap fun e => entryLines e.1 e.2)) =
      .ok (entries.foldl (fun m e => m.insert e.1 e.2.value) out, []) := by
  induction entries generalizing out fuel no with
  | nil => cases fuel <;> rfl
  | cons e entries ih =>
    obtain ⟨rest, below, hlines, hrest, hread⟩ := entryLines_read e.1 (hpairs e List.mem_cons_self)
    rw [List.flatMap_cons, hlines, List.length_append, List.length_cons] at hfuel
    obtain ⟨fuel, rfl⟩ : ∃ n, fuel = n + 1 := ⟨fuel - 1, by omega⟩
    have hkey := hplain e List.mem_cons_self
    obtain ⟨hnew, hkeys⟩ := List.nodup_cons.mp hkeys
    rw [List.flatMap_cons, hlines, List.cons_append, numbered, numbered_append]
    refine parseMap_cons_iff.mpr (.entry rfl (isItem_key hkey rest) (splitKey_key hkey hrest no)
      (hfresh e List.mem_cons_self) (hread _ no _ ?_) ?_)
    · exact fun line hline => indent_head_entries hline
    · refine ih (fun d hd => hplain d (List.mem_cons_of_mem _ hd)) (fun d hd => hpairs d (List.mem_cons_of_mem _ hd))
        hkeys (fun d hd => ?_) (by omega) _
      rw [OrderedMap.get?_insert, if_neg, hfresh d (List.mem_cons_of_mem _ hd)]
      intro heq
      exact hnew (heq ▸ List.mem_map_of_mem hd)

theorem block_ext {m m' : Block} (h : ∀ key, m.get? key = m'.get? key) : m = m' := by
  have hbindings := m.bindings_eq m'.sorted fun key v => by
    rw [h key]
    exact ⟨m'.mem_bindings_of_get?, m'.get?_of_mem_bindings⟩
  cases m
  cases m'
  cases hbindings
  rfl

theorem foldl_insert_block (m : FlatMap) :
    m.entries.bindings.foldl (fun b e => b.insert e.1 e.2.value) OrderedMap.empty = m.block := by
  refine block_ext fun key => ?_
  have hbound : ∀ p ∈ m.block.bindings, m.block.get? p.1 = some p.2 := fun p hp => m.block.get?_of_mem_bindings hp
  have hfold := OrderedMap.get?_foldl_insert m.block.get? hbound OrderedMap.empty key
  rw [show m.block.bindings = m.entries.bindings.map fun e => (e.1, e.2.value) from rfl, List.foldl_map] at hfold
  rw [hfold]
  split
  next => rfl
  next hkey =>
    cases hget : m.block.get? key with
    | none => rfl
    | some v => exact absurd (List.mem_map_of_mem (m.block.mem_bindings_of_get? hget)) hkey

theorem newline_not_mem_quoted (s : String) : '\n' ∉ quoted s := by
  simp [quoted, newline_not_mem_escape]

theorem newline_not_mem_indented {key : String} {v : Flat} (hkey : PlainKey key.toList) {line : Nat × List Char}
    (h : line ∈ entryLines key v) : '\n' ∉ indented line := by
  have hline := hkey.line
  have hblank : ∀ n, '\n' ∉ List.replicate n ' ' := fun n hn => by cases List.eq_of_mem_replicate hn
  cases v with
  | scalar s =>
    obtain rfl := List.mem_singleton.mp h
    simp [indented, hline, newline_not_mem_quoted]
  | seq items =>
    cases items with
    | nil =>
      obtain rfl := List.mem_singleton.mp h
      simp [indented, hline]
    | cons s items =>
      rcases List.mem_cons.mp h with rfl | h
      · simp [indented, hline]
      · obtain ⟨item, -, rfl⟩ := List.mem_map.mp h
        simp [indented, newline_not_mem_quoted]

theorem FlatMap.plain_of_mem (m : FlatMap) {e : String × Flat} (h : e ∈ m.entries.bindings) :
    PlainKey e.1.toList := m.plain e.1 (List.mem_map_of_mem h)

theorem FlatMap.solid (m : FlatMap) : ∀ line ∈ m.lines, Solid line.2 := by
  intro line hline
  obtain ⟨e, he, hline⟩ := List.mem_flatMap.mp hline
  exact solid_of_mem_entryLines (m.plain_of_mem he) hline

theorem FlatMap.splitOn_written (m : FlatMap) :
    m.written.toList.splitOn '\n' = m.lines.map indented ++ [[]] := by
  refine splitOn_joined (fun l hl => ?_) (by simp)
  rcases List.mem_append.mp hl with hl | hl
  · obtain ⟨line, hline, rfl⟩ := List.mem_map.mp hl
    obtain ⟨e, he, hline⟩ := List.mem_flatMap.mp hline
    exact newline_not_mem_indented (m.plain_of_mem he) hline
  · rw [List.mem_singleton.mp hl]
    exact List.not_mem_nil

/-- No written line opens a comment, and no list of the map has an item with a colon and a blank. -/
structure FlatMap.ReadsBack (m : FlatMap) : Prop where
  uncut : ∀ line ∈ m.lines, opensComment (indented line) = false
  pairless : ∀ e ∈ m.entries.bindings, e.2.NoPairs

/-- Such a map is read back from what is written for it. -/
theorem FlatMap.ReadsBack.parse_written {m : FlatMap} (h : m.ReadsBack) : parse m.written = .ok m.block := by
  have hfresh : ∀ e ∈ m.entries.bindings, (OrderedMap.empty : Block).get? e.1 = none := fun e _ => rfl
  have hmap := parseMap_entries (fun e he => m.plain_of_mem he) h.pairless m.entries.keys_nodup hfresh
    (le_refl _) 1
  rw [parse, m.splitOn_written, readLines_indented m.solid h.uncut]
  show parseLines (numbered 1 m.lines) = _
  rw [parseLines, length_numbered]
  change parseMap m.lines.length 0 OrderedMap.empty (numbered 1 m.lines) = _ at hmap
  rw [hmap, foldl_insert_block]
  rfl

end MarloweAgent.Tools.FrontMatter
