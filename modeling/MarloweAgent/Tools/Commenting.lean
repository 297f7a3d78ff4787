import MarloweAgent.Tools.Scanning

/-! A comment put behind a line of the front matter. Where the line ends outside quotes, as `strip_comment`
counts them, it is read as before; where it ends inside one, the comment becomes a part of the value. -/

namespace MarloweAgent.Tools.FrontMatter
open Contract Library

/-! ## The commented line -/

/-- The line with ` # ` and a text behind it. -/
def commented (raw text : List Char) : List Char := raw ++ ' ' :: '#' :: ' ' :: text

theorem trimCr_commented (raw text : List Char) :
    ∃ crs rest, (∀ c ∈ crs, c = '\r') ∧
      trimCr (commented raw text) = trimCr raw ++ (crs ++ ' ' :: '#' :: rest) := by
  refine ⟨raw.rtakeWhile (· == '\r'), trimCr (' ' :: text),
    fun c hc => by simpa using List.mem_rtakeWhile_imp hc, ?_⟩
  rw [← List.append_assoc, trimCr, trimCr, trimCr, List.rdropWhile_append_rtakeWhile, commented]
  have h := rdropWhile_append_cons (p := (· == '\r')) (c := '#') (by decide) (raw ++ [' ']) (' ' :: text)
  simpa only [List.append_assoc, List.singleton_append, List.cons_append, List.nil_append] using h

theorem scanned_commented {raw : List Char} (hraw : scanned raw ≠ []) (text : List Char) :
    ∃ crs rest, (∀ c ∈ crs, c = '\r') ∧
      scanned (commented raw text) = scanned raw ++ (crs ++ ' ' :: '#' :: rest) := by
  obtain ⟨crs, rest, hcrs, h⟩ := trimCr_commented raw text
  refine ⟨crs, rest, hcrs, ?_⟩
  rw [scanned, h]
  exact dropWhile_append_left hraw _

/-- Where the scan of the line ends at a comment or outside quotes, a comment changes nothing. -/
theorem contentOf_commented_of_closed {raw : List Char} (hraw : scanned raw ≠ []) (text : List Char)
    (h : ∀ q, scan (scanned raw) ≠ some (some q)) : contentOf (commented raw text) = contentOf raw := by
  obtain ⟨crs, rest, hcrs, hs⟩ := scanned_commented hraw text
  show trimEnd (stripComment (scanned (commented raw text))) = trimEnd (stripComment (scanned raw))
  rw [hs]
  cases hscan : scan (scanned raw) with
  | none =>
    obtain ⟨kept, cut, -, hself, hkept⟩ := stripComment_of_scan_none hscan
    rw [hkept, hself]
  | some ends =>
    cases ends with
    | some q => exact absurd hscan (h q)
    | none =>
      obtain ⟨blank, hb⟩ := stripFrom_of_scanFrom_some hscan
      rw [stripComment_of_scan_some hscan, stripComment, hb, stripFrom_comment hcrs]
      refine trimEnd_append_blank _ fun c hc => ?_
      rcases List.mem_append.mp hc with hc | hc
      · rw [hcrs c hc]
        decide
      · rw [List.mem_singleton.mp hc]
        decide

/-- Where it ends inside a quote, the line goes on with the comment, at least up to its `#`. -/
theorem contentOf_commented_of_open {raw : List Char} (hraw : scanned raw ≠ []) (text : List Char) {q : Char}
    (h : scan (scanned raw) = some (some q)) :
    ∃ blank rest, trimEnd rest = rest ∧
      contentOf (commented raw text) = contentOf raw ++ (blank ++ '#' :: rest) := by
  obtain ⟨crs, rest, hcrs, hs⟩ := scanned_commented hraw text
  obtain ⟨prevSpace, hp⟩ := stripFrom_of_scanFrom_some h
  obtain ⟨blank, hblank, -⟩ := exists_trimEnd (scanned raw)
  have hq : q = '"' ∨ q = '\'' := (quote_of_scanFrom h).resolve_left (by nofun)
  refine ⟨blank ++ (crs ++ [' ']), trimEnd (stripFrom (some q) false rest), List.rdropWhile_idempotent _ _, ?_⟩
  have hcontent : contentOf raw = trimEnd (scanned raw) := congrArg trimEnd (stripComment_of_scan_some h)
  show trimEnd (stripComment (scanned (commented raw text))) = _
  rw [hs, stripComment, hp, stripFrom_quoted_comment hcrs hq, hcontent]
  have hcut := rdropWhile_append_cons (p := Text.isWhitespace) (c := '#') (by decide)
    (scanned raw ++ (crs ++ [' '])) (stripFrom (some q) false rest)
  nth_rewrite 2 [hblank] at hcut
  simpa only [trimEnd, List.append_assoc, List.singleton_append, List.cons_append, List.nil_append] using hcut

/-! ## One line changed -/

/-- Two lines for the same key at the same place, the second of which does not have the value of the first. -/
structure Revalued (line line' : Line) : Prop where
  indent : line'.indent = line.indent
  item : isItem line.content = false
  item' : isItem line'.content = false
  key : ∃ key value value', value ≠ [] ∧ splitKey line.content line.no = .ok (key, value) ∧ value' ≠ [] ∧
    splitKey line'.content line'.no = .ok (key, value') ∧
    ∀ v, parseInline value line.no = .ok v → parseInline value' line'.no ≠ .ok v

/-- What is left of the lines, one of which was changed, when a reading stops before that line. -/
def Before {α : Type} (line line' : Line) (post : List Line) (read : List Line → Parse (α × List Line))
    (pre : List Line) (a : α) (after : List Line) : Prop :=
  ∃ left, after = left ++ line :: post ∧ read (pre ++ line' :: post) = .ok (a, left ++ line' :: post)

/-- A reading that gets to the changed line fails there or comes to something else. -/
def Past {α : Type} (line' : Line) (post : List Line) (read : List Line → Parse (α × List Line))
    (pre : List Line) (a : α) : Prop :=
  ∀ a' after, read (pre ++ line' :: post) = .ok (a', after) → a' ≠ a

section
variable {line line' : Line} {post : List Line}

theorem under_revalued (h : Revalued line line') (indent : Nat) (pre : List Line) :
    under indent (pre ++ line' :: post) = under indent (pre ++ line :: post) := by
  cases pre with
  | nil => simp only [List.nil_append, under, h.indent, h.item, h.item']
  | cons l pre => rfl

/-- A list ends before a line that is no item. -/
theorem parseBlockSeq_before (h : Revalued line line') {indent : Nat} {pre after : List Line}
    {items : List String} (hseq : parseBlockSeq indent (pre ++ line :: post) = .ok (items, after)) :
    Before line line' post (parseBlockSeq indent) pre items after := by
  induction pre generalizing items with
  | nil =>
    cases parseBlockSeq_cons_iff.mp hseq with
    | back hback hitems hafter =>
      subst hitems hafter
      refine ⟨[], rfl, parseBlockSeq_cons_iff.mpr (.back ?_ rfl rfl)⟩
      rw [h.indent]
      exact hback.imp id fun hindent => ⟨hindent.1, h.item'⟩
    | item _ hitem _ _ _ _ _ =>
      rw [(isItem_eq_false_iff.mp h.item).1] at hitem
      cases hitem
  | cons l pre ih =>
    cases parseBlockSeq_cons_iff.mp hseq with
    | back hback hitems hafter =>
      subst hitems hafter
      exact ⟨l :: pre, rfl, parseBlockSeq_cons_iff.mpr (.back hback rfl rfl)⟩
    | item hindent hitem hblank hlast hs hrest hitems =>
      obtain ⟨left, rfl, hleft⟩ := ih hrest
      exact ⟨left, rfl, parseBlockSeq_cons_iff.mpr (.item hindent hitem hblank hlast hs hleft hitems)⟩

/-- A value is read before the changed line, or it has that line under it. -/
theorem reads_revalued (h : Revalued line line') {block : Nat → List Line → Parse (Block × List Line)}
    {indent no : Nat} {value : List Char} {pre after : List Line} {v : Value}
    (hblock : ∀ child b, block child (pre ++ line :: post) = .ok (b, after) →
      Before line line' post (block child) pre b after ∨ Past line' post (block child) pre b)
    (hv : Reads block indent no value (pre ++ line :: post) v after) :
    (∃ left, after = left ++ line :: post ∧
        Reads block indent no value (pre ++ line' :: post) v (left ++ line' :: post)) ∨
      ∀ v' after', Reads block indent no value (pre ++ line' :: post) v' after' → v' ≠ v := by
  cases hv with
  | inline hne hv => exact .inl ⟨pre, rfl, .inline hne hv⟩
  | nothing hu => exact .inl ⟨pre, rfl, .nothing (by rw [under_revalued h, hu])⟩
  | items hu hseq =>
    obtain ⟨left, rfl, hleft⟩ := parseBlockSeq_before h hseq
    exact .inl ⟨left, rfl, .items (by rw [under_revalued h, hu]) hleft⟩
  | @block _ child b _ hu hb =>
    rcases hblock child b hb with ⟨left, rfl, hleft⟩ | hpast
    · exact .inl ⟨left, rfl, .block (by rw [under_revalued h, hu]) hleft⟩
    · refine .inr fun v' after' hv' heq => ?_
      cases hv' with
      | inline hne _ => exact hne rfl
      | nothing hu' =>
        rw [under_revalued h, hu] at hu'
        cases hu'
      | items hu' _ => cases heq
      | @block _ child' b' _ hu' hb' =>
        rw [under_revalued h, hu] at hu'
        cases hu'
        have hb'b : b' = b := by
          cases b
          cases b'
          cases heq
          rfl
        exact hpast b' after' hb' hb'b

/-- A block is read before the changed line, or it takes that line and is not the same block. The
induction is on the fuel, which goes down at each line: once the line is read its key has another
value, and `get?_of_parseMap` keeps it. -/
theorem parseMap_revalued (h : Revalued line line') {fuel indent : Nat} {out m : Block} {pre after : List Line}
    (hm : parseMap fuel indent out (pre ++ line :: post) = .ok (m, after)) :
    Before line line' post (parseMap fuel indent out) pre m after ∨
      Past line' post (parseMap fuel indent out) pre m := by
  induction fuel generalizing indent out m pre after with
  | zero =>
    cases hm
    exact .inl ⟨pre, rfl, rfl⟩
  | succ fuel ih =>
    cases pre with
    | nil =>
      cases parseMap_cons_iff.mp hm with
      | back hlt hout hafter =>
        subst hout hafter
        exact .inl ⟨[], rfl, parseMap_cons_iff.mpr (.back (by rwa [h.indent]) rfl rfl)⟩
      | entry hindent _ hkey _ hv hrest =>
        obtain ⟨key, value, value', hne, hkey₁, hne', hkey₂, hdiff⟩ := h.key
        rw [hkey₁] at hkey
        cases hkey
        refine .inr fun m' after' hm' heq => ?_
        subst heq
        cases parseMap_cons_iff.mp hm' with
        | back hlt _ _ =>
          rw [h.indent, hindent] at hlt
          exact lt_irrefl _ hlt
        | entry _ _ hkey _ hv' hrest' =>
          rw [hkey₂] at hkey
          cases hkey
          have hget := get?_of_parseMap hrest (OrderedMap.get?_insert_self _ _ _)
          have hget' := get?_of_parseMap hrest' (OrderedMap.get?_insert_self _ _ _)
          rw [hget] at hget'
          cases hget'
          cases hv with
          | inline _ hv =>
            cases hv' with
            | inline _ hv' => exact hdiff _ hv hv'
            | nothing _ => exact hne' rfl
            | items _ _ => exact hne' rfl
            | block _ _ => exact hne' rfl
          | nothing _ => exact hne rfl
          | items _ _ => exact hne rfl
          | block _ _ => exact hne rfl
    | cons l pre =>
      cases parseMap_cons_iff.mp hm with
      | back hlt hout hafter =>
        subst hout hafter
        exact .inl ⟨l :: pre, rfl, parseMap_cons_iff.mpr (.back hlt rfl rfl)⟩
      | entry hindent hitem hkey hfresh hv hrest =>
        rcases reads_revalued h (fun child b hb => ih hb) hv with ⟨left, rfl, hleft⟩ | hdiff
        · rcases ih hrest with ⟨left', rfl, hleft'⟩ | hpast
          · exact .inl ⟨left', rfl, parseMap_cons_iff.mpr (.entry hindent hitem hkey hfresh hleft hleft')⟩
          · refine .inr fun m' after' hm' => ?_
            cases parseMap_cons_iff.mp hm' with
            | back hlt _ _ => exact absurd hlt (by omega)
            | entry _ _ hkey' _ hv' hrest' =>
              rw [hkey] at hkey'
              cases hkey'
              have hread := (valueOf_ok_iff.mpr hleft).symm.trans (valueOf_ok_iff.mpr hv')
              cases hread
              exact hpast m' after' hrest'
        · refine .inr fun m' after' hm' heq => ?_
          subst heq
          cases parseMap_cons_iff.mp hm' with
          | back hlt _ _ => exact absurd hlt (by omega)
          | entry _ _ hkey' _ hv' hrest' =>
            rw [hkey] at hkey'
            cases hkey'
            have hget := get?_of_parseMap hrest (OrderedMap.get?_insert_self _ _ _)
            rw [get?_of_parseMap hrest' (OrderedMap.get?_insert_self _ _ _)] at hget
            exact hdiff _ _ hv' (Option.some.inj hget)

end

/-! ## The commented front matter -/

theorem readLines_append (no : Nat) (before after : List (List Char)) :
    readLines no (before ++ after) =
      readLines no before >>= fun pre => readLines (no + before.length) after >>= fun post => .ok (pre ++ post) := by
  induction before generalizing no with
  | nil =>
    rw [List.nil_append]
    show _ = readLines no after >>= fun post => .ok post
    cases readLines no after <;> rfl
  | cons raw rest ih =>
    rw [List.cons_append, readLines, readLines, ih, List.length_cons, Nat.add_comm rest.length, ← Nat.add_assoc]
    cases readLine no raw with
    | error e => rfl
    | ok line =>
      cases readLines (no + 1) rest with
      | error e => rfl
      | ok pre =>
        show (readLines _ after >>= _) >>= _ = readLines _ after >>= _
        cases readLines (no + 1 + rest.length) after with
        | error e => rfl
        | ok post => exact congrArg Except.ok (List.append_assoc _ _ _).symm

theorem scanned_ne_nil {raw : List Char} (h : contentOf raw ≠ []) : scanned raw ≠ [] := by
  intro hnil
  refine h ?_
  show trimEnd (stripComment (scanned raw)) = []
  rw [hnil]
  rfl

/-- A line with something to say is read as it stands when its indentation has no tab and it is no
marker, and refused else. -/
theorem readLine_ok_iff {no : Nat} {raw : List Char} {line : Option Line} (h : contentOf raw ≠ []) :
    readLine no raw = .ok line ↔
      '\t' ∉ (trimCr raw).takeWhile Text.isWhitespace ∧ contentOf raw ≠ "---".toList ∧
        contentOf raw ≠ "...".toList ∧
        some { no, indent := Text.byteLen ((trimCr raw).takeWhile Text.isWhitespace), content := contentOf raw } =
          line := by
  have hblank : ¬(trim (trimCr raw)).isEmpty = true := fun hnil =>
    scanned_ne_nil h (trim_eq_nil_iff.mp (List.isEmpty_iff.mp hnil))
  have hempty : ¬(contentOf raw).isEmpty = true := fun hnil => h (List.isEmpty_iff.mp hnil)
  rw [readLine, if_neg hblank, if_neg hempty]
  split
  next htab => exact ⟨fun h => (by cases h), fun h => absurd htab h.1⟩
  next htab =>
    split
    next hmark =>
      exact ⟨fun h => (by cases h), fun h => absurd hmark (not_or.mpr ⟨h.2.1, h.2.2.1⟩)⟩
    next hmark =>
      obtain ⟨hdash, hdot⟩ := not_or.mp hmark
      exact ⟨fun h => ⟨htab, hdash, hdot, Except.ok.inj h⟩, fun h => congrArg Except.ok h.2.2.2⟩

theorem indent_commented {raw : List Char} (hraw : scanned raw ≠ []) (text : List Char) :
    (trimCr (commented raw text)).takeWhile Text.isWhitespace = (trimCr raw).takeWhile Text.isWhitespace := by
  obtain ⟨crs, rest, -, h⟩ := trimCr_commented raw text
  rw [h]
  exact takeWhile_append_left hraw _

/-- The line is a key and its value, complete. -/
def isEntry (raw : List Char) : Bool :=
  !isItem (contentOf raw) &&
    match splitKey (contentOf raw) 0 with
    | .ok (_, value) => !value.isEmpty
    | .error _ => false

/-- A quote on the line is still open where the line ends. -/
def leavesQuoteOpen (raw : List Char) : Bool :=
  match scan (scanned raw) with
  | some (some _) => true
  | _ => false

theorem isEntry_cases {raw : List Char} (h : isEntry raw = true) (no : Nat) :
    isItem (contentOf raw) = false ∧ contentOf raw ≠ [] ∧
      ∃ key value, value ≠ [] ∧ splitKey (contentOf raw) no = .ok (key, value) := by
  obtain ⟨hitem, hsplit⟩ := Bool.and_eq_true_iff.mp h
  split at hsplit
  next key value hkey =>
    obtain ⟨before, after, hcut, -, rfl, hsame⟩ := splitKey_ok hkey
    refine ⟨by simpa using hitem, ?_, key, trim after, by simpa using hsplit, hsame _ _ no hcut⟩
    intro hnil
    rw [hnil] at hcut
    cases hcut
  next => cases hsplit

theorem readLine_commented_of_closed {raw : List Char} (h : isEntry raw = true)
    (hopen : leavesQuoteOpen raw = false) (no : Nat) (text : List Char) :
    readLine no (commented raw text) = readLine no raw := by
  obtain ⟨-, hcontent, -⟩ := isEntry_cases h no
  have hraw := scanned_ne_nil hcontent
  have hsame : contentOf (commented raw text) = contentOf raw := by
    refine contentOf_commented_of_closed hraw text fun q hq => ?_
    rw [leavesQuoteOpen, hq] at hopen
    cases hopen
  have hblank : ∀ raw, scanned raw ≠ [] → ¬(trim (trimCr raw)).isEmpty = true := fun raw hraw hnil =>
    hraw (trim_eq_nil_iff.mp (List.isEmpty_iff.mp hnil))
  rw [readLine, readLine, if_neg (hblank _ (scanned_ne_nil (by rwa [hsame]))), if_neg (hblank _ hraw),
    indent_commented hraw, hsame]

theorem isItem_append {content more : List Char} (h : isItem content = false) (hne : content ≠ [])
    (hmore : '#' ∈ more) : isItem (content ++ more) = false := by
  obtain ⟨hpre, hdash⟩ := Bool.or_eq_false_iff.mp h
  refine Bool.or_eq_false_iff.mpr ⟨?_, ?_⟩
  · match content, hne, hpre, hdash with
    | [c], _, _, hdash =>
      have hc : ¬c = '-' := by simpa using hdash
      show ("- ".toList.isPrefixOf (c :: more)) = false
      simp [List.isPrefixOf, Ne.symm hc]
    | c :: d :: rest, _, hpre, _ =>
      simpa [List.isPrefixOf] using hpre
  · refine beq_eq_false_iff_ne.mpr fun heq => ?_
    have hmem : '#' ∈ ['-'] := heq ▸ List.mem_append_right _ hmore
    simp at hmem

theorem readLine_commented_of_open {raw : List Char} {no : Nat} {line : Line} (h : isEntry raw = true)
    (hopen : leavesQuoteOpen raw = true) (hline : readLine no raw = .ok (some line)) (text : List Char) :
    ∃ line', readLine no (commented raw text) = .ok (some line') ∧ Revalued line line' := by
  obtain ⟨hitem, hcontent, key, value, hvalue, hkey⟩ := isEntry_cases h no
  have hraw := scanned_ne_nil hcontent
  obtain ⟨q, hq⟩ : ∃ q, scan (scanned raw) = some (some q) := by
    unfold leavesQuoteOpen at hopen
    split at hopen
    next q hq => exact ⟨q, hq⟩
    next => cases hopen
  obtain ⟨blank, rest, hrest, hlong⟩ := contentOf_commented_of_open hraw text hq
  obtain ⟨htab, -, -, heq⟩ := (readLine_ok_iff hcontent).mp hline
  cases heq
  have hhash : '#' ∈ contentOf (commented raw text) := by simp [hlong]
  obtain ⟨gap, hgap⟩ := splitKey_append hkey hvalue hrest blank
  rw [← hlong] at hgap
  refine ⟨_, (readLine_ok_iff (List.ne_nil_of_mem hhash)).mpr
    ⟨by rwa [indent_commented hraw], ?_, ?_, rfl⟩, ?_⟩
  · intro hmark
    rw [hmark] at hhash
    revert hhash
    decide
  · intro hmark
    rw [hmark] at hhash
    revert hhash
    decide
  · exact
      { indent := congrArg Text.byteLen (indent_commented hraw text)
        item := hitem
        item' := by
          rw [hlong]
          exact isItem_append hitem hcontent (by simp)
        key := ⟨key, value, _, hvalue, hkey, by simp [hvalue], hgap,
          fun v hv => parseInline_append hv hvalue (by simp)⟩ }

/-- The front matter made of some lines. -/
def joined (lines : List (List Char)) : String := String.ofList (['\n'].intercalate lines)

theorem splitOn_joined {lines : List (List Char)} (hlines : ∀ l ∈ lines, '\n' ∉ l) (hne : lines ≠ []) :
    (joined lines).toList.splitOn '\n' = lines := by
  rw [joined, String.toList_ofList]
  exact List.splitOn_intercalate '\n' hlines hne

theorem parse_ok {front : String} {m : Block} (h : parse front = .ok m) :
    ∃ lines, readLines 1 (front.toList.splitOn '\n') = .ok lines ∧
      parseMap lines.length 0 OrderedMap.empty lines = .ok (m, []) := by
  obtain ⟨lines, hlines, h⟩ := bind_eq_ok h
  obtain ⟨⟨block, after⟩, hblock, h⟩ := bind_eq_ok h
  refine ⟨lines, hlines, ?_⟩
  dsimp only at h
  split at h
  next => cases h; exact hblock
  next => cases h

/-- A comment put behind a complete `key: value` line of an accepted front matter leaves what is parsed
as it is if and only if no quote is open where the line ends. -/
theorem parse_commented_iff {front : String} {before after : List (List Char)} {raw text : List Char} {m : Block}
    (hfront : front.toList.splitOn '\n' = before ++ raw :: after) (hentry : isEntry raw = true)
    (htext : '\n' ∉ text) (hm : parse front = .ok m) :
    parse (joined (before ++ commented raw text :: after)) = .ok m ↔ leavesQuoteOpen raw = false := by
  have hplain : ∀ l ∈ before ++ raw :: after, '\n' ∉ l := by
    intro l hl hmem
    rw [← hfront] at hl
    simpa using (Text.of_mem_splitOnP hl '\n' hmem).2
  have hsplit : (joined (before ++ commented raw text :: after)).toList.splitOn '\n' =
      before ++ commented raw text :: after := by
    refine splitOn_joined (fun l hl => ?_) (by simp)
    rcases List.mem_append.mp hl with hl | hl
    · exact hplain l (List.mem_append_left _ hl)
    · rcases List.mem_cons.mp hl with rfl | hl
      · have hraw := hplain raw (List.mem_append_right _ List.mem_cons_self)
        simp [commented, hraw, htext]
      · exact hplain l (List.mem_append_right _ (List.mem_cons_of_mem _ hl))
  cases hopen : leavesQuoteOpen raw with
  | false =>
    refine iff_of_true ?_ rfl
    have hlines : readLines 1 (before ++ commented raw text :: after) = readLines 1 (before ++ raw :: after) := by
      rw [readLines_append, readLines_append, readLines, readLines, readLine_commented_of_closed hentry hopen]
    rw [parse, hsplit, hlines, ← hfront]
    exact hm
  | true =>
    refine iff_of_false (fun hm' => ?_) (by simp)
    obtain ⟨lines, hlines, hblock⟩ := parse_ok hm
    obtain ⟨lines', hlines', hblock'⟩ := parse_ok hm'
    rw [hfront, readLines_append, readLines] at hlines
    rw [hsplit, readLines_append, readLines] at hlines'
    obtain ⟨pre, hpre, hlines⟩ := bind_eq_ok hlines
    obtain ⟨post, hpost, hlines⟩ := bind_eq_ok hlines
    obtain ⟨read, hread, hpost⟩ := bind_eq_ok hpost
    obtain ⟨post', hpost', heq⟩ := bind_eq_ok hpost
    cases heq
    cases hlines
    obtain ⟨-, hcontent, -⟩ := isEntry_cases hentry 0
    obtain ⟨-, -, -, rfl⟩ := (readLine_ok_iff hcontent).mp hread
    obtain ⟨line', hread', hrevalued⟩ := readLine_commented_of_open hentry hopen hread text
    rw [hpre, hread'] at hlines'
    change (readLines _ after >>= _) >>= _ = _ at hlines'
    rw [hpost'] at hlines'
    cases hlines'
    rw [List.length_append] at hblock hblock'
    rcases parseMap_revalued hrevalued hblock with ⟨left, hleft, -⟩ | hpast
    · simp at hleft
    · exact hpast m [] hblock' rfl

end MarloweAgent.Tools.FrontMatter
