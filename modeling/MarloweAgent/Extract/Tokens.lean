import MarloweAgent.Extract.Html

/-! What a page is made of, in its own order: the text outside markup, and the comments, declarations,
tags and raw-text elements between. -/

namespace MarloweAgent.Extract.Html
open Contract Library

/-- A part of a page, with its characters. -/
inductive Token
  | text (s : List Char)
  | comment (s : List Char)
  /-- A CDATA section: its text, and what ends it. -/
  | cdata (body close : List Char)
  | declaration (s : List Char)
  | tag (raw : List Char)
  /-- The opening tag of a raw-text element, what stands in it, and its closing tag. -/
  | rawElement (opening body close : List Char)
  /-- A tag that does not end. -/
  | unterminated (s : List Char)
  deriving DecidableEq, Repr

namespace Token

def cdataOpen : List Char := "<![CDATA[".toList

def source : Token → List Char
  | text s | comment s | declaration s | unterminated s => s
  | cdata body close => cdataOpen ++ (body ++ close)
  | tag raw => raw
  | rawElement opening body close => opening ++ (body ++ close)

end Token

/-! ## Tags -/

def nameOf (raw : List Char) : String := (tagName raw).getD ""

def isClosing (raw : List Char) : Bool := "</".toList.isPrefixOf raw

/-- A tag whose element has no content. -/
def isSelfClosing (raw : List Char) : Bool := "/>".toList.isSuffixOf (trimEnd raw) || isVoid (nameOf raw)

/-- A tag that opens a raw-text element. -/
def opensRaw (raw : List Char) : Bool := !isClosing raw && rawText.contains (nameOf raw) && !isSelfClosing raw

/-! ## Cutting -/

/-- The text before the first place of a mark, and the text behind it. -/
def cutAt (mark s : List Char) : Option (List Char × List Char) :=
  (Utf8.split mark.isPrefixOf s).map fun cut => (cut.1, cut.2.drop mark.length)

/-- A tag behind its `<`, to the first `>` outside quotes, and the text behind it. -/
def cutTag : Option Char → List Char → Option (List Char × List Char)
  | _, [] => none
  | some q, c :: rest => (cutTag (if c = q then none else some q) rest).map fun cut => (c :: cut.1, cut.2)
  | none, c :: rest =>
    if c = '"' ∨ c = '\'' then (cutTag (some c) rest).map fun cut => (c :: cut.1, cut.2)
    else if c = '>' then some (['>'], rest)
    else (cutTag none rest).map fun cut => (c :: cut.1, cut.2)

def eqIgnoreCaseChar (c d : Char) : Bool := Text.toAsciiLowercaseChar c == Text.toAsciiLowercaseChar d

/-- Whether the closing tag of an element begins here: `</`, its name and what may follow it. -/
def closesHere (name : String) (s : List Char) : Bool :=
  let mark := "</".toList ++ name.toList
  Utf8.beginsAs eqIgnoreCaseChar mark s && (s.drop mark.length).head?.all fun c => terminators.contains c

def nextComment (s : List Char) : Token × List Char :=
  match cutAt "-->".toList (s.drop 4) with
  | some (body, after) => (.comment ("<!--".toList ++ (body ++ "-->".toList)), after)
  | none => (.comment s, [])

def nextCdata (s : List Char) : Token × List Char :=
  match cutAt "]]>".toList (s.drop 9) with
  | some (body, after) => (.cdata body "]]>".toList, after)
  | none => (.cdata (s.drop 9) [], [])

def nextDeclaration (s : List Char) : Token × List Char :=
  match cutAt ['>'] s with
  | some (body, after) => (.declaration (body ++ ['>']), after)
  | none => (.declaration s, [])

/-- A raw-text element, of what stands behind its opening tag. -/
def nextRaw (opening after : List Char) : Token × List Char :=
  match Utf8.split (closesHere (nameOf opening)) after with
  | none => (.rawElement opening after [], [])
  | some (body, closing) =>
    match cutTag none closing.tail with
    | none => (.rawElement opening body closing, [])
    | some (close, after) => (.rawElement opening body ('<' :: close), after)

/-- A tag, of what stands behind its `<`. -/
def nextTag (rest : List Char) : Token × List Char :=
  match cutTag none rest with
  | none => (.unterminated ('<' :: rest), [])
  | some (inner, after) =>
    if opensRaw ('<' :: inner) then nextRaw ('<' :: inner) after else (.tag ('<' :: inner), after)

/-- Whether a `<` opens a tag. -/
def opensTag (rest : List Char) : Bool := rest.head?.any fun c => c.isAlpha || c == '/'

/-- Markup, or a `<` that is none. -/
def nextMarkup (s rest : List Char) : Token × List Char :=
  if "<!--".toList.isPrefixOf s then nextComment s
  else if Token.cdataOpen.isPrefixOf s then nextCdata s
  else if "<!".toList.isPrefixOf s || "<?".toList.isPrefixOf s then nextDeclaration s
  else if opensTag rest then nextTag rest
  else (.text ['<'], rest)

/-- The first part of a page that is not empty, and the rest of it. -/
def next (s : List Char) : Token × List Char :=
  match s with
  | '<' :: rest => nextMarkup s rest
  | _ => (.text (s.takeWhile (· ≠ '<')), s.dropWhile (· ≠ '<'))

def lexFrom : Nat → List Char → List Token
  | 0, _ => []
  | _, [] => []
  | n + 1, c :: s => (next (c :: s)).1 :: lexFrom n (next (c :: s)).2

/-- The parts of a page. -/
def lex (text : List Char) : List Token := lexFrom text.length text

/-! ## The parts make up the page -/

theorem cutAt_some {mark s body after : List Char} (h : cutAt mark s = some (body, after)) :
    s = body ++ (mark ++ after) := by
  obtain ⟨⟨before, found⟩, hsplit, heq⟩ := Option.map_eq_some_iff.mp h
  obtain ⟨rfl, rfl⟩ := Prod.mk.inj heq
  obtain ⟨rfl, -, hfound, -⟩ := Utf8.split_eq_some hsplit
  obtain ⟨rest, rfl⟩ := List.isPrefixOf_iff_prefix.mp hfound
  rw [List.drop_left]

theorem cutTag_some {q : Option Char} {s inner after : List Char} (h : cutTag q s = some (inner, after)) :
    s = inner ++ after := by
  induction s generalizing q inner with
  | nil => cases q <;> cases h
  | cons c rest ih =>
    have hmap {q : Option Char}
        (h : (cutTag q rest).map (fun cut => (c :: cut.1, cut.2)) = some (inner, after)) :
        c :: rest = inner ++ after := by
      obtain ⟨⟨i, a⟩, hcut, heq⟩ := Option.map_eq_some_iff.mp h
      obtain ⟨rfl, rfl⟩ := Prod.mk.inj heq
      rw [ih hcut, List.cons_append]
    cases q with
    | some q => exact hmap h
    | none =>
      rw [cutTag] at h
      split at h
      · exact hmap h
      · split at h
        · rename_i hend
          obtain ⟨rfl, rfl⟩ := Prod.mk.inj (Option.some.inj h)
          rw [hend, List.singleton_append]
        · exact hmap h

theorem closesHere_head {name : String} {s : List Char} (h : closesHere name s = true) :
    ∃ rest, s = '<' :: rest := by
  have hmark : "</".toList = ['<', '/'] := by decide
  rw [closesHere, hmark, Bool.and_eq_true] at h
  cases s with
  | nil => cases h.1
  | cons c rest =>
    have hfirst : eqIgnoreCaseChar '<' c = true := by
      have hbegins := h.1
      rw [List.cons_append, Utf8.beginsAs, Bool.and_eq_true] at hbegins
      exact hbegins.1
    have hlower : Text.toAsciiLowercaseChar c = '<' := (eq_of_beq hfirst).symm
    rw [Text.toAsciiLowercaseChar_eq_iff (by decide)] at hlower
    exact ⟨rest, by rw [hlower]⟩

/-- A part stands at the beginning of a text, and is not empty. -/
def Leads (part : Token × List Char) (s : List Char) : Prop := part.1.source ++ part.2 = s ∧ part.1.source ≠ []

theorem leads_comment (after : List Char) : Leads (nextComment ("<!--".toList ++ after)) ("<!--".toList ++ after) := by
  have hopen : ("<!--".toList ++ after).drop 4 = after := rfl
  rw [nextComment, hopen]
  split
  · rename_i body rest hcut
    rw [cutAt_some hcut]
    exact ⟨by simp [Token.source], by simp [Token.source]⟩
  · exact ⟨by simp [Token.source], by simp [Token.source]⟩

theorem leads_cdata (after : List Char) : Leads (nextCdata (Token.cdataOpen ++ after)) (Token.cdataOpen ++ after) := by
  have hopen : (Token.cdataOpen ++ after).drop 9 = after := rfl
  have hsome : Token.cdataOpen ≠ [] := by decide
  rw [nextCdata, hopen]
  split
  · rename_i body rest hcut
    rw [cutAt_some hcut]
    exact ⟨by simp [Token.source], by simp [Token.source, hsome]⟩
  · exact ⟨by simp [Token.source], by simp [Token.source, hsome]⟩

theorem leads_declaration {s : List Char} (hs : s ≠ []) : Leads (nextDeclaration s) s := by
  rw [nextDeclaration]
  split
  · rename_i body after hcut
    rw [cutAt_some hcut]
    exact ⟨by simp [Token.source], by simp [Token.source]⟩
  · exact ⟨by simp [Token.source], hs⟩

theorem leads_raw {opening : List Char} (hopening : opening ≠ []) (after : List Char) :
    Leads (nextRaw opening after) (opening ++ after) := by
  rw [nextRaw]
  split
  · exact ⟨by simp [Token.source], by simp [Token.source, hopening]⟩
  · rename_i body closing hsplit
    obtain ⟨rfl, -, hcloses, -⟩ := Utf8.split_eq_some hsplit
    obtain ⟨tail, rfl⟩ := closesHere_head hcloses
    rw [List.tail_cons]
    split
    · exact ⟨by simp [Token.source], by simp [Token.source, hopening]⟩
    · rename_i close rest hclose
      rw [cutTag_some hclose]
      exact ⟨by simp [Token.source], by simp [Token.source, hopening]⟩

theorem leads_tag (rest : List Char) : Leads (nextTag rest) ('<' :: rest) := by
  rw [nextTag]
  split
  · exact ⟨by simp [Token.source], by simp [Token.source]⟩
  · rename_i inner after hcut
    rw [cutTag_some hcut]
    split
    · exact leads_raw (List.cons_ne_nil _ _) after
    · exact ⟨by simp [Token.source], by simp [Token.source]⟩

theorem leads_next {s : List Char} (hs : s ≠ []) : Leads (next s) s := by
  unfold next
  split
  · rename_i rest
    rw [nextMarkup]
    split
    · rename_i hcomment
      obtain ⟨after, hafter⟩ := List.isPrefixOf_iff_prefix.mp hcomment
      rw [← hafter]
      exact leads_comment after
    · split
      · rename_i hcdata
        obtain ⟨after, hafter⟩ := List.isPrefixOf_iff_prefix.mp hcdata
        rw [← hafter]
        exact leads_cdata after
      · split
        · exact leads_declaration hs
        · split
          · exact leads_tag rest
          · exact ⟨rfl, by simp [Token.source]⟩
  · rename_i hnot
    refine ⟨List.takeWhile_append_dropWhile, ?_⟩
    obtain ⟨c, rest, rfl⟩ := List.exists_cons_of_ne_nil hs
    have hc : c ≠ '<' := fun heq => hnot rest (by rw [heq])
    rw [Token.source, List.takeWhile_cons_of_pos (by simpa using hc)]
    exact List.cons_ne_nil _ _

theorem length_next {s : List Char} (hs : s ≠ []) : (next s).2.length < s.length := by
  obtain ⟨hsource, hsome⟩ := leads_next hs
  have hlength := congrArg List.length hsource
  have hpos := List.length_pos_iff_ne_nil.mpr hsome
  rw [List.length_append] at hlength
  omega

theorem lexFrom_eq {m n : Nat} {s : List Char} (hm : s.length ≤ m) (hn : s.length ≤ n) : lexFrom m s = lexFrom n s := by
  induction m generalizing n s with
  | zero =>
    rw [List.length_eq_zero_iff.mp (Nat.le_zero.mp hm)]
    cases n <;> rfl
  | succ m ih =>
    cases s with
    | nil => cases n <;> rfl
    | cons c s =>
      have hless := length_next (List.cons_ne_nil c s)
      cases n with
      | zero => cases hn
      | succ n =>
        rw [lexFrom, lexFrom, ih (n := n) (by omega) (by omega)]

theorem lex_of_ne_nil {s : List Char} (hs : s ≠ []) : lex s = (next s).1 :: lex (next s).2 := by
  have hless := length_next hs
  obtain ⟨c, rest, rfl⟩ := List.exists_cons_of_ne_nil hs
  rw [lex, lex, List.length_cons, lexFrom]
  rw [List.length_cons] at hless
  rw [lexFrom_eq (Nat.le_of_lt_succ hless) (Nat.le_refl _)]

theorem source_lexFrom {n : Nat} {s : List Char} (h : s.length ≤ n) : (lexFrom n s).flatMap Token.source = s := by
  induction n generalizing s with
  | zero => rw [List.length_eq_zero_iff.mp (Nat.le_zero.mp h)]; rfl
  | succ n ih =>
    cases s with
    | nil => rfl
    | cons c s =>
      have hless := length_next (List.cons_ne_nil c s)
      rw [lexFrom, List.flatMap_cons, ih (by omega), (leads_next (List.cons_ne_nil c s)).1]

/-- The parts make up the page. -/
theorem source_lex (text : List Char) : (lex text).flatMap Token.source = text := source_lexFrom (Nat.le_refl _)

end MarloweAgent.Extract.Html
