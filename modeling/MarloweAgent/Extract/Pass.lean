import MarloweAgent.Extract.Scan

/-! The parser goes through the parts of a page one after another. What it makes of each is a step on the
little that decides which text is kept. -/

namespace MarloweAgent.Extract.Html
open Contract Library

/-! ## What decides which text is kept -/

/-- The text that is kept so far, the elements that are open and the counter that hides text. -/
structure Reading where
  blocks : List (List Char)
  blockChars : Nat
  current : List Char
  stack : List String
  skipDepth : Nat

/-- A text with its entities decoded. -/
def decoded (s : List Char) : List Char := (decodeEntities s).getD []

/-- The alternative text of an image, as it is kept. -/
def altOf (raw : List Char) : Option (List Char) :=
  if nameOf raw = "img" then
    (((attr raw "alt").getD none).map fun alt => collapse (decoded alt)).filter (3 ≤ Text.byteLen ·)
  else none

namespace Reading

def new : Reading := ⟨[], 0, [], [], 0⟩

def push (r : Reading) (s : List Char) : Reading :=
  if 0 < r.skipDepth ∨ s = [] then r
  else if trim s = [] then
    { r with
      current := if r.current.getLast? ≠ some ' ' ∧ r.current ≠ [] then r.current ++ [' '] else r.current }
  else { r with current := r.current ++ decoded s }

def pushAlt (r : Reading) (alt : Option (List Char)) : Reading :=
  match alt with
  | some alt => if r.skipDepth = 0 then { r with current := r.current ++ alt ++ [' '] } else r
  | none => r

def flush (r : Reading) : Reading :=
  let text := collapse r.current
  let r := { r with current := [] }
  if text = [] ∨ maxTextChars ≤ r.blockChars then r
  else { r with blockChars := r.blockChars + Text.byteLen text, blocks := r.blocks ++ [text] }

def flushIf (r : Reading) (ends : Bool) : Reading := if ends then r.flush else r

def enter (r : Reading) (name : String) (selfClosing : Bool) : Reading :=
  { r with
    skipDepth := if skipContent.contains name then r.skipDepth + 1 else r.skipDepth
    stack := if !selfClosing && decide (r.stack.length < maxStack) then r.stack ++ [name] else r.stack }

def leave (r : Reading) (name : String) : Reading :=
  { r with
    skipDepth := if skipContent.contains name && r.stack.contains name then r.skipDepth - 1 else r.skipDepth
    stack := Parser.unwind r.stack name }

def tag (r : Reading) (raw : List Char) : Reading :=
  let name := nameOf raw
  if name = "" then r
  else if isClosing raw then (r.flushIf (isBlock name)).leave name
  else ((r.pushAlt (altOf raw)).flushIf (isBlock name)).enter name (isSelfClosing raw)

/-- What is made of a part of the page. -/
def take (r : Reading) : Token → Reading
  | .text s => r.push s
  | .cdata body _ => r.push body
  | .tag raw => r.tag raw
  | .comment _ | .declaration _ | .rawElement _ _ _ | .unterminated _ => r

end Reading

/-- What is left behind a raw-text element, of what is left behind its opening tag. -/
def pastRaw (name : String) (after : List Char) : List Char :=
  match Utf8.split (closesHere name) after with
  | none => []
  | some (_, closing) => (cutTag none closing.tail).elim [] (·.2)

def Parser.reading (p : Parser) : Reading :=
  { blocks := p.blocks.map (·.text), blockChars := p.blockChars, current := p.current, stack := p.stack
    skipDepth := p.skipDepth }

namespace Parser

variable {text : List Char} {base : Option (List Char)} {p : Parser} {name : String} {raw : List Char}

/-- A step that ends, and does to the reading what it should. -/
def Makes (result : Option Parser) (pos : Nat) (r : Reading) : Prop :=
  ∃ p, result = some p ∧ p.pos = pos ∧ p.reading = r

theorem Makes.of (p : Parser) : Makes (some p) p.pos p.reading := ⟨p, rfl, rfl, rfl⟩

theorem pushSlice_makes (hskip : p.skipDepth = 0) (hraw : raw ≠ []) :
    Makes (p.pushSlice raw) p.pos (p.reading.push raw) := by
  have hshown : ¬ (0 < p.reading.skipDepth ∨ raw = []) := by
    rintro (hhidden | hnil)
    · exact absurd hskip (Nat.ne_of_gt hhidden)
    · exact hraw hnil
  rw [pushSlice, Reading.push, if_neg hshown]
  split
  · exact ⟨_, rfl, rfl, rfl⟩
  · obtain ⟨text, htext⟩ := decodeEntities_total raw
    rw [decoded, htext]
    exact ⟨_, rfl, rfl, rfl⟩

theorem pushText_makes {pos : Nat} {mid after : List Char} (h : At text pos (mid ++ after)) {stop : Nat}
    (hstop : stop = pos + Text.byteLen mid) : Makes (p.pushText text pos stop) p.pos (p.reading.push mid) := by
  have hnone (hhidden : 0 < p.reading.skipDepth ∨ mid = []) : p.reading.push mid = p.reading := if_pos hhidden
  rw [pushText]
  split
  · rename_i hhidden
    rw [hnone]
    · exact Makes.of p
    · rcases hhidden with hskip | hempty
      · exact .inl hskip
      · refine .inr ?_
        by_contra hsome
        have hpos := byteLen_pos hsome
        omega
  · rename_i hshown
    rw [not_or] at hshown
    rw [hstop, h.slice]
    refine pushSlice_makes (Nat.eq_zero_of_not_pos hshown.1) ?_
    rintro rfl
    exact hshown.2 (by rw [hstop]; exact Nat.le_refl _)

theorem flushBlock_makes (p : Parser) : p.flushBlock.reading = p.reading.flush ∧ p.flushBlock.pos = p.pos := by
  unfold flushBlock Reading.flush
  dsimp only [reading]
  split
  · exact ⟨rfl, rfl⟩
  · refine ⟨?_, rfl⟩
    simp

theorem since_total (p : Parser) (place : Nat) : ∃ text, p.since place = some text := by
  obtain ⟨before, after, hcurrent, hfloor⟩ := floorCharBoundary_eq p.current (min place (Text.byteLen p.current))
  rw [since, hfloor, hcurrent]
  exact ⟨after, sliceFrom_append before after⟩

theorem closeAnchor_makes (p : Parser) : Makes p.closeAnchor p.pos p.reading := by
  rw [closeAnchor]
  split
  · exact Makes.of p
  · rename_i url place _
    obtain ⟨linked, hlinked⟩ := p.since_total place
    rw [hlinked]
    exact ⟨_, rfl, rfl, rfl⟩

theorem closeHeading_makes (p : Parser) : Makes p.closeHeading p.pos p.reading := by
  rw [closeHeading]
  split
  · exact Makes.of p
  · rename_i level place _
    obtain ⟨titled, htitled⟩ := p.since_total place
    rw [htitled]
    exact ⟨_, rfl, rfl, rfl⟩

theorem noteHeading_makes (p : Parser) (name : String) :
    (p.noteHeading name).reading = p.reading ∧ (p.noteHeading name).pos = p.pos := by
  rw [noteHeading]
  split
  · split <;> exact ⟨rfl, rfl⟩
  · exact ⟨rfl, rfl⟩

theorem flushIf_makes (p : Parser) (name : String) :
    (if isBlock name then p.flushBlock else p).reading = p.reading.flushIf (isBlock name) ∧
      (if isBlock name then p.flushBlock else p).pos = p.pos := by
  rw [Reading.flushIf]
  split
  · exact p.flushBlock_makes
  · exact ⟨rfl, rfl⟩

theorem closeTag_makes (p : Parser) (name : String) :
    Makes (p.closeTag name) p.pos ((p.reading.flushIf (isBlock name)).leave name) := by
  obtain ⟨q, hq, hqpos, hqreading⟩ : Makes (if name = "a" then p.closeAnchor else some p) p.pos p.reading := by
    split
    · exact p.closeAnchor_makes
    · exact Makes.of p
  obtain ⟨t, ht, htpos, htreading⟩ := q.closeHeading_makes
  obtain ⟨hflush, hpos⟩ := t.flushIf_makes name
  rw [closeTag, hq]
  dsimp only [Option.bind_eq_bind, Option.bind_some]
  rw [ht]
  refine ⟨_, rfl, hpos.trans (htpos.trans hqpos), ?_⟩
  rw [← hqreading, ← htreading, ← hflush]
  rfl

theorem readAttributes_makes (base : Option (List Char)) (p : Parser) (raw : List Char) :
    Makes (p.readAttributes base (nameOf raw) raw) p.pos (p.reading.pushAlt (altOf raw)) := by
  have hother (hname : nameOf raw ≠ "img") : p.reading.pushAlt (altOf raw) = p.reading := by
    rw [altOf, if_neg hname]
    rfl
  rw [readAttributes]
  split
  · rename_i ha
    rw [hother (by rw [ha]; decide)]
    obtain ⟨href, hhref⟩ := attr_total raw "href" (by decide)
    rw [hhref]
    cases href with
    | none => exact Makes.of p
    | some href =>
      obtain ⟨link, hlink⟩ := decodeEntities_total href
      obtain ⟨url, hurl⟩ := resolve_total base link
      dsimp only [Option.bind_eq_bind, Option.bind_some]
      rw [hlink]
      dsimp only [Option.bind_some]
      rw [hurl]
      cases url with
      | none => exact Makes.of p
      | some url => exact ⟨_, rfl, rfl, rfl⟩
  · split
    · rename_i hhtml
      rw [hother (by rw [hhtml]; decide)]
      obtain ⟨lang, hlang⟩ := attr_total raw "lang" (by decide)
      split
      · rw [hlang]
        exact ⟨_, rfl, rfl, rfl⟩
      · exact Makes.of p
    · split
      · rename_i hmeta
        rw [hother (by rw [hmeta]; decide)]
        obtain ⟨names, hnames⟩ := attr_total raw "name" (by decide)
        obtain ⟨property, hproperty⟩ := attr_total raw "property" (by decide)
        obtain ⟨content, hcontent⟩ := attr_total raw "content" (by decide)
        rw [hnames]
        dsimp only [Option.bind_eq_bind, Option.bind_some]
        rw [hproperty]
        dsimp only [Option.bind_some]
        split
        · rw [hcontent]
          cases content with
          | none => exact Makes.of p
          | some content =>
            obtain ⟨text, htext⟩ := decodeEntities_total content
            dsimp only [Option.bind_some]
            rw [htext]
            exact ⟨_, rfl, rfl, rfl⟩
        · exact Makes.of p
      · split
        · rename_i himg
          obtain ⟨alt, halt⟩ := attr_total raw "alt" (by decide)
          rw [altOf, if_pos himg, halt]
          cases alt with
          | none => exact Makes.of p
          | some alt =>
            obtain ⟨text, htext⟩ := decodeEntities_total alt
            dsimp only [Option.bind_eq_bind, Option.bind_some, Option.getD_some, Option.map_some, decoded]
            rw [htext]
            dsimp only [Option.bind_some, Option.getD_some]
            by_cases hlong : 3 ≤ Text.byteLen (collapse text)
            · rw [Option.filter_some_pos (by simpa using hlong), Reading.pushAlt]
              by_cases hskip : p.reading.skipDepth = 0
              · rw [if_pos ⟨hlong, hskip⟩, if_pos hskip]
                exact ⟨_, rfl, rfl, rfl⟩
              · rw [if_neg fun hboth => hskip hboth.2, if_neg hskip]
                exact Makes.of p
            · rw [Option.filter_some_neg (by simpa using hlong), if_neg fun hboth => hlong hboth.1]
              exact Makes.of p
        · rename_i himg
          rw [hother himg]
          exact Makes.of p

theorem readRaw_makes {after : List Char} (h : At text p.pos after) (bodyEnd : Nat) (hend : p.pos ≤ bodyEnd) (name : String) :
    Makes (p.readRaw text name bodyEnd) p.pos p.reading := by
  rw [readRaw]
  split
  · split
    · obtain ⟨before, rfl, hpos⟩ := h
      have hroom : Text.byteLen before ≤
          min (min bodyEnd (p.pos + maxTitleBytes)) (Text.byteLen (before ++ after)) := by
        rw [← hpos]
        refine Nat.le_min.mpr ⟨Nat.le_min.mpr ⟨hend, Nat.le_add_right _ _⟩, ?_⟩
        rw [hpos, byteLen_append]
        exact Nat.le_add_right _ _
      obtain ⟨mid, rest, -, hslice⟩ := slice_floor hroom after
      have hlater : p.pos ≤
          floorCharBoundary (before ++ after) (min (min bodyEnd (p.pos + maxTitleBytes)) (Text.byteLen (before ++ after))) := by
        rw [floorCharBoundary_append hroom, hpos]
        exact Nat.le_add_right _ _
      rw [← hpos] at hslice
      dsimp only
      rw [Nat.max_eq_left hlater, hslice]
      exact ⟨_, rfl, rfl, rfl⟩
    · exact Makes.of p
  · split
    · exact ⟨_, rfl, rfl, rfl⟩
    · exact Makes.of p

theorem skipRaw_makes {after : List Char} (h : At text p.pos after) (hname : name ∈ rawText) :
    ∃ q, p.skipRaw text name = some q ∧ q.reading = p.reading ∧ At text q.pos (pastRaw name after) := by
  have hascii : ∀ c ∈ name.toList, Utf8.isAscii c = true := by
    have hall : (rawText.all fun name => name.toList.all Utf8.isAscii) = true := by decide
    exact Utf8.ascii_of_all (List.all_eq_true.mp hall name hname)
  have hlength := h.length
  have hfound := findCloseTag_at hascii ((Utf8.bytes text).length + 1) (by omega) h
  rw [skipRaw, pastRaw, hfound]
  cases hsplit : Utf8.split (closesHere name) after with
  | none =>
    obtain ⟨q, hq, hpos, hreading⟩ := readRaw_makes h (Utf8.bytes text).length (by omega) name
    simp only [Option.map_none, Option.getD_none, hq, Option.bind_eq_bind, Option.bind_some, Option.elim_none]
    exact ⟨_, rfl, hreading, h.finish⟩
  | some cut =>
    obtain ⟨body, closing⟩ := cut
    obtain ⟨rfl, -, hcloses, -⟩ := Utf8.split_eq_some hsplit
    obtain ⟨tail, rfl⟩ := closesHere_head hcloses
    obtain ⟨q, hq, hpos, hreading⟩ := readRaw_makes h _ (Nat.le_add_right p.pos (Text.byteLen body)) name
    simp only [Option.map_some, Option.getD_some, hq, Option.bind_eq_bind, Option.bind_some, Option.elim_some,
      tagEnd_at h.past, List.tail_cons]
    cases hcut : cutTag none tail with
    | none => exact ⟨_, rfl, hreading, h.finish⟩
    | some cut =>
      obtain ⟨close, rest⟩ := cut
      rw [cutTag_some hcut] at h
      have hclosing : At text (p.pos + Text.byteLen body) (('<' :: close) ++ rest) := h.past
      exact ⟨_, rfl, hreading, hclosing.past⟩

variable (base) in
theorem openTag_raw {after : List Char} (h : At text p.pos after) (hraw : rawText.contains (nameOf raw) = true) :
    ∃ q, p.openTag text base (nameOf raw) raw false = some q ∧ q.reading = p.reading ∧
      At text q.pos (pastRaw (nameOf raw) after) := by
  have hmem := List.contains_iff_mem.mp hraw
  have hplain : ∀ name ∈ rawText, name ≠ "img" ∧ isBlock name = false := by decide
  obtain ⟨himg, hblock⟩ := hplain _ hmem
  obtain ⟨q, hq, hpos, hreading⟩ := p.readAttributes_makes base raw
  obtain ⟨hnote, hnotepos⟩ := q.noteHeading_makes (nameOf raw)
  have hsame : p.reading.pushAlt (altOf raw) = p.reading := by
    rw [altOf, if_neg himg]
    rfl
  rw [hsame] at hreading
  rw [openTag, hq]
  dsimp only [Option.bind_eq_bind, Option.bind_some]
  rw [hblock, hraw]
  obtain ⟨t, ht, htreading, htpos⟩ := skipRaw_makes (p := q.noteHeading (nameOf raw)) (by rwa [hnotepos, hpos]) hmem
  exact ⟨t, ht, htreading.trans (hnote.trans hreading), htpos⟩

variable (text base) in
theorem openTag_makes {selfClosing : Bool} (hraw : (rawText.contains (nameOf raw) && !selfClosing) = false) :
    Makes (p.openTag text base (nameOf raw) raw selfClosing) p.pos
      (((p.reading.pushAlt (altOf raw)).flushIf (isBlock (nameOf raw))).enter (nameOf raw) selfClosing) := by
  obtain ⟨q, hq, hpos, hreading⟩ := p.readAttributes_makes base raw
  obtain ⟨hnote, hnotepos⟩ := q.noteHeading_makes (nameOf raw)
  obtain ⟨hflush, hflushpos⟩ := (q.noteHeading (nameOf raw)).flushIf_makes (nameOf raw)
  rw [openTag, hq]
  dsimp only [Option.bind_eq_bind, Option.bind_some]
  rw [hraw]
  refine ⟨_, rfl, hflushpos.trans (hnotepos.trans hpos), ?_⟩
  rw [← hreading, ← hnote, ← hflush]
  rfl

theorem starts_at {rest : List Char} (h : At text p.pos rest) {mark : String}
    (hmark : ∀ c ∈ mark.toList, Utf8.isAscii c = true) :
    startsAt (Utf8.bytes text) p.pos mark = mark.toList.isPrefixOf rest := by
  rw [startsAt, h.drop, Utf8.isPrefixOf_bytes hmark]

/-- Whether a `<` opens a tag is seen at the byte behind it. -/
theorem opensTag_at {rest : List Char} (h : At text p.pos ('<' :: rest)) :
    ((Utf8.bytes text).drop p.pos)[1]?.any opensTagByte = opensTag rest := by
  have hopen : Utf8.bytes ('<' :: rest) = Utf8.byteOf '<' :: Utf8.bytes rest := by
    rw [Utf8.bytes_cons, Utf8.encode_ascii (by decide), List.singleton_append]
  rw [h.drop, hopen, List.getElem?_cons_succ, ← List.head?_eq_getElem?, opensTag]
  cases rest with
  | nil => rfl
  | cons c rest =>
    rw [List.head?_cons, Option.any_some]
    cases hc : Utf8.isAscii c with
    | true =>
      rw [Utf8.bytes_cons, Utf8.encode_ascii hc, List.singleton_append, List.head?_cons, Option.any_some]
      have hall : ∀ n < 128, opensTagByte (Utf8.byteOf (Char.ofNat n)) =
          ((Char.ofNat n).isAlpha || Char.ofNat n == '/') := by decide
      have hcode := hall c.toNat (of_decide_eq_true hc)
      rwa [Char.ofNat_toNat] at hcode
    | false =>
      obtain ⟨b, hhead, hb⟩ := Utf8.head?_bytes_cons hc rest
      have hlarge := of_decide_eq_false hc
      have hslash : b ≠ Utf8.byteOf '/' := by
        have hsmall := Utf8.byteOf_lt (c := '/') (by decide)
        rintro rfl
        omega
      have hnotSlash : c ≠ '/' := by
        rintro rfl
        cases hc
      have halpha : c.isAlpha = false := by
        rw [Bool.eq_false_iff]
        intro hletter
        have hcode := Text.code_of_isAlpha hletter
        omega
      rw [hhead, Option.any_some, opensTagByte, halpha, beq_eq_false_iff_ne.mpr hslash,
        beq_eq_false_iff_ne.mpr hnotSlash]
      simp only [Bool.or_false, Bool.or_eq_false_iff, Bool.and_eq_false_iff, decide_eq_false_iff_not]
      omega

/-- A step of the parser over a part of the page, to what is left behind it. -/
def Passes (text : List Char) (p : Parser) (result : Option Parser) (part : Token × List Char) : Prop :=
  ∃ q, result = some q ∧ At text q.pos part.2 ∧ q.reading = p.reading.take part.1

theorem passes_comment {after : List Char} (h : At text p.pos ("<!--".toList ++ after)) :
    Passes text p
      (some { p with
        pos := (findFrom (Utf8.bytes text) (p.pos + 4) "-->".toList).elim (Utf8.bytes text).length (· + 3) })
      (nextComment ("<!--".toList ++ after)) := by
  have hpast : At text (p.pos + 4) after := h.past
  have hopen : ("<!--".toList ++ after).drop 4 = after := rfl
  rw [nextComment, hopen, findFrom_at (Utf8.ascii_of_all (by decide)) (by decide) hpast]
  cases hcut : cutAt "-->".toList after with
  | none => exact ⟨_, rfl, h.finish, rfl⟩
  | some cut =>
    obtain ⟨body, rest⟩ := cut
    rw [cutAt_some hcut] at hpast
    exact ⟨_, rfl, hpast.past.past, rfl⟩

theorem passes_cdata {after : List Char} (h : At text p.pos (Token.cdataOpen ++ after)) :
    Passes text p
      ((p.pushText text (p.pos + 9)
        ((findFrom (Utf8.bytes text) (p.pos + 9) "]]>".toList).getD (Utf8.bytes text).length)).bind fun q =>
          some { q with
            pos := (findFrom (Utf8.bytes text) (p.pos + 9) "]]>".toList).elim (Utf8.bytes text).length (· + 3) })
      (nextCdata (Token.cdataOpen ++ after)) := by
  have hpast : At text (p.pos + 9) after := h.past
  have hopen : (Token.cdataOpen ++ after).drop 9 = after := rfl
  rw [nextCdata, hopen, findFrom_at (Utf8.ascii_of_all (by decide)) (by decide) hpast]
  cases hcut : cutAt "]]>".toList after with
  | none =>
    have hall : At text (p.pos + 9) (after ++ []) := by rwa [List.append_nil]
    obtain ⟨q, hq, -, hreading⟩ := p.pushText_makes hall hpast.length
    rw [Option.map_none, Option.getD_none, hq]
    exact ⟨_, rfl, h.finish, hreading⟩
  | some cut =>
    obtain ⟨body, rest⟩ := cut
    rw [cutAt_some hcut] at hpast
    obtain ⟨q, hq, -, hreading⟩ := p.pushText_makes hpast rfl
    rw [Option.map_some, Option.getD_some, hq]
    exact ⟨_, rfl, hpast.past.past, hreading⟩

theorem passes_declaration {s : List Char} (h : At text p.pos s) :
    Passes text p
      (some { p with
        pos := (Utf8.memchr '>' ((Utf8.bytes text).drop p.pos)).elim (Utf8.bytes text).length (p.pos + · + 1) })
      (nextDeclaration s) := by
  have hsame : (['>'] : List Char).isPrefixOf = fun s => s.head? == some '>' := by
    funext s
    cases s with
    | nil => rfl
    | cons c rest => simp [List.isPrefixOf_cons_cons, eq_comm]
  rw [nextDeclaration, memchr_at (by decide) h]
  cases hcut : cutAt ['>'] s with
  | none =>
    have hnone : Utf8.split (fun s => s.head? == some '>') s = none := by
      rw [← hsame]
      exact Option.map_eq_none_iff.mp hcut
    rw [hnone]
    exact ⟨_, rfl, h.finish, rfl⟩
  | some cut =>
    obtain ⟨body, rest⟩ := cut
    obtain ⟨⟨before, found⟩, hsplit, heq⟩ := Option.map_eq_some_iff.mp hcut
    obtain ⟨rfl, -⟩ := Prod.mk.inj heq
    rw [hsame] at hsplit
    rw [hsplit]
    rw [cutAt_some hcut] at h
    exact ⟨_, rfl, h.past.past, rfl⟩

theorem pastRaw_eq (opening after : List Char) : (nextRaw opening after).2 = pastRaw (nameOf opening) after := by
  rw [nextRaw, pastRaw]
  cases Utf8.split (closesHere (nameOf opening)) after with
  | none => rfl
  | some cut =>
    obtain ⟨body, closing⟩ := cut
    dsimp only
    cases cutTag none closing.tail <;> rfl

theorem take_raw (r : Reading) (opening after : List Char) : r.take (nextRaw opening after).1 = r := by
  rw [nextRaw]
  split
  · rfl
  · split <;> rfl

variable (base) in
theorem passes_tag {rest : List Char} (h : At text p.pos ('<' :: rest)) :
    Passes text p (p.consumeTag text base) (nextTag rest) := by
  rw [consumeTag, nextTag, tagEnd_at h]
  cases hcut : cutTag none rest with
  | none => exact ⟨_, rfl, h.finish, rfl⟩
  | some cut =>
    obtain ⟨inner, after⟩ := cut
    rw [cutTag_some hcut, ← List.cons_append] at h
    obtain ⟨name, hname⟩ := tagName_total ('<' :: inner)
    have hnameOf : nameOf ('<' :: inner) = name := by rw [nameOf, hname, Option.getD_some]
    have hpast := h.past
    simp only [Option.map_some, h.slice, Option.bind_eq_bind, Option.bind_some, hname]
    rw [← hnameOf]
    split
    · rename_i hempty
      have hplain : opensRaw ('<' :: inner) = false := by
        have hnone : rawText.contains "" = false := by decide
        rw [opensRaw, hempty, hnone, Bool.and_false, Bool.false_and]
      rw [hplain]
      refine ⟨_, rfl, hpast, ?_⟩
      show p.reading = p.reading.tag ('<' :: inner)
      rw [Reading.tag]
      exact (if_pos hempty).symm
    · rename_i hsome
      have htag (r : Reading) : r.tag ('<' :: inner) =
          if isClosing ('<' :: inner) then
            (r.flushIf (isBlock (nameOf ('<' :: inner)))).leave (nameOf ('<' :: inner))
          else ((r.pushAlt (altOf ('<' :: inner))).flushIf (isBlock (nameOf ('<' :: inner)))).enter
            (nameOf ('<' :: inner)) (isSelfClosing ('<' :: inner)) := if_neg hsome
      split
      · rename_i hclosing
        have hplain : opensRaw ('<' :: inner) = false := by
          rw [opensRaw, isClosing, hclosing, Bool.not_true, Bool.false_and, Bool.false_and]
        obtain ⟨q, hq, hpos, hreading⟩ := closeTag_makes
          { p with pos := p.pos + Text.byteLen ('<' :: inner) } (nameOf ('<' :: inner))
        rw [hplain]
        refine ⟨q, hq, by rwa [hpos], ?_⟩
        show q.reading = p.reading.tag ('<' :: inner)
        rw [htag, isClosing, if_pos hclosing]
        exact hreading
      · rename_i hopening
        rw [Bool.not_eq_true] at hopening
        cases hraw : opensRaw ('<' :: inner) with
        | true =>
          rw [opensRaw, Bool.and_eq_true, Bool.and_eq_true] at hraw
          obtain ⟨⟨-, hmem⟩, hself⟩ := hraw
          rw [Bool.not_eq_true'] at hself
          obtain ⟨q, hq, hreading, hat⟩ := openTag_raw base
            (p := { p with pos := p.pos + Text.byteLen ('<' :: inner) }) hpast hmem
          rw [isSelfClosing] at hself
          rw [hself]
          refine ⟨q, hq, ?_, ?_⟩
          · rw [if_pos rfl, pastRaw_eq]
            exact hat
          · rw [if_pos rfl, take_raw]
            exact hreading
        | false =>
          have hnot : (rawText.contains (nameOf ('<' :: inner)) && !isSelfClosing ('<' :: inner)) = false := by
            rwa [opensRaw, isClosing, hopening, Bool.not_false, Bool.true_and] at hraw
          obtain ⟨q, hq, hpos, hreading⟩ := openTag_makes text base
            (p := { p with pos := p.pos + Text.byteLen ('<' :: inner) }) hnot
          refine ⟨q, hq, by rwa [hpos], ?_⟩
          show q.reading = p.reading.tag ('<' :: inner)
          rw [htag, isClosing, hopening, if_neg Bool.false_ne_true]
          exact hreading

variable (base) in
theorem passes_markup {rest : List Char} (h : At text p.pos ('<' :: rest)) :
    Passes text p (p.consumeMarkup text base) (nextMarkup ('<' :: rest) rest) := by
  have hmark {mark : String} (hmem : mark ∈ ["<!--", "<![CDATA[", "<!", "<?"]) :
      startsAt (Utf8.bytes text) p.pos mark = mark.toList.isPrefixOf ('<' :: rest) := by
    have hascii : (["<!--", "<![CDATA[", "<!", "<?"].all fun mark => mark.toList.all Utf8.isAscii) = true := by decide
    exact starts_at h (Utf8.ascii_of_all (List.all_eq_true.mp hascii mark hmem))
  have hcomment : startsAt (Utf8.bytes text) p.pos "<!--" = "<!--".toList.isPrefixOf ('<' :: rest) :=
    hmark (by decide)
  have hcdata : startsAt (Utf8.bytes text) p.pos "<![CDATA[" = Token.cdataOpen.isPrefixOf ('<' :: rest) :=
    hmark (by decide)
  have hdeclaration : startsAt (Utf8.bytes text) p.pos "<!" = "<!".toList.isPrefixOf ('<' :: rest) :=
    hmark (by decide)
  have hquestion : startsAt (Utf8.bytes text) p.pos "<?" = "<?".toList.isPrefixOf ('<' :: rest) :=
    hmark (by decide)
  have htag := opensTag_at h
  simp only [consumeMarkup, hcomment, hcdata, hdeclaration, hquestion, htag, nextMarkup]
  split
  · rename_i hstarts
    obtain ⟨after, hafter⟩ := List.isPrefixOf_iff_prefix.mp hstarts
    rw [← hafter] at h ⊢
    exact passes_comment h
  · split
    · rename_i hstarts
      obtain ⟨after, hafter⟩ := List.isPrefixOf_iff_prefix.mp hstarts
      rw [← hafter] at h ⊢
      exact passes_cdata h
    · split
      · exact passes_declaration h
      · split
        · exact passes_tag base h
        · have hlone : At text p.pos (['<'] ++ rest) := h
          have hstop : p.pos + 1 = p.pos + Text.byteLen ['<'] := rfl
          obtain ⟨q, hq, hpos, hreading⟩ := p.pushText_makes hlone hstop
          have hat : At text (q.pos + 1) rest := by
            rw [hpos]
            exact hlone.past
          rw [hq]
          exact ⟨_, rfl, hat, hreading⟩

end Parser

/-- A page without markup is one text. -/
theorem lex_text {s : List Char} (hs : s ≠ []) (h : Utf8.split (fun s => s.head? == some '<') s = none) :
    lex s = [.text s] := by
  have hnone : ∀ c ∈ s, (decide (c ≠ '<')) = true := by
    intro c hc
    obtain ⟨before, after, rfl⟩ := List.append_of_mem hc
    have hnot := Utf8.split_eq_none h (List.cons_ne_nil c after) (List.suffix_append _ _)
    rw [List.head?_cons, beq_eq_false_iff_ne] at hnot
    rw [decide_eq_true_iff]
    rintro rfl
    exact hnot rfl
  have hnext : next s = (.text s, []) := by
    unfold next
    split
    · rename_i rest
      exact absurd (hnone '<' List.mem_cons_self) (by decide)
    · rw [List.takeWhile_eq_self_iff.mpr hnone, List.dropWhile_eq_nil_iff.mpr hnone]
  rw [lex_of_ne_nil hs, hnext]
  rfl

/-- The text before the markup is a part if there is any. -/
theorem lex_before {before after : List Char}
    (h : ∀ tail, tail ≠ [] → tail <:+ before → ((tail ++ '<' :: after).head? == some '<') = false) :
    lex (before ++ '<' :: after) = (if before = [] then [] else [.text before]) ++ lex ('<' :: after) := by
  split
  · rename_i hempty
    rw [hempty]
    rfl
  · rename_i hsome
    have hnone : ∀ c ∈ before, (decide (c ≠ '<')) = true := by
      intro c hc
      obtain ⟨front, tail, rfl⟩ := List.append_of_mem hc
      have hnot := h (c :: tail) (List.cons_ne_nil c tail) (List.suffix_append _ _)
      rw [List.cons_append, List.head?_cons, beq_eq_false_iff_ne] at hnot
      rw [decide_eq_true_iff]
      rintro rfl
      exact hnot rfl
    have hnext : next (before ++ '<' :: after) = (.text before, '<' :: after) := by
      unfold next
      split
      · rename_i rest heq
        obtain ⟨c, more, rfl⟩ := List.exists_cons_of_ne_nil hsome
        have hc := hnone c List.mem_cons_self
        rw [(List.cons.inj heq).1] at hc
        exact absurd hc (by decide)
      · rw [List.takeWhile_append_of_pos hnone, List.dropWhile_append_of_pos hnone,
          List.takeWhile_cons_of_neg (by decide), List.dropWhile_cons_of_neg (by decide), List.append_nil]
    rw [lex_of_ne_nil (by simp), hnext]
    rfl

namespace Parser

variable {text : List Char} {base : Option (List Char)} {p : Parser}

/-- The parser ends on every page, and reads it part by part. -/
theorem run_makes {rest : List Char} (h : At text p.pos rest) {fuel : Nat} (hfuel : rest.length < fuel) :
    ∃ q, run text base fuel p = some q ∧ q.reading = ((lex rest).foldl Reading.take p.reading).flush := by
  induction fuel generalizing p rest with
  | zero => omega
  | succ fuel ih =>
    have hlength := h.length
    rw [run]
    dsimp only
    split
    · rename_i hmore
      rw [memchr_at (by decide) h]
      have hsome : rest ≠ [] := by
        rintro rfl
        rw [hlength] at hmore
        exact Nat.lt_irrefl _ hmore
      cases hsplit : Utf8.split (fun s => s.head? == some '<') rest with
      | none =>
        have hall : At text p.pos (rest ++ []) := by rwa [List.append_nil]
        obtain ⟨q, hq, -, hreading⟩ := p.pushText_makes hall hlength
        rw [Option.map_none]
        simp only [hq, Option.bind_eq_bind, Option.bind_some]
        refine ⟨_, rfl, ?_⟩
        rw [q.flushBlock_makes.1, hreading, lex_text hsome hsplit]
        rfl
      | some cut =>
        obtain ⟨before, found⟩ := cut
        obtain ⟨rfl, hfound, hlt, hearlier⟩ := Utf8.split_eq_some hsplit
        obtain ⟨after, rfl⟩ : ∃ after, found = '<' :: after := by
          obtain ⟨c, after, rfl⟩ := List.exists_cons_of_ne_nil hfound
          exact ⟨after, by rw [Option.some_inj.mp (eq_of_beq hlt)]⟩
        -- the text before the markup
        obtain ⟨q, hq, hqpos, hqreading⟩ :
            Makes (if p.pos < p.pos + Text.byteLen before then p.pushText text p.pos (p.pos + Text.byteLen before)
              else some p) p.pos (p.reading.push before) := by
          split
          · exact p.pushText_makes h rfl
          · rename_i hnone
            have hempty : before = [] := by
              by_contra hne
              have hpos := byteLen_pos hne
              omega
            rw [Reading.push, if_pos (.inr hempty)]
            exact Makes.of p
        have hmarkup : At text ({ q with pos := p.pos + Text.byteLen before } : Parser).pos ('<' :: after) := h.past
        obtain ⟨t, ht, htat, htreading⟩ := passes_markup base hmarkup
        have hless : (nextMarkup ('<' :: after) after).2.length < ('<' :: after).length := length_next hfound
        rw [List.length_append] at hfuel
        obtain ⟨u, hu, hureading⟩ := ih htat (by omega)
        simp only [Option.map_some, hq, Option.bind_eq_bind, Option.bind_some, ht]
        refine ⟨u, hu, ?_⟩
        have hnext : lex ('<' :: after) =
            (nextMarkup ('<' :: after) after).1 :: lex (nextMarkup ('<' :: after) after).2 := lex_of_ne_nil hfound
        have hbefore : (if before = [] then [] else [Token.text before]).foldl Reading.take p.reading =
            p.reading.push before := by
          split
          · rename_i hempty
            rw [Reading.push, if_pos (.inr hempty)]
            rfl
          · rfl
        rw [hureading, htreading, lex_before hearlier, List.foldl_append, hbefore, hnext, List.foldl_cons, ← hqreading]
        rfl
    · rename_i hend
      have hnil : rest = [] := by
        by_contra hsome
        have hpos := byteLen_pos hsome
        omega
      subst hnil
      exact ⟨_, rfl, p.flushBlock_makes.1⟩

end Parser

/-- Every page is parsed, to what its parts make one after another. -/
theorem parse_makes (text : List Char) (base : Option (List Char)) :
    ∃ p, parse text base = some p ∧ p.reading = ((lex text).foldl Reading.take Reading.new).flush :=
  Parser.run_makes (At.start text) (Nat.lt_succ_self _)

end MarloweAgent.Extract.Html
