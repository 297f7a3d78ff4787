import MarloweAgent.Provider.Think

/-! A text cut into chunks anywhere. The splitter's work on a chunk is to hear the tokens that
no later text can change and to keep back the rest, so what it has heard never depends on the
cuts. What depends on them is what a stray closing tag takes back: what was passed on earlier
moves to the reasoning, and what was said in the same chunk is dropped. -/

namespace MarloweAgent.Provider
open Library

/-! ## What a text says -/

abbrev Token := Tags.Token Char Bool

/-- The characters outside the tags, each with whether it stands inside a block. -/
def label (inside : Bool) : List Token → List (Bool × Char)
  | [] => []
  | .plain c :: rest => (inside, c) :: label inside rest
  | .tag opening :: rest => label opening rest

/-- Whether a closing tag stands outside a block after something was said outside every block. -/
def strays (inside spoke : Bool) : List Token → Bool
  | [] => false
  | .plain _ :: rest => strays inside (spoke || !inside) rest
  | .tag true :: rest => strays true spoke rest
  | .tag false :: rest => (!inside && spoke) || strays false spoke rest

def textOf (labelled : List (Bool × Char)) (inside : Bool) : List Char :=
  (labelled.filter (·.1 = inside)).map (·.2)

/-- The text inside the blocks, and the text outside them. -/
def inBlocks (text : List Char) : List Char := textOf (label false (Tags.reading thinkTags text)) true

def outOfBlocks (text : List Char) : List Char := textOf (label false (Tags.reading thinkTags text)) false

/-- The characters outside the tags. -/
def outsideTags (text : List Char) : List Char :=
  (Tags.reading thinkTags text).filterMap Tags.Token.plain?

/-- What the splitter knows and has passed on after some tokens of a chunk. -/
structure Ear where
  inside : Bool
  spoke : Bool
  retracted : Bool
  out : List (Bool × Char)

def Ear.hear (e : Ear) : Token → Ear
  | .plain c => { e with spoke := e.spoke || !e.inside, out := e.out ++ [(e.inside, c)] }
  | .tag true => { e with inside := true }
  | .tag false =>
    if !e.inside && e.spoke then
      { inside := false, spoke := false, retracted := true, out := e.out.filter (·.1) }
    else { e with inside := false }

def Segment.labelled : Segment → List (Bool × Char)
  | .reasoning text => text.map (true, ·)
  | .speech text => text.map (false, ·)

def Split.labelled (split : Split) : List (Bool × Char) := split.segments.flatMap Segment.labelled

def ear (result : ThinkSplitter × Split) : Ear :=
  { inside := result.1.inside
    spoke := result.1.spoke
    retracted := result.2.retractSpeech
    out := result.2.labelled }

theorem foldl_hear_plain (e : Ear) (text : List Char) :
    (text.map Tags.Token.plain).foldl Ear.hear e =
      { e with
        spoke := e.spoke || (!e.inside && !text.isEmpty)
        out := e.out ++ text.map (e.inside, ·) } := by
  induction text generalizing e with
  | nil => simp
  | cons c text ih =>
    rw [List.map_cons, List.foldl_cons, ih]
    obtain ⟨inside, spoke, retracted, out⟩ := e
    cases inside <;> simp [Ear.hear]

theorem ear_push (s : ThinkSplitter) (split : Split) (text : List Char) :
    ear (s.push split text) = (text.map Tags.Token.plain).foldl Ear.hear (ear (s, split)) := by
  rw [foldl_hear_plain]
  unfold ThinkSplitter.push
  split
  next hnil => simp [hnil, ear]
  next hne =>
    split
    next hinside => simp [ear, hinside, Split.labelled, Segment.labelled]
    next hinside => simp [ear, hinside, Split.labelled, Segment.labelled, hne]

theorem ear_turn (s : ThinkSplitter) (split : Split) (opening : Bool) :
    ear (s.turn split opening) = (ear (s, split)).hear (.tag opening) := by
  have hlabel : ∀ segments : List Segment,
      (segments.filter Segment.isReasoning).flatMap Segment.labelled =
        (segments.flatMap Segment.labelled).filter (·.1) := by
    intro segments
    induction segments with
    | nil => rfl
    | cons segment segments ih =>
      cases segment with
      | reasoning text =>
        rw [List.filter_cons_of_pos rfl]
        simp [Segment.labelled, ih, List.filter_map, Function.comp_def]
      | speech text =>
        rw [List.filter_cons_of_neg (by simp [Segment.isReasoning])]
        simp [Segment.labelled, ih, List.filter_map, Function.comp_def]
  cases opening with
  | true => rfl
  | false =>
    by_cases h : (!s.inside && s.spoke) = true
    · simp [ThinkSplitter.turn, Ear.hear, ear, h, Split.labelled, hlabel]
    · simp [ThinkSplitter.turn, Ear.hear, ear, h, Split.labelled]

@[simp] theorem push_pending (s : ThinkSplitter) (split : Split) (text : List Char) :
    (s.push split text).1.pending = s.pending := by
  unfold ThinkSplitter.push
  split
  · rfl
  · split <;> rfl

@[simp] theorem turn_pending (s : ThinkSplitter) (split : Split) (opening : Bool) :
    (s.turn split opening).1.pending = s.pending := by
  unfold ThinkSplitter.turn
  split
  · rfl
  · split <;> rfl

/-- One run of the loop hears the tokens of its buffer that no later text can change, and
keeps back the rest. -/
theorem consume_spec (s : ThinkSplitter) (split : Split) (rest : List Char) (hpending : s.pending = []) :
    ∃ tokens, (∀ more, Tags.reading thinkTags (rest ++ more) =
        tokens ++ Tags.reading thinkTags ((s.consume split rest).1.pending ++ more)) ∧
      ear (s.consume split rest) = tokens.foldl Ear.hear (ear (s, split)) ∧
      ∀ i, Tags.tagAt thinkTags ((s.consume split rest).1.pending.drop i) = none := by
  fun_induction ThinkSplitter.consume s split rest with
  | case1 s split => exact ⟨[], fun more => by simp [hpending], rfl, fun i => by
      rw [hpending, List.drop_nil]
      rfl⟩
  | case2 s split rest hrest pos len opening htag s₁ split₁ hpush s₂ split₂ hturn ih =>
    obtain ⟨⟨word, htagAt, hlen⟩, hbefore⟩ := tagAt_of_nextTag_some htag
    subst hlen
    have hs₁ := push_pending { s with sawTag := true } split (rest.take pos)
    have hs₂ := turn_pending s₁ split₁ opening
    rw [hpush] at hs₁
    rw [hturn, hs₁] at hs₂
    obtain ⟨tokens, hreading, hear, hheld⟩ := ih (hs₂.trans hpending)
    refine ⟨(rest.take pos).map .plain ++ .tag opening :: tokens, fun more => ?_, ?_, hheld⟩
    · rw [thinkTags_legible.reading_append_of_tag hbefore htagAt, hreading]
      simp
    · have hear₁ := ear_push { s with sawTag := true } split (rest.take pos)
      rw [hpush] at hear₁
      rw [hear, List.foldl_append, List.foldl_cons, ← hturn, ear_turn, hear₁]
      rfl
  | case3 s split rest hrest htag keep s₁ split₁ hpush =>
    have hnone := tagAt_of_nextTag_none htag
    refine ⟨(rest.take (rest.length - keep)).map .plain, fun more => ?_, ?_, ?_⟩
    · exact thinkTags_legible.reading_append_of_no_tag (Nat.sub_le ..) hnone (partialTagFrom_spec rest) more
    · have hear₁ := ear_push s split (rest.take (rest.length - keep))
      rw [hpush] at hear₁
      exact hear₁
    · intro i
      rw [List.drop_drop]
      exact hnone _

theorem labelled_receive (c : Channels) (split : Split) :
    c.receive split =
      { reasoning := (if split.retractSpeech then c.reasoning ++ c.speech else c.reasoning) ++
          textOf split.labelled true
        speech := (if split.retractSpeech then [] else c.speech) ++ textOf split.labelled false } := by
  have hfold : ∀ (segments : List Segment) (c : Channels), segments.foldl Channels.add c =
      { reasoning := c.reasoning ++ textOf (segments.flatMap Segment.labelled) true
        speech := c.speech ++ textOf (segments.flatMap Segment.labelled) false } := by
    intro segments
    induction segments with
    | nil =>
      intro c
      simp [textOf]
    | cons segment segments ih =>
      intro c
      rw [List.foldl_cons, ih]
      cases segment <;>
        simp [Channels.add, Segment.labelled, textOf, List.filter_map, Function.comp_def]
  unfold Channels.receive
  rw [hfold]
  split <;> rfl

@[simp] theorem textOf_append (a b : List (Bool × Char)) (inside : Bool) :
    textOf (a ++ b) inside = textOf a inside ++ textOf b inside := by
  simp [textOf]

/-! ## A text whose closing tags all close something -/

/-- Without a stray closing tag everything outside the tags is passed on under its label. -/
theorem foldl_hear_of_not_strays {e : Ear} {tokens : List Token}
    (h : strays e.inside e.spoke tokens = false) :
    (tokens.foldl Ear.hear e).retracted = e.retracted ∧
      (tokens.foldl Ear.hear e).out = e.out ++ label e.inside tokens := by
  induction tokens generalizing e with
  | nil => simp [label]
  | cons token tokens ih =>
    rw [List.foldl_cons]
    match token with
    | .plain c =>
      obtain ⟨hretracted, hout⟩ := ih (e := e.hear (.plain c)) h
      exact ⟨hretracted, by rw [hout]; simp [Ear.hear, label]⟩
    | .tag true => exact ih (e := e.hear (.tag true)) h
    | .tag false =>
      simp only [strays, Bool.or_eq_false_iff] at h
      have hhear : e.hear (.tag false) = { e with inside := false } := by
        show (if _ then _ else _) = _
        rw [h.1]
        rfl
      rw [hhear]
      exact ih (e := { e with inside := false }) h.2

/-- The tokens that come later start from where the earlier ones end. -/
theorem strays_append {e : Ear} {a b : List Token} (h : strays e.inside e.spoke (a ++ b) = false) :
    strays e.inside e.spoke a = false ∧
      strays (a.foldl Ear.hear e).inside (a.foldl Ear.hear e).spoke b = false ∧
      label e.inside (a ++ b) = label e.inside a ++ label (a.foldl Ear.hear e).inside b := by
  induction a generalizing e with
  | nil => exact ⟨rfl, h, rfl⟩
  | cons token a ih =>
    rw [List.foldl_cons]
    match token with
    | .plain c =>
      obtain ⟨ha, hb, hlabel⟩ := ih (e := e.hear (.plain c)) h
      exact ⟨ha, hb, congrArg ((e.inside, c) :: ·) hlabel⟩
    | .tag true => exact ih (e := e.hear (.tag true)) h
    | .tag false =>
      simp only [List.cons_append, strays, Bool.or_eq_false_iff] at h ⊢
      have hhear : e.hear (.tag false) = { e with inside := false } := by
        show (if _ then _ else _) = _
        rw [h.1]
        rfl
      rw [hhear]
      obtain ⟨ha, hb, hlabel⟩ := ih (e := { e with inside := false }) h.2
      exact ⟨⟨h.1, ha⟩, hb, hlabel⟩

theorem label_plain (inside : Bool) (text : List Char) :
    label inside (text.map Tags.Token.plain) = text.map (inside, ·) := by
  induction text with
  | nil => rfl
  | cons c text ih => simp [label, ih]

/-- However the rest of a text is cut, it is heard under its labels. -/
theorem heardFrom_of_not_strays (s : ThinkSplitter) (c : Channels) (chunks : List (List Char))
    (hheld : ∀ i, Tags.tagAt thinkTags (s.pending.drop i) = none)
    (h : strays s.inside s.spoke (Tags.reading thinkTags (s.pending ++ chunks.flatten)) = false) :
    heardFrom s c chunks =
      { reasoning := c.reasoning ++
          textOf (label s.inside (Tags.reading thinkTags (s.pending ++ chunks.flatten))) true
        speech := c.speech ++
          textOf (label s.inside (Tags.reading thinkTags (s.pending ++ chunks.flatten))) false } := by
  induction chunks generalizing s c with
  | nil =>
    have hear := ear_push { s with pending := [] } {} s.pending
    rw [foldl_hear_plain] at hear
    have hout : s.finish.2.labelled = s.pending.map (s.inside, ·) := congrArg Ear.out hear
    have hretract : s.finish.2.retractSpeech = false := congrArg Ear.retracted hear
    rw [heardFrom, labelled_receive, hout, hretract, List.flatten_nil, List.append_nil,
      Tags.reading_of_no_tag hheld, label_plain]
    rfl
  | cons chunk chunks ih =>
    obtain ⟨tokens, hreading, hear, hrest⟩ :=
      consume_spec { s with pending := [] } {} (s.pending ++ chunk) rfl
    -- The chunk is heard from `e`, and the chunks after it from where that leads.
    let e : Ear := ear ({ s with pending := [] }, {})
    have htext : Tags.reading thinkTags (s.pending ++ (chunk :: chunks).flatten) =
        tokens ++ Tags.reading thinkTags ((s.feed chunk).1.pending ++ chunks.flatten) := by
      rw [List.flatten_cons, ← List.append_assoc]
      exact hreading chunks.flatten
    have hafter : ear (s.feed chunk) = tokens.foldl Ear.hear e := hear
    rw [htext] at h ⊢
    obtain ⟨hnow, hlater, hlabel⟩ := strays_append (e := e) h
    obtain ⟨hretracted, hout⟩ := foldl_hear_of_not_strays hnow
    rw [← hafter] at hlater hlabel hretracted hout
    have hlabelled : (s.feed chunk).2.labelled = label s.inside tokens := hout
    have hretract : (s.feed chunk).2.retractSpeech = false := hretracted
    rw [heardFrom, ih (s.feed chunk).1 _ hrest hlater, labelled_receive, hlabelled, hretract]
    show _ = (⟨c.reasoning ++ textOf (label e.inside _) true, c.speech ++ textOf (label e.inside _) false⟩ :
      Channels)
    rw [hlabel]
    simp [ear, e]

theorem heard_of_not_strays {chunks : List (List Char)}
    (h : strays false false (Tags.reading thinkTags chunks.flatten) = false) :
    heard chunks = { reasoning := inBlocks chunks.flatten, speech := outOfBlocks chunks.flatten } := by
  have hheard := heardFrom_of_not_strays {} {} chunks (fun i => by rw [List.drop_nil]; rfl) h
  simpa [heard, inBlocks, outOfBlocks] using hheard

/-! ## A stray closing tag -/

theorem outsideTags_plain (text : List Char) :
    (text.map Tags.Token.plain : List Token).filterMap Tags.Token.plain? = text := by
  induction text with
  | nil => rfl
  | cons c text ih => simpa [Tags.Token.plain?] using ih

theorem filterMap_tag (opening : Bool) (tokens : List Token) :
    (.tag opening :: tokens).filterMap Tags.Token.plain? = tokens.filterMap Tags.Token.plain? := rfl

theorem length_filterMap_plain (c : Char) (tokens : List Token) :
    ((.plain c :: tokens).filterMap Tags.Token.plain?).length =
      (tokens.filterMap Tags.Token.plain?).length + 1 := rfl

theorem length_foldl_hear_le (e : Ear) (tokens : List Token) :
    (tokens.foldl Ear.hear e).out.length ≤
      e.out.length + (tokens.filterMap Tags.Token.plain?).length := by
  induction tokens generalizing e with
  | nil => simp
  | cons token tokens ih =>
    rw [List.foldl_cons]
    refine (ih (e.hear token)).trans ?_
    match token with
    | .plain c =>
      rw [length_filterMap_plain]
      simp only [Ear.hear, List.length_append, List.length_singleton]
      omega
    | .tag true =>
      rw [filterMap_tag]
      exact Nat.le_refl _
    | .tag false =>
      have hfilter := List.length_filter_le (·.1) e.out
      rw [filterMap_tag]
      by_cases h : (!e.inside && e.spoke) = true
      · simp only [Ear.hear, h, if_true]
        omega
      · simp [Ear.hear, h]

/-- What was spoken in the chunk before a stray closing tag is gone. -/
theorem length_foldl_hear_lt {e : Ear} {tokens : List Token}
    (h : strays e.inside e.spoke tokens = true) (hspoke : e.spoke = true → ∃ x ∈ e.out, x.1 = false) :
    (tokens.foldl Ear.hear e).out.length <
      e.out.length + (tokens.filterMap Tags.Token.plain?).length := by
  induction tokens generalizing e with
  | nil => cases h
  | cons token tokens ih =>
    rw [List.foldl_cons]
    match token with
    | .plain c =>
      have hstep : (e.hear (.plain c)).spoke = true → ∃ x ∈ (e.hear (.plain c)).out, x.1 = false := by
        intro hspoken
        cases hinside : e.inside with
        | false => exact ⟨(e.inside, c), List.mem_append_right _ (by simp), hinside⟩
        | true =>
          obtain ⟨x, hx, hfalse⟩ := hspoke (by simpa [Ear.hear, hinside] using hspoken)
          exact ⟨x, List.mem_append_left _ hx, hfalse⟩
      have hrest := ih (e := e.hear (.plain c)) h hstep
      have hsize : (e.hear (.plain c)).out.length = e.out.length + 1 := by simp [Ear.hear]
      rw [length_filterMap_plain]
      omega
    | .tag true =>
      rw [filterMap_tag]
      exact ih (e := e.hear (.tag true)) h hspoke
    | .tag false =>
      rw [filterMap_tag]
      by_cases hstray : (!e.inside && e.spoke) = true
      · obtain ⟨x, hx, hfalse⟩ := hspoke (Bool.and_eq_true_iff.mp hstray).2
        have hgone : (e.out.filter (·.1)).length < e.out.length :=
          List.length_filter_lt_length_iff_exists.mpr ⟨x, hx, by simp [hfalse]⟩
        have hrest := length_foldl_hear_le (e.hear (.tag false)) tokens
        have hhear : (e.hear (.tag false)).out = e.out.filter (·.1) := by simp [Ear.hear, hstray]
        rw [hhear] at hrest
        omega
      · have hhear : e.hear (.tag false) = { e with inside := false } := by simp [Ear.hear, hstray]
        rw [hhear]
        have hlater : strays false e.spoke tokens = true := by simpa [strays, hstray] using h
        exact ih (e := { e with inside := false }) hlater hspoke

/-! ## Every way of cutting a text -/

def thinkWords : List (List Char) := openTags ++ closeTags

/-- What a stream of chunks promises: it is heard as the one chunk would be, no tag is heard,
and the characters outside the tags are dealt out, in order, to the two channels. -/
structure Faithful (chunks : List (List Char)) : Prop where
  same : heard chunks = heard [chunks.flatten]
  no_tag : ∀ word ∈ thinkWords, ¬word <:+: (heard chunks).reasoning ∧ ¬word <:+: (heard chunks).speech
  dealt : ∃ labelled : List (Bool × Char), labelled.map (·.2) = outsideTags chunks.flatten ∧
    textOf labelled true = (heard chunks).reasoning ∧ textOf labelled false = (heard chunks).speech

/-- A text whose closing tags outside a block come before anything is said outside every
block, and which without its tags has no tag in it, neither inside the blocks nor outside. -/
def Orderly (text : List Char) : Prop :=
  strays false false (Tags.reading thinkTags text) = false ∧
    ∀ word ∈ thinkWords, ¬word <:+: inBlocks text ∧ ¬word <:+: outOfBlocks text

instance (text : List Char) : Decidable (Orderly text) := inferInstanceAs (Decidable (_ ∧ _))

theorem map_label (inside : Bool) (tokens : List Token) :
    (label inside tokens).map (·.2) = tokens.filterMap Tags.Token.plain? := by
  induction tokens generalizing inside with
  | nil => rfl
  | cons token tokens ih =>
    cases token with
    | plain c => exact congrArg (c :: ·) (ih inside)
    | tag opening => exact ih opening

theorem length_textOf (labelled : List (Bool × Char)) :
    (textOf labelled true).length + (textOf labelled false).length = labelled.length := by
  induction labelled with
  | nil => rfl
  | cons x labelled ih =>
    obtain ⟨inside, c⟩ := x
    cases inside <;> simp [textOf] at ih ⊢ <;> omega

theorem strays_append_plain (inside spoke : Bool) (tokens : List Token) (text : List Char) :
    strays inside spoke (tokens ++ text.map Tags.Token.plain) = strays inside spoke tokens := by
  induction tokens generalizing inside spoke with
  | nil =>
    induction text generalizing spoke with
    | nil => rfl
    | cons c text ih => exact ih (spoke || !inside)
  | cons token tokens ih =>
    match token with
    | .plain c => exact ih _ _
    | .tag true => exact ih _ _
    | .tag false => exact congrArg ((!inside && spoke) || ·) (ih _ _)

theorem length_receive (c : Channels) (split : Split) (h : split.retractSpeech = true → c.speech = []) :
    (c.receive split).reasoning.length + (c.receive split).speech.length =
      c.reasoning.length + c.speech.length + split.labelled.length := by
  have hsize := length_textOf split.labelled
  rw [labelled_receive]
  split
  next hretract =>
    rw [h hretract]
    simp
    omega
  next =>
    simp
    omega

/-- In one chunk a stray closing tag loses text. -/
theorem heard_loses {text : List Char} (h : strays false false (Tags.reading thinkTags text) = true) :
    (heard [text]).reasoning.length + (heard [text]).speech.length < (outsideTags text).length := by
  obtain ⟨tokens, hreading, hear, hrest⟩ := consume_spec {} {} text rfl
  have hfeed : ear (ThinkSplitter.feed {} text) = tokens.foldl Ear.hear (ear ({}, {})) := hear
  let s : ThinkSplitter := (ThinkSplitter.feed {} text).1
  have htext : Tags.reading thinkTags text = tokens ++ s.pending.map Tags.Token.plain := by
    have hall := hreading []
    rw [List.append_nil, List.append_nil, Tags.reading_of_no_tag hrest] at hall
    exact hall
  rw [htext, strays_append_plain] at h
  have hless := length_foldl_hear_lt (e := ear ({}, {})) h fun hspoke => by cases hspoke
  rw [← hfeed] at hless
  have hfinish := ear_push { s with pending := [] } {} s.pending
  rw [foldl_hear_plain] at hfinish
  have hout : s.finish.2.labelled = s.pending.map (s.inside, ·) := congrArg Ear.out hfinish
  have hretract : s.finish.2.retractSpeech = false := congrArg Ear.retracted hfinish
  have hheard : heard [text] =
      (Channels.receive {} (ThinkSplitter.feed {} text).2).receive s.finish.2 := rfl
  have hlast := length_receive (Channels.receive {} (ThinkSplitter.feed {} text).2) s.finish.2
    fun h => by rw [hretract] at h; cases h
  have hfirst := length_receive {} (ThinkSplitter.feed {} text).2 fun _ => rfl
  rw [hheard, hlast, hfirst, hout, List.length_map, outsideTags, htext, List.filterMap_append,
    outsideTags_plain, List.length_append]
  have hnone : (ear (({} : ThinkSplitter), ({} : Split))).out.length = 0 := rfl
  have hsame : (ThinkSplitter.feed {} text).2.labelled.length =
      (ear (ThinkSplitter.feed {} text)).out.length := rfl
  rw [hnone] at hless
  simp only [List.length_nil]
  omega

/-- Cutting a text is harmless exactly where the text is orderly. -/
theorem faithful_iff (chunks : List (List Char)) : Faithful chunks ↔ Orderly chunks.flatten := by
  constructor
  · rintro ⟨hsame, hnone, labelled, hdealt, hreasoning, hspeech⟩
    have hstrays : strays false false (Tags.reading thinkTags chunks.flatten) = false := by
      cases hs : strays false false (Tags.reading thinkTags chunks.flatten) with
      | false => rfl
      | true =>
        have hless := heard_loses hs
        have hsize := length_textOf labelled
        have hcount := congrArg List.length hdealt
        rw [← hsame, ← hreasoning, ← hspeech, ← hcount, List.length_map] at hless
        omega
    rw [heard_of_not_strays hstrays] at hnone
    exact ⟨hstrays, hnone⟩
  · rintro ⟨hstrays, hnone⟩
    have hheard := heard_of_not_strays hstrays
    have hone : heard [chunks.flatten] = _ := heard_of_not_strays (by simpa using hstrays)
    refine ⟨?_, ?_, label false (Tags.reading thinkTags chunks.flatten), map_label .., ?_, ?_⟩
    · rw [hheard, hone]
      simp
    · rw [hheard]
      exact hnone
    · rw [hheard]
      rfl
    · rw [hheard]
      rfl

/-- What was said in the same chunk as the closing tag is neither speech nor reasoning. -/
theorem reasoning_swallowed :
    heard ["Let me think.</think>Yes.".toList] = ⟨[], "Yes.".toList⟩ ∧
      heard ["Let me think.".toList, "</think>Yes.".toList] = ⟨"Let me think.".toList, "Yes.".toList⟩ ∧
      ¬Faithful ["Let me think.".toList, "</think>Yes.".toList] := by
  refine ⟨by decide +kernel, by decide +kernel, fun h => ?_⟩
  have hsame : heard ["Let me think.".toList, "</think>Yes.".toList] =
    heard ["Let me think.</think>Yes.".toList] := h.same
  exact absurd hsame (by decide +kernel)

end MarloweAgent.Provider
