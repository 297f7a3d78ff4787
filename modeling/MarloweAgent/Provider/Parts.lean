import MarloweAgent.Provider.Ledger

/-! A streamed call as the list of its pieces: a reasoning text in a field of its own, a
retraction, a segment that the splitter lets through, a frame that it swallows. The ledger of
the call is the fold of one step over them. -/

namespace MarloweAgent.Provider
open Contract Library Loop
open Mcp (Json)

/-! ## The parts of a call -/

def Segment.text : Segment → List Char
  | reasoning text => text
  | speech text => text

/-- What a call brings, piece by piece, as the splitter reads it. A piece says whether its
frame's token is charged with it. -/
inductive Part
  | field (text : List Char) (charged : Bool)
  | retraction
  | segment (seg : Segment) (charged : Bool)
  | swallowed
  deriving DecidableEq, Repr

namespace Part

def pays : Part → Bool
  | field _ charged => charged
  | retraction => false
  | segment _ charged => charged
  | swallowed => true

def retracts : Part → Bool
  | retraction => true
  | _ => false

/-- After it the think block is known shut. -/
def closes : Part → Bool
  | field _ _ => true
  | p => p.retracts

def speaks : Part → Bool
  | segment seg _ => !seg.isReasoning
  | _ => false

def thinks : Part → Bool
  | field _ _ => true
  | segment seg _ => seg.isReasoning
  | _ => false

/-- The token is charged to reasoning as it comes. -/
def paysThought (p : Part) : Bool := p.thinks && p.pays

/-- The splitter keeps all of the frame back, or takes all of it for a tag. -/
def isSwallowed : Part → Bool
  | swallowed => true
  | _ => false

@[simp] theorem field_is (text : List Char) (charged : Bool) :
    (field text charged).pays = charged ∧ (field text charged).retracts = false ∧
      (field text charged).closes = true ∧ (field text charged).speaks = false ∧
      (field text charged).thinks = true ∧ (field text charged).paysThought = charged ∧
      (field text charged).isSwallowed = false :=
  ⟨rfl, rfl, rfl, rfl, rfl, Bool.true_and _, rfl⟩

@[simp] theorem retraction_is :
    retraction.pays = false ∧ retraction.retracts = true ∧ retraction.closes = true ∧
      retraction.speaks = false ∧ retraction.thinks = false ∧ retraction.paysThought = false ∧
      retraction.isSwallowed = false :=
  ⟨rfl, rfl, rfl, rfl, rfl, rfl, rfl⟩

@[simp] theorem segment_is (seg : Segment) (charged : Bool) :
    (segment seg charged).pays = charged ∧ (segment seg charged).retracts = false ∧
      (segment seg charged).closes = false ∧ (segment seg charged).speaks = !seg.isReasoning ∧
      (segment seg charged).thinks = seg.isReasoning ∧
      (segment seg charged).paysThought = (seg.isReasoning && charged) ∧
      (segment seg charged).isSwallowed = false :=
  ⟨rfl, rfl, rfl, rfl, rfl, rfl, rfl⟩

@[simp] theorem swallowed_is :
    swallowed.pays = true ∧ swallowed.retracts = false ∧ swallowed.closes = false ∧
      swallowed.speaks = false ∧ swallowed.thinks = false ∧ swallowed.paysThought = false ∧
      swallowed.isSwallowed = true :=
  ⟨rfl, rfl, rfl, rfl, rfl, rfl, rfl⟩

end Part

def fieldParts (msg : Json) : List Part :=
  match (reasoningFields.map (textIn msg)).filter (· ≠ []) with
  | [] => []
  | first :: more => .field first true :: more.map (.field · false)

def splitParts (split : Split) (charged : Bool) : List Part :=
  (if split.retractSpeech then [.retraction] else []) ++
    match split.segments with
    | [] => if charged then [.swallowed] else []
    | first :: more => .segment first charged :: more.map (.segment · false)

def readFrame (splitter : ThinkSplitter) (frame : Json) : ThinkSplitter × List Part :=
  match frame.get? "message" with
  | none => (splitter, [])
  | some msg =>
    let content := textIn msg "content"
    if content = [] then (splitter, fieldParts msg)
    else
      let (splitter, split) := splitter.feed content
      (splitter, fieldParts msg ++ splitParts split (fieldParts msg).isEmpty)

def partsFrom (splitter : ThinkSplitter) : List Json → List Part
  | [] => []
  | frame :: rest => (readFrame splitter frame).2 ++ partsFrom (readFrame splitter frame).1 rest

def splitterAfter (splitter : ThinkSplitter) : List Json → ThinkSplitter
  | [] => splitter
  | frame :: rest => splitterAfter (readFrame splitter frame).1 rest

/-- What the splitter lets go of when the stream ends. -/
def tailParts (splitter : ThinkSplitter) : List Part := splitParts splitter.finish.2 false

def parts (frames : List Json) : List Part := partsFrom {} frames ++ tailParts (splitterAfter {} frames)

def callsIn (frame : Json) : List Json :=
  (((frame.get? "message").bind (Json.get? · "tool_calls")).bind Json.asArray).getD []

/-- A frame brings text, so that a token is charged for it. -/
def bringsText (frame : Json) : Bool :=
  (frame.get? "message").any fun msg => (reasoningFields ++ ["content"]).any (textIn msg · ≠ [])

/-! ## Hearing a call piece by piece -/

namespace Streaming

/-- What one piece does to the ledger. -/
def hear (s : Streaming) : Part → Streaming
  | .field r charged =>
    { s with
      reasoningTokens := s.reasoningTokens + charged.toNat
      told := s.told ++ [.reasoning r charged.toNat]
      closed := true }
  | .retraction => s.retract
  | .segment seg charged => (hearSegment (s, charged.toNat) seg).1
  | .swallowed => { s with heldTokens := s.heldTokens + 1 }

/-- The side of the call the ledger has no part in. -/
def withWire (s : Streaming) (splitter : ThinkSplitter) (toolCalls : List Json) (usage : Usage) :
    Streaming :=
  { s with splitter, toolCalls, usage }

theorem hear_withWire (s : Streaming) (p : Part) (splitter : ThinkSplitter) (toolCalls : List Json)
    (usage : Usage) :
    (s.withWire splitter toolCalls usage).hear p = (s.hear p).withWire splitter toolCalls usage := by
  cases p with
  | field r charged => rfl
  | retraction =>
    simp only [hear, retract, routeHeld, takeBack, withWire]
    by_cases hheld : s.held = [] <;> by_cases htext : s.text = [] <;> simp [hheld, htext]
  | segment seg charged =>
    cases seg with
    | reasoning r => rfl
    | speech t => cases hclosed : s.closed <;> simp [hear, hearSegment, withWire, hclosed]
  | swallowed => rfl

theorem foldl_hear_withWire (ps : List Part) (s : Streaming) (splitter : ThinkSplitter)
    (toolCalls : List Json) (usage : Usage) :
    ps.foldl hear (s.withWire splitter toolCalls usage) =
      (ps.foldl hear s).withWire splitter toolCalls usage := by
  induction ps generalizing s with
  | nil => rfl
  | cons p ps ih => rw [List.foldl_cons, hear_withWire, ih, List.foldl_cons]

theorem foldl_hearField_charged (msg : Json) (fields : List String) (s : Streaming) :
    fields.foldl (hearField msg) (s, true) =
      ((((fields.map (textIn msg)).filter (· ≠ [])).map (.field · false)).foldl hear s, true) := by
  induction fields generalizing s with
  | nil => rfl
  | cons field fields ih =>
    by_cases htext : textIn msg field = []
    · simp only [List.foldl_cons, List.map_cons, hearField, htext, if_true, ih]
      simp
    · simp only [List.foldl_cons, List.map_cons, hearField, htext, if_false, if_true, ih]
      simp [htext, hear]

theorem foldl_hearField (msg : Json) (s : Streaming) :
    reasoningFields.foldl (hearField msg) (s, false) =
      ((fieldParts msg).foldl hear s, !(fieldParts msg).isEmpty) := by
  unfold fieldParts
  generalize reasoningFields = fields
  induction fields with
  | nil => rfl
  | cons field fields ih =>
    by_cases htext : textIn msg field = []
    · simp only [List.foldl_cons, List.map_cons, hearField, htext, if_true, ih]
      simp
    · have hfilter : ((field :: fields).map (textIn msg)).filter (· ≠ []) =
          textIn msg field :: (fields.map (textIn msg)).filter (· ≠ []) := by simp [htext]
      rw [hfilter, List.foldl_cons, hearField, if_neg htext]
      simp only [Bool.false_eq_true, if_false, foldl_hearField_charged]
      rfl

theorem foldl_hearSegment (segs : List Segment) (s : Streaming) :
    segs.foldl hearSegment (s, 0) = ((segs.map (.segment · false)).foldl hear s, 0) := by
  induction segs generalizing s with
  | nil => rfl
  | cons seg segs ih =>
    have hfirst : hearSegment (s, 0) seg = (s.hear (.segment seg false), 0) := by
      cases seg with
      | reasoning r => rfl
      | speech t => cases hclosed : s.closed <;> simp [hear, hearSegment, hclosed]
    rw [List.foldl_cons, hfirst, ih]
    rfl

theorem hearSplit_eq (s : Streaming) (split : Split) (charged : Bool) :
    s.hearSplit split charged.toNat = (splitParts split charged).foldl hear s := by
  unfold hearSplit splitParts
  have hretract : (if split.retractSpeech then s.retract else s) =
      (if split.retractSpeech then [Part.retraction] else []).foldl hear s := by
    cases split.retractSpeech <;> rfl
  rw [hretract, List.foldl_append]
  generalize (if split.retractSpeech then [Part.retraction] else []).foldl hear s = s
  cases split.segments with
  | nil => cases charged <;> rfl
  | cons seg segs =>
    have hfirst : hearSegment (s, charged.toNat) seg = (s.hear (.segment seg charged), 0) := by
      cases seg with
      | reasoning r => rfl
      | speech t => cases hclosed : s.closed <;> simp [hear, hearSegment, hclosed]
    simp only [List.foldl_cons, hfirst, foldl_hearSegment, Nat.add_zero]

theorem foldl_hear_wire (ps : List Part) (s : Streaming) :
    (ps.foldl hear s).splitter = s.splitter ∧ (ps.foldl hear s).toolCalls = s.toolCalls ∧
      (ps.foldl hear s).usage = s.usage := by
  have hsame : ps.foldl hear s = (ps.foldl hear s).withWire s.splitter s.toolCalls s.usage :=
    foldl_hear_withWire ps s s.splitter s.toolCalls s.usage
  rw [hsame]
  exact ⟨rfl, rfl, rfl⟩

theorem hearMessage_eq (s : Streaming) {frame msg : Json} (hmsg : frame.get? "message" = some msg) :
    s.hearMessage msg =
      ((readFrame s.splitter frame).2.foldl hear s).withWire (readFrame s.splitter frame).1
        (s.toolCalls ++ callsIn frame) s.usage := by
  obtain ⟨hsplitter, hcalls, husage⟩ := foldl_hear_wire (fieldParts msg) s
  have hcharge : (if !(fieldParts msg).isEmpty then 0 else 1) = (fieldParts msg).isEmpty.toNat := by
    cases (fieldParts msg).isEmpty <;> rfl
  unfold hearMessage readFrame callsIn
  simp only [foldl_hearField, hmsg, Option.bind_some, hcharge]
  unfold hearContent
  split
  · simp only [withWire, ← hsplitter, ← husage, hcalls]
  · have hfed : { (fieldParts msg).foldl hear s with splitter := (s.splitter.feed (textIn msg "content")).1 } =
        ((fieldParts msg).foldl hear s).withWire (s.splitter.feed (textIn msg "content")).1 s.toolCalls
          s.usage := by
      simp only [withWire, ← hcalls, ← husage]
    simp only [hsplitter, hfed, hearSplit_eq, foldl_hear_withWire, List.foldl_append]
    rfl

theorem hearFrame_eq (s : Streaming) (frame : Json) :
    s.hearFrame frame =
      ((readFrame s.splitter frame).2.foldl hear s).withWire (readFrame s.splitter frame).1
        (s.toolCalls ++ callsIn frame) (s.readCounters frame).usage := by
  unfold hearFrame
  cases hmsg : frame.get? "message" with
  | none =>
    have hframe : readFrame s.splitter frame = (s.splitter, []) := by simp [readFrame, hmsg]
    have hcalls : callsIn frame = [] := by simp [callsIn, hmsg]
    simp only [hframe, hcalls, readCounters]
    split <;> simp [withWire]
  | some msg =>
    simp only [hearMessage_eq s hmsg, readCounters]
    split <;> simp [withWire]

theorem foldl_hearFrame (frames : List Json) (s : Streaming) :
    ∃ usage : Usage,
      usage.completionTokens =
          frames.foldl
            (fun n frame =>
              if (frame.get? "done").bind Json.asBool = some true then counter frame "eval_count" else n)
            s.usage.completionTokens ∧
        frames.foldl hearFrame s =
          ((partsFrom s.splitter frames).foldl hear s).withWire (splitterAfter s.splitter frames)
            (s.toolCalls ++ frames.flatMap callsIn) usage := by
  induction frames generalizing s with
  | nil => exact ⟨s.usage, rfl, by simp [withWire, partsFrom, splitterAfter]⟩
  | cons frame frames ih =>
    obtain ⟨usage, hcount, hrest⟩ := ih (s.hearFrame frame)
    refine ⟨usage, ?_, ?_⟩
    · rw [hcount, hearFrame_eq]
      simp only [withWire, readCounters, List.foldl_cons]
      split <;> rfl
    · rw [List.foldl_cons, hrest, hearFrame_eq, foldl_hear_withWire]
      simp only [partsFrom, splitterAfter, List.foldl_append, List.flatMap_cons, List.append_assoc, withWire]

theorem hearEnd_eq (s : Streaming) :
    s.hearEnd =
      ((tailParts s.splitter).foldl hear s).withWire s.splitter.finish.1 s.toolCalls s.usage := by
  unfold hearEnd tailParts splitParts ThinkSplitter.finish ThinkSplitter.push
  by_cases hpending : s.splitter.pending = []
  · simp [hpending, withWire]
  · cases s.splitter.inside <;> cases hclosed : s.closed <;>
      simp [hpending, hclosed, hearTail, hear, hearSegment, withWire]

end Streaming

/-! ## The texts the splitter lets through -/

theorem push_texts {s : ThinkSplitter} {split : Split} {text : List Char}
    (h : ∀ seg ∈ split.segments, seg.text ≠ []) :
    ∀ seg ∈ (s.push split text).2.segments, seg.text ≠ [] := by
  unfold ThinkSplitter.push
  by_cases htext : text = []
  · rw [if_pos htext]
    exact h
  · rw [if_neg htext]
    cases s.inside <;>
      · intro seg hseg
        rcases List.mem_append.mp hseg with hseg | hseg
        · exact h seg hseg
        · obtain rfl := List.mem_singleton.mp hseg
          exact htext

theorem turn_texts {s : ThinkSplitter} {split : Split} {opening : Bool}
    (h : ∀ seg ∈ split.segments, seg.text ≠ []) :
    ∀ seg ∈ (s.turn split opening).2.segments, seg.text ≠ [] := by
  unfold ThinkSplitter.turn
  split
  · exact h
  · split
    · exact fun seg hseg => h seg (List.mem_filter.mp hseg).1
    · exact h

theorem consume_texts (s : ThinkSplitter) (split : Split) (rest : List Char)
    (h : ∀ seg ∈ split.segments, seg.text ≠ []) :
    ∀ seg ∈ (s.consume split rest).2.segments, seg.text ≠ [] := by
  fun_induction ThinkSplitter.consume s split rest with
  | case1 => exact h
  | case2 s split rest hrest pos len opening htag s₁ split₁ hpush s₂ split₂ hturn ih =>
    have hpushed := @push_texts { s with sawTag := true } split (rest.take pos) h
    rw [hpush] at hpushed
    have hturned := @turn_texts s₁ split₁ opening hpushed
    rw [hturn] at hturned
    exact ih hturned
  | case3 s split rest hrest htag keep s₁ split₁ hpush =>
    have hpushed := @push_texts s split (rest.take (rest.length - keep)) h
    rw [hpush] at hpushed
    exact hpushed

theorem feed_texts (s : ThinkSplitter) (chunk : List Char) :
    ∀ seg ∈ (s.feed chunk).2.segments, seg.text ≠ [] :=
  consume_texts _ _ _ fun _ hseg => absurd hseg List.not_mem_nil

theorem tailParts_cases (s : ThinkSplitter) :
    s.pending = [] ∧ tailParts s = [] ∨
      s.pending ≠ [] ∧ ∃ seg : Segment, seg.text = s.pending ∧ tailParts s = [.segment seg false] := by
  unfold tailParts splitParts ThinkSplitter.finish ThinkSplitter.push
  by_cases hpending : s.pending = []
  · simp [hpending]
  · refine .inr ⟨hpending, if s.inside then .reasoning s.pending else .speech s.pending, ?_⟩
    cases s.inside <;> simp [hpending, Segment.text]

/-! ## The pieces of a call fit -/

def Part.text : Part → Option (List Char)
  | field text _ => some text
  | segment seg _ => some seg.text
  | _ => none

/-- Earlier in its frame something was charged. -/
def Followed (ps : List Part) : Prop :=
  ps.any Part.paysThought = true ∨ ∃ seg charged, ps.getLast? = some (.segment seg charged)

/-- A piece has a text where it carries one, and comes uncharged only where its frame has paid. -/
structure Fits (ps : List Part) (p : Part) : Prop where
  text : p.text ≠ some []
  paid : ∀ seg, p = .segment seg false → Followed ps

/-- The pieces `qs` fit one after the other. -/
def Fit (ps : List Part) : List Part → Prop
  | [] => True
  | q :: qs => Fits ps q ∧ Fit (ps ++ [q]) qs

theorem Fit.append {ps qs rs : List Part} (hqs : Fit ps qs) (hrs : Fit (ps ++ qs) rs) : Fit ps (qs ++ rs) := by
  induction qs generalizing ps with
  | nil => simpa using hrs
  | cons q qs ih =>
    obtain ⟨hfits, hrest⟩ := hqs
    exact ⟨hfits, ih hrest (by simpa using hrs)⟩

theorem fit_uncharged {segs : List Segment} {ps : List Part} (htexts : ∀ seg ∈ segs, seg.text ≠ [])
    (hfollowed : Followed ps) : Fit ps (segs.map (.segment · false)) := by
  induction segs generalizing ps with
  | nil => trivial
  | cons seg segs ih =>
    refine ⟨⟨fun htext => htexts seg List.mem_cons_self (Option.some.inj htext), fun _ _ => hfollowed⟩, ?_⟩
    exact ih (fun seg hseg => htexts seg (List.mem_cons_of_mem _ hseg)) (.inr ⟨seg, false, by simp⟩)

theorem fit_splitParts {ps : List Part} {split : Split} {charged : Bool}
    (htexts : ∀ seg ∈ split.segments, seg.text ≠ [])
    (hcharged : charged = false → ps.any Part.paysThought = true) : Fit ps (splitParts split charged) := by
  unfold splitParts
  refine @Fit.append ps (if split.retractSpeech then [.retraction] else []) _ ?_ ?_
  · cases split.retractSpeech with
    | true => exact ⟨⟨nofun, nofun⟩, trivial⟩
    | false => trivial
  · cases hsegs : split.segments with
    | nil =>
      cases charged with
      | true => exact ⟨⟨nofun, nofun⟩, trivial⟩
      | false => trivial
    | cons first more =>
      rw [hsegs] at htexts
      refine ⟨⟨fun htext => htexts first List.mem_cons_self (Option.some.inj htext), fun _ hfirst => .inl ?_⟩,
        fit_uncharged (fun seg hseg => htexts seg (List.mem_cons_of_mem _ hseg)) (.inr ⟨first, charged, by simp⟩)⟩
      have hany := hcharged (Part.segment.inj hfirst).2
      rw [List.any_append, hany, Bool.true_or]

theorem fit_fields {texts : List (List Char)} {ps : List Part} {charged : Bool} (h : ∀ text ∈ texts, text ≠ []) :
    Fit ps (texts.map (.field · charged)) := by
  induction texts generalizing ps with
  | nil => trivial
  | cons text texts ih =>
    exact ⟨⟨fun htext => h text List.mem_cons_self (Option.some.inj htext), nofun⟩,
      ih fun text htext => h text (List.mem_cons_of_mem _ htext)⟩

theorem fit_fieldParts (ps : List Part) (msg : Json) : Fit ps (fieldParts msg) := by
  have htexts : ∀ text ∈ (reasoningFields.map (textIn msg)).filter (· ≠ []), text ≠ [] :=
    fun text htext => by simpa using (List.mem_filter.mp htext).2
  unfold fieldParts
  split
  · trivial
  next first more htext =>
    rw [htext] at htexts
    exact ⟨⟨fun hnil => htexts first List.mem_cons_self (Option.some.inj hnil), nofun⟩,
      fit_fields fun text hmem => htexts text (List.mem_cons_of_mem _ hmem)⟩

theorem paysThought_fieldParts {msg : Json} (h : (fieldParts msg).isEmpty = false) :
    (fieldParts msg).any Part.paysThought = true := by
  unfold fieldParts at h ⊢
  generalize (reasoningFields.map (textIn msg)).filter (· ≠ []) = texts at h ⊢
  cases texts with
  | nil => cases h
  | cons first more => rfl

theorem fit_readFrame (ps : List Part) (splitter : ThinkSplitter) (frame : Json) :
    Fit ps (readFrame splitter frame).2 := by
  unfold readFrame
  split
  · trivial
  next msg _ =>
    dsimp only
    split
    · exact fit_fieldParts ps msg
    · refine (fit_fieldParts ps msg).append (fit_splitParts (feed_texts _ _) fun hempty => ?_)
      rw [List.any_append, paysThought_fieldParts hempty, Bool.or_true]

theorem fit_partsFrom (ps : List Part) (splitter : ThinkSplitter) (frames : List Json) :
    Fit ps (partsFrom splitter frames) := by
  induction frames generalizing ps splitter with
  | nil => trivial
  | cons frame frames ih => exact (fit_readFrame ps splitter frame).append (ih _ _)

/-! ## The frames that pay -/

theorem countP_fieldParts (msg : Json) :
    (fieldParts msg).countP Part.pays = (!(fieldParts msg).isEmpty).toNat := by
  unfold fieldParts
  generalize (reasoningFields.map (textIn msg)).filter (· ≠ []) = texts
  cases texts with
  | nil => rfl
  | cons first more =>
    have hmore : (more.map (Part.field · false)).countP Part.pays = 0 := by
      rw [List.countP_eq_zero]
      intro p hp
      obtain ⟨text, -, rfl⟩ := List.mem_map.mp hp
      simp
    simp [hmore]

theorem countP_splitParts (split : Split) (charged : Bool) :
    (splitParts split charged).countP Part.pays = charged.toNat := by
  unfold splitParts
  have hretract : (if split.retractSpeech then [Part.retraction] else []).countP Part.pays = 0 := by
    cases split.retractSpeech <;> rfl
  rw [List.countP_append, hretract, Nat.zero_add]
  cases split.segments with
  | nil => cases charged <;> rfl
  | cons first more =>
    have hmore : (more.map (Part.segment · false)).countP Part.pays = 0 := by
      rw [List.countP_eq_zero]
      intro p hp
      obtain ⟨seg, -, rfl⟩ := List.mem_map.mp hp
      simp
    cases charged <;> simp [hmore]

theorem isEmpty_fieldParts (msg : Json) :
    (fieldParts msg).isEmpty = !reasoningFields.any (textIn msg · ≠ []) := by
  unfold fieldParts
  generalize reasoningFields = fields
  induction fields with
  | nil => rfl
  | cons field fields ih =>
    by_cases htext : textIn msg field = []
    · simpa [htext] using ih
    · simp [htext]

theorem countP_readFrame (splitter : ThinkSplitter) (frame : Json) :
    (readFrame splitter frame).2.countP Part.pays = (bringsText frame).toNat := by
  unfold readFrame bringsText
  cases frame.get? "message" with
  | none => rfl
  | some msg =>
    simp only [Option.any_some, List.any_append, List.any_cons, List.any_nil, Bool.or_false]
    split
    next hcontent => simp [countP_fieldParts, isEmpty_fieldParts, hcontent]
    next hcontent =>
      simp only [List.countP_append, countP_fieldParts, countP_splitParts, hcontent, ne_eq, not_false_eq_true,
        decide_true, Bool.or_true]
      cases (fieldParts msg).isEmpty <;> rfl

theorem countP_partsFrom (splitter : ThinkSplitter) (frames : List Json) :
    (partsFrom splitter frames).countP Part.pays = frames.countP bringsText := by
  induction frames generalizing splitter with
  | nil => rfl
  | cons frame frames ih =>
    rw [partsFrom, List.countP_append, countP_readFrame, ih, List.countP_cons, Nat.add_comm]
    cases bringsText frame <;> rfl

theorem countP_parts (frames : List Json) : (parts frames).countP Part.pays = frames.countP bringsText := by
  unfold parts tailParts
  rw [List.countP_append, countP_partsFrom, countP_splitParts]
  rfl

/-- What the splitter holds back came in some frame. -/
theorem pending_paid {frames : List Json} {splitter : ThinkSplitter} (hstart : splitter.pending = [])
    (h : (splitterAfter splitter frames).pending ≠ []) : 0 < frames.countP bringsText := by
  induction frames generalizing splitter with
  | nil => exact absurd hstart h
  | cons frame frames ih =>
    rw [List.countP_cons]
    cases hbrings : bringsText frame with
    | true => exact Nat.succ_pos _
    | false =>
      refine @ih (readFrame splitter frame).1 ?_ h
      have hsame : (readFrame splitter frame).1 = splitter := by
        unfold bringsText at hbrings
        unfold readFrame
        cases hmsg : frame.get? "message" with
        | none => rfl
        | some msg =>
          have hcontent : textIn msg "content" = [] := by
            simp [hmsg] at hbrings
            exact hbrings.2
          simp [hcontent]
      rw [hsame]
      exact hstart

end MarloweAgent.Provider
