import MarloweAgent.Contract.Text
import MarloweAgent.Provider.Balance
import MarloweAgent.Provider.Reassembly
import MarloweAgent.Provider.Sse

/-! One streamed call to the hosted provider: who answered, the text through the think splitter,
and the ledger of the call. Here the reasoning has a channel of its own, so that nothing is ever
held back, and what a chunk was charged that the splitter swallowed is owed to nobody. -/

namespace MarloweAgent.Provider
open Contract Library Loop
open Mcp (Json)

/-! ## Attribution -/

/-- What one call resolved to. -/
structure CallAttribution where
  requestedModel : String
  servedModel : Option String := none
  upstreamProvider : Option String := none
  generationId : Option String := none
  promptTokens : Nat := 0
  completionTokens : Nat := 0
  microsUsd : Nat := 0
  attempts : Nat := 1
  upstreamPinned : Bool := false
  deriving DecidableEq, Repr

def maxFieldChars : Nat := 120

/-- `clean_field`. -/
def cleanField (raw : String) : Option String :=
  let trimmed := (Text.trim (Text.sanitizeLine raw)).toList.take maxFieldChars
  if trimmed = [] then none else some (String.ofList trimmed)

namespace CallAttribution

def requested (model : String) : CallAttribution := { requestedModel := model }

def setUpstream (call : CallAttribution) (raw : String) : CallAttribution :=
  { call with upstreamProvider := (cleanField raw).or call.upstreamProvider }

def setServedModel (call : CallAttribution) (raw : String) : CallAttribution :=
  { call with servedModel := (cleanField raw).or call.servedModel }

def setGenerationId (call : CallAttribution) (raw : String) : CallAttribution :=
  { call with generationId := (cleanField raw).or call.generationId }

variable (call : CallAttribution) (raw : String)

@[simp] theorem requestedModel_setUpstream : (call.setUpstream raw).requestedModel = call.requestedModel := by
  simp only [setUpstream]

@[simp] theorem requestedModel_setServedModel : (call.setServedModel raw).requestedModel = call.requestedModel := by
  simp only [setServedModel]

@[simp] theorem requestedModel_setGenerationId : (call.setGenerationId raw).requestedModel = call.requestedModel := by
  simp only [setGenerationId]

end CallAttribution

/-- What the call takes from outside: `from_str` with the text of its error, and the cost in micros
where it is a number. -/
structure HostedWire where
  fromStr : String → Option Json
  parseError : String → String
  microsUsd : Json → Option Nat

/-- The part of it that reads arguments. -/
def HostedWire.wire (w : HostedWire) : Wire := ⟨w.fromStr, fun _ => none⟩

/-! ## One chunk -/

structure Accumulator where
  text : List Char := []
  splitter : ThinkSplitter := {}
  toolCalls : OrderedMap Nat PartialCall := .empty
  call : CallAttribution
  closed : Bool := true
  held : List Char := []
  reasoningCharged : Nat := 0
  speechCharged : Nat := 0
  heldCharged : Nat := 0
  charged : Nat := 0
  lastWasReasoning : Bool := true
  told : List Told := []

def hostedFields : List String := ["reasoning", "reasoning_content"]

namespace Accumulator

def new (model : String) : Accumulator := { call := .requested model }

/-- Who answered, and what it cost: from whichever chunk carries it. -/
def absorbAttribution (w : HostedWire) (a : Accumulator) (value : Json) : Accumulator :=
  let call := a.call
  let call := match (value.get? "provider").bind Json.asStr with
    | some p => call.setUpstream p
    | none => call
  let call := match (value.get? "model").bind Json.asStr with
    | some m => call.setServedModel m
    | none => call
  let call := match (value.get? "id").bind Json.asStr with
    | some id => call.setGenerationId id
    | none => call
  let call := match value.get? "usage" with
    | some u =>
      { call with
        promptTokens := ((u.get? "prompt_tokens").bind Json.asU64).getD call.promptTokens
        completionTokens := ((u.get? "completion_tokens").bind Json.asU64).getD call.completionTokens
        microsUsd := ((u.get? "cost").bind w.microsUsd).getD call.microsUsd }
    | none => call
  { a with call }

/-- One spelling of the reasoning channel, and whether the chunk has been charged. -/
def absorbField (delta : Json) (s : Accumulator × Bool) (field : String) : Accumulator × Bool :=
  let r := textIn delta field
  if r = [] then s
  else
    let charge := if s.2 then 0 else 1
    ({ s.1 with
        charged := s.1.charged + charge
        reasoningCharged := s.1.reasoningCharged + charge
        lastWasReasoning := true
        told := s.1.told ++ [.reasoning r charge]
        closed := true }, true)

def routeHeld (a : Accumulator) : Accumulator :=
  if a.held = [] then a
  else
    { a with
      held := []
      heldCharged := 0
      reasoningCharged := a.reasoningCharged + a.heldCharged
      told := a.told ++ [.reasoning a.held a.heldCharged] }

def takeBack (a : Accumulator) : Accumulator :=
  if a.text = [] then a
  else
    { a with
      text := []
      speechCharged := 0
      reasoningCharged := a.reasoningCharged + a.speechCharged
      told := a.told ++ [.retract a.speechCharged] }

def retract (a : Accumulator) : Accumulator := { a.routeHeld.takeBack with closed := true }

def absorbSegment (s : Accumulator × Nat) : Segment → Accumulator × Nat
  | .reasoning r =>
    ({ s.1 with
        reasoningCharged := s.1.reasoningCharged + s.2
        lastWasReasoning := true
        told := s.1.told ++ [.reasoning r s.2] }, 0)
  | .speech t =>
    if s.1.closed then
      ({ s.1 with
          speechCharged := s.1.speechCharged + s.2
          lastWasReasoning := false
          told := s.1.told ++ [.delta t s.2]
          text := s.1.text ++ t }, 0)
    else ({ s.1 with heldCharged := s.1.heldCharged + s.2, held := s.1.held ++ t }, 0)

/-- What the splitter makes of the content. A charge that no segment pays goes to the buffer. -/
def absorbSplit (a : Accumulator) (split : Split) (charge : Nat) : Accumulator :=
  let a := if split.retractSpeech then a.retract else a
  let (a, charge) := split.segments.foldl absorbSegment (a, charge)
  { a with heldCharged := a.heldCharged + charge }

def absorbContent (a : Accumulator) (content : List Char) (charged : Bool) : Accumulator :=
  if content = [] then a
  else
    let charge := if charged then 0 else 1
    let (splitter, split) := a.splitter.feed content
    { a with charged := a.charged + charge, splitter }.absorbSplit split charge

def absorbText (a : Accumulator) (delta : Json) : Accumulator :=
  let (a, charged) := hostedFields.foldl (absorbField delta) (a, false)
  a.absorbContent (textIn delta "content") charged

def absorbCalls (a : Accumulator) (delta : Json) : Accumulator :=
  match (delta.get? "tool_calls").bind Json.asArray with
  | none => a
  | some calls => { a with toolCalls := calls.zipIdx.foldl Fold.absorbCall a.toolCalls }

def absorb (w : HostedWire) (a : Accumulator) (value : Json) : Accumulator :=
  let a := a.absorbAttribution w value
  match deltaOf value with
  | none => a
  | some delta => (a.absorbText delta).absorbCalls delta

/-! ## The end of the stream -/

def finishSegment (a : Accumulator) : Segment → Accumulator
  | .reasoning r => { a with told := a.told ++ [.reasoning r 0] }
  | .speech t =>
    if a.closed then { a with told := a.told ++ [.delta t 0], text := a.text ++ t }
    else { a with held := a.held ++ t }

def release (a : Accumulator) : Accumulator :=
  if a.held = [] then a
  else if a.toolCalls.bindings.isEmpty ∧ (a.closed ∨ ! a.splitter.sawTag) then
    { a with
      held := []
      speechCharged := a.speechCharged + a.heldCharged
      heldCharged := 0
      told := a.told ++ [.delta a.held a.heldCharged]
      text := a.text ++ a.held }
  else a.routeHeld

/-- What the provider counted and did not stream, if reasoning came last. -/
def settle (a : Accumulator) : Accumulator :=
  let owed := a.call.completionTokens - a.charged
  if 0 < owed ∧ a.lastWasReasoning = true then
    { a with
      charged := a.call.completionTokens
      reasoningCharged := a.reasoningCharged + owed
      told := a.told ++ [.reasoning [] owed] }
  else a

def finish (a : Accumulator) : Accumulator :=
  let (splitter, split) := a.splitter.finish
  (split.segments.foldl finishSegment { a with splitter }).release.settle

def message (w : HostedWire) (a : Accumulator) : Json :=
  let calls := (a.toolCalls.values.filter (·.name ≠ "")).map (Fold.callJson w.wire)
  .object (("content", .string (String.ofList a.text)) ::
    if calls.isEmpty then [] else [("tool_calls", .array calls)])

def intoStep (w : HostedWire) (a : Accumulator) : Except SlicePanic ModelStep := parseStep (a.message w)

end Accumulator

/-! ## The ledger -/

/-- What is on the screen: the text since the last retraction. -/
def Told.show (shown : List Char) : Told → List Char
  | .delta text _ => shown ++ text
  | .reasoning _ _ => shown
  | .retract _ => []

def shownOf (told : List Told) : List Char := told.foldl Told.show []

@[simp] theorem shownOf_concat (told : List Told) (t : Told) : shownOf (told ++ [t]) = t.show (shownOf told) := by
  simp [shownOf]

/-- The ledger, with what the chunk still has to pay. Nothing is ever held back. -/
structure Accounted (owed : Nat) (a : Accumulator) : Prop where
  charged : a.charged = a.reasoningCharged + a.speechCharged + a.heldCharged + owed
  reported : a.reasoningCharged = reported a.told
  answered : a.speechCharged = answered a.told
  moved : MovesExactly a.told
  shown : shownOf a.told = a.text
  closed : a.closed = true
  held : a.held = []

namespace Accounted

variable {owed : Nat} {a : Accumulator}

theorem reasoning (h : Accounted owed a) (r : List Char) (paid : Nat) (hpaid : paid ≤ owed) (last : Bool) :
    Accounted (owed - paid)
      { a with
        reasoningCharged := a.reasoningCharged + paid, lastWasReasoning := last
        told := a.told ++ [.reasoning r paid] } where
  charged := by
    have hcharged := h.charged
    dsimp only
    omega
  reported := by rw [reported_concat, h.reported]; rfl
  answered := by rw [answered_concat, h.answered]; rfl
  moved := h.moved.concat (by intro n hn; cases hn)
  shown := by rw [shownOf_concat, h.shown]; rfl
  closed := h.closed
  held := h.held

theorem speech (h : Accounted owed a) (t : List Char) (paid : Nat) (hpaid : paid ≤ owed) (last : Bool) :
    Accounted (owed - paid)
      { a with
        speechCharged := a.speechCharged + paid, lastWasReasoning := last
        told := a.told ++ [.delta t paid], text := a.text ++ t } where
  charged := by
    have hcharged := h.charged
    dsimp only
    omega
  reported := by rw [reported_concat, h.reported]; rfl
  answered := by rw [answered_concat, h.answered]; rfl
  moved := h.moved.concat (by intro n hn; cases hn)
  shown := by rw [shownOf_concat, h.shown]; rfl
  closed := h.closed
  held := h.held

/-- A retraction moves what the speech was charged; there is no buffer to route. -/
theorem retract (h : Accounted owed a) : Accounted owed a.retract ∧ a.retract.heldCharged = a.heldCharged := by
  unfold Accumulator.retract Accumulator.routeHeld
  rw [if_pos h.held]
  unfold Accumulator.takeBack
  split_ifs with htext
  · exact ⟨{ h with closed := rfl }, rfl⟩
  · refine ⟨{ charged := ?_, reported := ?_, answered := ?_, moved := ?_, shown := ?_, closed := rfl, held := h.held }, rfl⟩
    · have hcharged := h.charged
      dsimp only
      omega
    · rw [reported_concat, h.reported]
      rfl
    · rw [answered_concat]
      rfl
    · refine h.moved.concat fun n hn => ?_
      cases hn
      exact h.answered
    · rw [shownOf_concat]
      rfl

theorem segment (h : Accounted owed a) (seg : Segment) :
    Accounted 0 (Accumulator.absorbSegment (a, owed) seg).1 ∧ (Accumulator.absorbSegment (a, owed) seg).2 = 0 ∧
      (Accumulator.absorbSegment (a, owed) seg).1.heldCharged = a.heldCharged := by
  cases seg with
  | reasoning r =>
    have hpaid := h.reasoning r owed (Nat.le_refl _) true
    rw [Nat.sub_self] at hpaid
    exact ⟨hpaid, rfl, rfl⟩
  | speech t =>
    have hpaid := h.speech t owed (Nat.le_refl _) false
    rw [Nat.sub_self] at hpaid
    have hshown : Accumulator.absorbSegment (a, owed) (.speech t) =
        ({ a with
            speechCharged := a.speechCharged + owed, lastWasReasoning := false
            told := a.told ++ [.delta t owed], text := a.text ++ t }, 0) := if_pos h.closed
    rw [hshown]
    exact ⟨hpaid, rfl, rfl⟩

/-- The first segment pays the charge, and the others nothing. -/
theorem segments (segs : List Segment) (h : Accounted owed a) :
    let s := segs.foldl Accumulator.absorbSegment (a, owed)
    Accounted s.2 s.1 ∧ s.2 = (if segs = [] then owed else 0) ∧ s.1.heldCharged = a.heldCharged := by
  induction segs generalizing a owed with
  | nil => exact ⟨h, rfl, rfl⟩
  | cons seg segs ih =>
    obtain ⟨hfirst, hpaid, hheld⟩ := h.segment seg
    have hpair : Accumulator.absorbSegment (a, owed) seg = ((Accumulator.absorbSegment (a, owed) seg).1, 0) :=
      Prod.ext rfl hpaid
    obtain ⟨hrest, hnone, hkept⟩ := ih hfirst
    rw [List.foldl_cons, hpair]
    refine ⟨hrest, ?_, hkept.trans hheld⟩
    rw [hnone, if_neg (List.cons_ne_nil _ _)]
    split_ifs <;> rfl

/-- One chunk's text: what no segment paid for is left in the buffer's charge. -/
theorem split (h : Accounted owed a) (split : Split) :
    Accounted 0 (a.absorbSplit split owed) ∧
      (a.absorbSplit split owed).heldCharged = a.heldCharged + if split.segments = [] then owed else 0 := by
  have hstart : Accounted owed (if split.retractSpeech then a.retract else a) ∧
      (if split.retractSpeech then a.retract else a).heldCharged = a.heldCharged := by
    split_ifs
    · exact h.retract
    · exact ⟨h, rfl⟩
  obtain ⟨hsegments, hleft, hheld⟩ := hstart.1.segments split.segments
  unfold Accumulator.absorbSplit
  dsimp only
  rw [← hleft, ← hstart.2, ← hheld]
  exact ⟨{ hsegments with charged := by have hcharged := hsegments.charged; dsimp only; omega }, rfl⟩

end Accounted

theorem Accounted.charge {a : Accumulator} (h : Accounted 0 a) (charge : Nat) :
    Accounted charge { a with charged := a.charged + charge } :=
  { h with charged := by have hcharged := h.charged; dsimp only; omega }

/-- A field of reasoning pays for its chunk, unless the chunk has been charged. -/
theorem Accounted.field {a : Accumulator} (h : Accounted 0 a) (delta : Json) (charged : Bool) (field : String) :
    let s := Accumulator.absorbField delta (a, charged) field
    Accounted 0 s.1 ∧ s.1.heldCharged = a.heldCharged ∧ s.1.splitter = a.splitter ∧
      s.2 = (charged || decide (textIn delta field ≠ [])) := by
  unfold Accumulator.absorbField
  dsimp only
  split_ifs with hnil hcharged
  · exact ⟨h, rfl, rfl, by simp [hnil]⟩
  · have hpaid := (h.charge 0).reasoning (textIn delta field) 0 (Nat.le_refl _) true
    exact ⟨{ hpaid with closed := rfl }, rfl, rfl, by simp [hnil]⟩
  · have hpaid := (h.charge 1).reasoning (textIn delta field) 1 (Nat.le_refl _) true
    exact ⟨{ hpaid with closed := rfl }, rfl, rfl, by simp [hnil]⟩

/-- A chunk that brings reasoning in a channel of its own. -/
def reasons (delta : Json) : Bool := hostedFields.any fun field => textIn delta field ≠ []

theorem Accounted.fields {a : Accumulator} (h : Accounted 0 a) (delta : Json) :
    let s := hostedFields.foldl (Accumulator.absorbField delta) (a, false)
    Accounted 0 s.1 ∧ s.1.heldCharged = a.heldCharged ∧ s.1.splitter = a.splitter ∧ s.2 = reasons delta := by
  have hfold (fields : List String) {a : Accumulator} (h : Accounted 0 a) (charged : Bool) :
      let s := fields.foldl (Accumulator.absorbField delta) (a, charged)
      Accounted 0 s.1 ∧ s.1.heldCharged = a.heldCharged ∧ s.1.splitter = a.splitter ∧
        s.2 = (charged || fields.any fun field => textIn delta field ≠ []) := by
    induction fields generalizing a charged with
    | nil => exact ⟨h, rfl, rfl, by simp⟩
    | cons field fields ih =>
      obtain ⟨hfield, hheld, hsplitter, hcharged⟩ := h.field delta charged field
      obtain ⟨hrest, hheld', hsplitter', hcharged'⟩ := ih hfield (Accumulator.absorbField delta (a, charged) field).2
      rw [List.foldl_cons]
      refine ⟨hrest, hheld'.trans hheld, hsplitter'.trans hsplitter, hcharged'.trans ?_⟩
      rw [hcharged, List.any_cons, Bool.or_assoc]
  exact hfold hostedFields h false

/-! ## Chunks that nobody pays for -/

def chunkText (delta : Json) : List Char := textIn delta "content"

/-- The splitter behind a chunk. -/
def fed (splitter : ThinkSplitter) (delta : Json) : ThinkSplitter :=
  if chunkText delta = [] then splitter else (splitter.feed (chunkText delta)).1

/-- A chunk that brings content but neither reasoning nor a segment: the splitter keeps it back as
what might be a tag, or it is no more than tags. -/
def swallows (splitter : ThinkSplitter) (delta : Json) : Bool :=
  chunkText delta ≠ [] && !reasons delta && (splitter.feed (chunkText delta)).2.segments = []

def swallowed : ThinkSplitter → List Json → Nat
  | _, [] => 0
  | splitter, value :: rest =>
    match deltaOf value with
    | none => swallowed splitter rest
    | some delta => (if swallows splitter delta then 1 else 0) + swallowed (fed splitter delta) rest

/-- What the segments of a chunk leave as it was. -/
structure Untouched (a b : Accumulator) : Prop where
  splitter : b.splitter = a.splitter
  charged : b.charged = a.charged
  toolCalls : b.toolCalls = a.toolCalls
  call : b.call = a.call

theorem Untouched.trans {a b c : Accumulator} (h : Untouched a b) (h' : Untouched b c) : Untouched a c :=
  ⟨h'.splitter.trans h.splitter, h'.charged.trans h.charged, h'.toolCalls.trans h.toolCalls, h'.call.trans h.call⟩

theorem untouched_retract (a : Accumulator) : Untouched a a.retract := by
  have hroute : Untouched a a.routeHeld := by
    unfold Accumulator.routeHeld
    split_ifs <;> exact ⟨rfl, rfl, rfl, rfl⟩
  have htake : Untouched a.routeHeld a.routeHeld.takeBack := by
    unfold Accumulator.takeBack
    split_ifs <;> exact ⟨rfl, rfl, rfl, rfl⟩
  exact hroute.trans ⟨htake.splitter, htake.charged, htake.toolCalls, htake.call⟩

theorem untouched_segments (segs : List Segment) (s : Accumulator × Nat) :
    Untouched s.1 (segs.foldl Accumulator.absorbSegment s).1 := by
  induction segs generalizing s with
  | nil => exact ⟨rfl, rfl, rfl, rfl⟩
  | cons seg segs ih =>
    have hsegment : Untouched s.1 (Accumulator.absorbSegment s seg).1 := by
      cases seg with
      | reasoning r => exact ⟨rfl, rfl, rfl, rfl⟩
      | speech t =>
        unfold Accumulator.absorbSegment
        dsimp only
        split_ifs <;> exact ⟨rfl, rfl, rfl, rfl⟩
    exact hsegment.trans (ih _)

theorem untouched_absorbSplit (a : Accumulator) (split : Split) (charge : Nat) : Untouched a (a.absorbSplit split charge) := by
  have hstart : Untouched a (if split.retractSpeech then a.retract else a) := by
    split_ifs
    · exact untouched_retract a
    · exact ⟨rfl, rfl, rfl, rfl⟩
  have hsegments := hstart.trans (untouched_segments split.segments (_, charge))
  exact ⟨hsegments.splitter, hsegments.charged, hsegments.toolCalls, hsegments.call⟩

theorem Accounted.text {a : Accumulator} (h : Accounted 0 a) (delta : Json) :
    Accounted 0 (a.absorbText delta) ∧ (a.absorbText delta).splitter = fed a.splitter delta ∧
      (a.absorbText delta).heldCharged = a.heldCharged + if swallows a.splitter delta then 1 else 0 := by
  obtain ⟨hfields, hheld, hsplitter, hcharged⟩ := h.fields delta
  unfold Accumulator.absorbText
  generalize hostedFields.foldl (Accumulator.absorbField delta) (a, false) = s at *
  obtain ⟨b, charged⟩ := s
  dsimp only at *
  unfold Accumulator.absorbContent fed swallows chunkText
  rw [hcharged, hsplitter]
  by_cases hnil : textIn delta "content" = []
  · simp [hnil, hheld, hsplitter, hfields]
  · rw [if_neg hnil, if_neg hnil]
    dsimp only
    have hready := { hfields.charge (if reasons delta then 0 else 1) with :
      Accounted (if reasons delta then 0 else 1)
        { b with charged := b.charged + (if reasons delta then 0 else 1), splitter := (a.splitter.feed (textIn delta "content")).1 } }
    obtain ⟨hsplit, hleft⟩ := hready.split (a.splitter.feed (textIn delta "content")).2
    refine ⟨hsplit, (untouched_absorbSplit _ _ _).splitter, ?_⟩
    rw [hleft, hheld]
    cases reasons delta <;> simp [hnil]

theorem Accounted.calls {a : Accumulator} (h : Accounted 0 a) (delta : Json) :
    Accounted 0 (a.absorbCalls delta) ∧ (a.absorbCalls delta).splitter = a.splitter ∧
      (a.absorbCalls delta).heldCharged = a.heldCharged := by
  unfold Accumulator.absorbCalls
  split
  · exact ⟨h, rfl, rfl⟩
  · exact ⟨{ h with }, rfl, rfl⟩

/-- One chunk leaves the ledger in order. What it leaves in the buffer's charge is its own. -/
theorem Accounted.absorb {a : Accumulator} (h : Accounted 0 a) (w : HostedWire) (value : Json) :
    Accounted 0 (a.absorb w value) ∧
      ∀ rest, (a.absorb w value).heldCharged + swallowed (a.absorb w value).splitter rest =
        a.heldCharged + swallowed a.splitter (value :: rest) := by
  have hcall : Accounted 0 (a.absorbAttribution w value) := { h with }
  cases hdelta : deltaOf value with
  | none =>
    have hstep : a.absorb w value = a.absorbAttribution w value := by
      unfold Accumulator.absorb
      rw [hdelta]
    rw [hstep]
    refine ⟨hcall, fun rest => ?_⟩
    rw [swallowed, hdelta]
    rfl
  | some delta =>
    have hstep : a.absorb w value = ((a.absorbAttribution w value).absorbText delta).absorbCalls delta := by
      unfold Accumulator.absorb
      rw [hdelta]
    obtain ⟨htext, hsplitter, hheld⟩ := hcall.text delta
    obtain ⟨hcalls, hsplitter', hheld'⟩ := htext.calls delta
    rw [hstep]
    refine ⟨hcalls, fun rest => ?_⟩
    rw [hheld', hheld, hsplitter', hsplitter, swallowed, hdelta, Nat.add_assoc]
    rfl

theorem Accounted.foldl {a : Accumulator} (h : Accounted 0 a) (w : HostedWire) (values : List Json) :
    Accounted 0 (values.foldl (Accumulator.absorb w) a) ∧
      (values.foldl (Accumulator.absorb w) a).heldCharged = a.heldCharged + swallowed a.splitter values := by
  induction values generalizing a with
  | nil => exact ⟨h, rfl⟩
  | cons value values ih =>
    obtain ⟨hstep, hheld⟩ := h.absorb w value
    obtain ⟨hrest, hleft⟩ := ih hstep
    exact ⟨hrest, hleft.trans (hheld values)⟩

theorem accounted_new (model : String) : Accounted 0 (Accumulator.new model) where
  charged := rfl
  reported := rfl
  answered := rfl
  moved := by
    intro before n after heq
    cases before <;> cases heq
  shown := rfl
  closed := rfl
  held := rfl

/-! ## The end of the call -/

theorem Accounted.tail {a : Accumulator} (h : Accounted 0 a) (segs : List Segment) :
    let b := segs.foldl Accumulator.finishSegment a
    Accounted 0 b ∧ b.heldCharged = a.heldCharged ∧ b.charged = a.charged ∧ b.call = a.call ∧
      b.lastWasReasoning = a.lastWasReasoning := by
  induction segs generalizing a with
  | nil => exact ⟨h, rfl, rfl, rfl, rfl⟩
  | cons seg segs ih =>
    rw [List.foldl_cons]
    cases seg with
    | reasoning r => exact ih (h.reasoning r 0 (Nat.le_refl _) a.lastWasReasoning)
    | speech t =>
      have hshown : Accumulator.finishSegment a (.speech t) = { a with told := a.told ++ [.delta t 0], text := a.text ++ t } :=
        if_pos h.closed
      rw [hshown]
      exact ih (h.speech t 0 (Nat.le_refl _) a.lastWasReasoning)

/-- The tokens of a call that ended: what was told as reasoning and what the answer was charged fall
short of the count by one for each chunk that was swallowed. -/
theorem Accounted.finish {a : Accumulator} (h : Accounted 0 a) :
    Accounted 0 a.finish ∧ a.finish.heldCharged = a.heldCharged ∧
      a.finish.charged = if a.lastWasReasoning then max a.charged a.call.completionTokens else a.charged := by
  have hsplitter : Accounted 0 { a with splitter := a.splitter.finish.1 } := { h with }
  obtain ⟨htail, hheld, hcharged, hcall, hlast⟩ := hsplitter.tail a.splitter.finish.2.segments
  unfold Accumulator.finish
  dsimp only at *
  generalize a.splitter.finish.2.segments.foldl Accumulator.finishSegment { a with splitter := a.splitter.finish.1 } = b at *
  have hrelease : b.release = b := if_pos htail.held
  rw [hrelease, ← hheld, ← hcharged, ← hcall, ← hlast]
  unfold Accumulator.settle
  dsimp only
  split_ifs with howed hlast hlast
  · have hcharge := (htail.charge (b.call.completionTokens - b.charged)).reasoning [] _ (Nat.le_refl _) b.lastWasReasoning
    rw [Nat.sub_self] at hcharge
    have htotal : b.charged + (b.call.completionTokens - b.charged) = b.call.completionTokens := by omega
    rw [htotal] at hcharge
    exact ⟨hcharge, rfl, by dsimp only; omega⟩
  · exact absurd howed.2 hlast
  · refine ⟨htail, rfl, ?_⟩
    have hnone : ¬0 < b.call.completionTokens - b.charged := fun hpos => howed ⟨hpos, hlast⟩
    omega
  · exact ⟨htail, rfl, rfl⟩

/-! ## What is charged -/

/-- A chunk that brings text is charged, once. -/
def brings (value : Json) : Bool :=
  match deltaOf value with
  | none => false
  | some delta => reasons delta || chunkText delta ≠ []

theorem charged_fields (a : Accumulator) (delta : Json) :
    let s := hostedFields.foldl (Accumulator.absorbField delta) (a, false)
    s.1.charged = a.charged + (if reasons delta then 1 else 0) ∧ s.2 = reasons delta := by
  unfold hostedFields reasons Accumulator.absorbField
  by_cases hfirst : textIn delta "reasoning" = [] <;> by_cases hsecond : textIn delta "reasoning_content" = [] <;>
    simp [hostedFields, hfirst, hsecond]

theorem charged_absorb (w : HostedWire) (a : Accumulator) (value : Json) :
    (a.absorb w value).charged = a.charged + if brings value then 1 else 0 := by
  have hcalls (b : Accumulator) (delta : Json) : (b.absorbCalls delta).charged = b.charged := by
    unfold Accumulator.absorbCalls
    split <;> rfl
  have hattribution : (a.absorbAttribution w value).charged = a.charged := rfl
  unfold Accumulator.absorb brings
  rw [← hattribution]
  cases deltaOf value with
  | none => rfl
  | some delta =>
    obtain ⟨hcharged, hflag⟩ := charged_fields (a.absorbAttribution w value) delta
    dsimp only
    rw [hcalls]
    unfold Accumulator.absorbText Accumulator.absorbContent chunkText
    generalize hostedFields.foldl (Accumulator.absorbField delta) (a.absorbAttribution w value, false) = s at *
    dsimp only
    split_ifs with hnil hboth hboth <;>
      simp_all [(untouched_absorbSplit _ _ _).charged]

theorem charged_foldl (w : HostedWire) (values : List Json) (a : Accumulator) :
    (values.foldl (Accumulator.absorb w) a).charged = a.charged + values.countP brings := by
  induction values generalizing a with
  | nil => rfl
  | cons value values ih =>
    rw [List.foldl_cons, ih, charged_absorb, List.countP_cons, Nat.add_assoc, Nat.add_comm (values.countP brings)]

/-! ## A stream -/

def redactedText : String := "<OPENROUTER_API_KEY redacted>"

/-- `ApiKey::redact`. -/
def redact (secret text : String) : String :=
  if secret = "" then text
  else String.ofList (Text.replace text.toList secret.toList redactedText.toList)

def providerError (secret detail : String) (retriable : Bool) : ProviderError :=
  { detail := redact secret detail, retriable }

/-- One stream of frames, folded; an error ends it where it stands. -/
def consume (w : HostedWire) (secret host : String) (a : Accumulator) :
    List (Except Mcp.IoError Frame) → Accumulator × Except ProviderError Unit
  | [] => (a.finish, .ok ())
  | .error e :: _ => (a, .error (providerError secret e.text true))
  | .ok .done :: _ => (a.finish, .ok ())
  | .ok (.data payload) :: rest =>
    match w.fromStr payload with
    | none =>
      let began := String.ofList (payload.toList.take 120)
      (a, .error (providerError secret
        ("malformed SSE payload from " ++ host ++ ": " ++ w.parseError payload ++ "; began: " ++ began) true))
    | some value =>
      match value.get? "error" with
      | some err =>
        let message := ((err.get? "message").bind Json.asStr).getD "(no message)"
        (a, .error (providerError secret (host ++ " reported mid-stream: " ++ message) true))
      | none => consume w secret host (a.absorb w value) rest

/-- The values of a stream that are folded in. -/
def valuesOf (w : HostedWire) : List (Except Mcp.IoError Frame) → List Json
  | .ok (.data payload) :: rest =>
    match w.fromStr payload with
    | none => []
    | some value =>
      match value.get? "error" with
      | some _ => []
      | none => value :: valuesOf w rest
  | _ => []

theorem consume_eq (w : HostedWire) (secret host : String) (frames : List (Except Mcp.IoError Frame)) (a : Accumulator) :
    ((consume w secret host a frames).2 = .ok () ∧
        (consume w secret host a frames).1 = ((valuesOf w frames).foldl (Accumulator.absorb w) a).finish) ∨
      ((∃ text, (consume w secret host a frames).2 = .error (providerError secret text true)) ∧
        (consume w secret host a frames).1 = (valuesOf w frames).foldl (Accumulator.absorb w) a) := by
  induction frames generalizing a with
  | nil => exact .inl ⟨rfl, rfl⟩
  | cons frame frames ih =>
    match frame with
    | .error e => exact .inr ⟨⟨_, rfl⟩, rfl⟩
    | .ok .done => exact .inl ⟨rfl, rfl⟩
    | .ok (.data payload) =>
      unfold consume valuesOf
      cases w.fromStr payload with
      | none => exact .inr ⟨⟨_, rfl⟩, rfl⟩
      | some value =>
        dsimp only
        cases value.get? "error" with
        | some err => exact .inr ⟨⟨_, rfl⟩, rfl⟩
        | none => exact ih _

/-- The tokens of a stream: one for each chunk that brings text, or the provider's own count where
reasoning came last and the count is higher. The caller is told of all of them but those of the
chunks that were swallowed; and what is on the screen is the text of the call, also when it fails. -/
theorem consumed (w : HostedWire) (secret host model : String) (frames : List (Except Mcp.IoError Frame)) :
    let c := consume w secret host (.new model) frames
    let values := valuesOf w frames
    let b := values.foldl (Accumulator.absorb w) (.new model)
    shownOf c.1.told = c.1.text ∧ MovesExactly c.1.told ∧
      reported c.1.told + answered c.1.told + swallowed {} values =
        if c.2.isOk ∧ b.lastWasReasoning then max (values.countP brings) b.call.completionTokens
        else values.countP brings := by
  obtain ⟨hb, hswallowed⟩ := (accounted_new model).foldl w (valuesOf w frames)
  have hcount := charged_foldl w (valuesOf w frames) (.new model)
  rw [show (Accumulator.new model).charged = 0 from rfl, Nat.zero_add] at hcount
  rw [show (Accumulator.new model).heldCharged = 0 from rfl, Nat.zero_add] at hswallowed
  dsimp only
  rcases consume_eq w secret host frames (.new model) with ⟨hok, hend⟩ | ⟨⟨text, herror⟩, hend⟩
  · obtain ⟨hfinish, hheld, hcharged⟩ := hb.finish
    have htotal := hfinish.charged
    rw [hok, hend]
    refine ⟨hfinish.shown, hfinish.moved, ?_⟩
    rw [← hfinish.reported, ← hfinish.answered]
    rw [hheld, hswallowed, hcharged, hcount] at htotal
    simp only [Except.isOk, Except.toBool, true_and]
    exact htotal.symm
  · have htotal := hb.charged
    rw [herror, hend]
    refine ⟨hb.shown, hb.moved, ?_⟩
    rw [← hb.reported, ← hb.answered]
    rw [hswallowed, hcount] at htotal
    simp only [Except.isOk, Except.toBool, Bool.false_eq_true, false_and, if_false]
    exact htotal.symm

/-! ## Tool calls -/

theorem kept_absorbText (a : Accumulator) (delta : Json) :
    (a.absorbText delta).toolCalls = a.toolCalls ∧ (a.absorbText delta).call = a.call := by
  have hfields : (hostedFields.foldl (Accumulator.absorbField delta) (a, false)).1.toolCalls = a.toolCalls ∧
      (hostedFields.foldl (Accumulator.absorbField delta) (a, false)).1.call = a.call := by
    unfold hostedFields Accumulator.absorbField
    simp only [List.foldl_cons, List.foldl_nil]
    split_ifs <;> exact ⟨rfl, rfl⟩
  unfold Accumulator.absorbText Accumulator.absorbContent
  dsimp only
  split_ifs
  · exact hfields
  all_goals
    have hsplit := untouched_absorbSplit
    exact ⟨(hsplit _ _ _).toolCalls.trans hfields.1, (hsplit _ _ _).call.trans hfields.2⟩

/-- Who answered is read before the text. -/
theorem call_absorb (w : HostedWire) (a : Accumulator) (value : Json) :
    (a.absorb w value).call = (a.absorbAttribution w value).call := by
  unfold Accumulator.absorb
  cases deltaOf value with
  | none => rfl
  | some delta =>
    have hcalls (b : Accumulator) : (b.absorbCalls delta).call = b.call := by
      unfold Accumulator.absorbCalls
      split <;> rfl
    exact (hcalls _).trans (kept_absorbText _ delta).2

/-- The calls are gathered from their fragments, as the local adapter gathers them. -/
theorem toolCalls_absorb (w : HostedWire) (a : Accumulator) (value : Json) :
    (a.absorb w value).toolCalls = Gather.gather a.toolCalls (fragmentsIn value) := by
  unfold Accumulator.absorb fragmentsIn
  cases deltaOf value with
  | none => rfl
  | some delta =>
    dsimp only [Option.bind_some]
    unfold Accumulator.absorbCalls
    cases (delta.get? "tool_calls").bind Json.asArray with
    | none => exact (kept_absorbText _ _).1
    | some calls =>
      dsimp only
      rw [foldl_absorbCall, (kept_absorbText _ _).1]
      rfl

theorem toolCalls_values (w : HostedWire) (values : List Json) (a : Accumulator) :
    (values.foldl (Accumulator.absorb w) a).toolCalls = Gather.gather a.toolCalls (values.flatMap fragmentsIn) := by
  induction values generalizing a with
  | nil => rfl
  | cons value values ih => rw [List.foldl_cons, ih, toolCalls_absorb, List.flatMap_cons, Gather.gather_append]

theorem kept_finish (a : Accumulator) : a.finish.toolCalls = a.toolCalls ∧ a.finish.call = a.call := by
  have hrelease (a : Accumulator) : a.release.toolCalls = a.toolCalls ∧ a.release.call = a.call := by
    unfold Accumulator.release Accumulator.routeHeld
    split_ifs <;> exact ⟨rfl, rfl⟩
  have hsettle (a : Accumulator) : a.settle.toolCalls = a.toolCalls ∧ a.settle.call = a.call := by
    unfold Accumulator.settle
    dsimp only
    split_ifs <;> exact ⟨rfl, rfl⟩
  have htail (segs : List Segment) (a : Accumulator) :
      (segs.foldl Accumulator.finishSegment a).toolCalls = a.toolCalls ∧
        (segs.foldl Accumulator.finishSegment a).call = a.call := by
    induction segs generalizing a with
    | nil => exact ⟨rfl, rfl⟩
    | cons seg segs ih =>
      rw [List.foldl_cons, (ih _).1, (ih _).2]
      cases seg with
      | reasoning r => exact ⟨rfl, rfl⟩
      | speech t =>
        unfold Accumulator.finishSegment
        dsimp only
        split_ifs <;> exact ⟨rfl, rfl⟩
  unfold Accumulator.finish
  dsimp only
  rw [(hsettle _).1, (hsettle _).2, (hrelease _).1, (hrelease _).2, (htail _ _).1, (htail _ _).2]
  exact ⟨rfl, rfl⟩

/-- A step carries the calls that have a name, if none of them is for a control tool. -/
theorem carries_named (w : Wire) (f : Fold) (hne : f.toolCalls.values.filter (·.name ≠ "") ≠ [])
    (hplain : ∀ c ∈ f.toolCalls.values.filter (·.name ≠ ""), endsReading c.name = false) :
    Carries w (f.intoStep w) (f.toolCalls.values.filter (·.name ≠ "")) := by
  have hwell := wellFormed_message w f
  rcases structuredStep_spec (f.message w) with ⟨hnil, -⟩ | ⟨-, -, batch, hstep, hmap⟩ | ⟨call, hmem, hends, -⟩
  · rw [hwell] at hnil
    exact absurd (List.map_eq_nil_iff.mp hnil) hne
  · refine ⟨batch, ?_, ?_⟩
    · unfold Fold.intoStep parseStep
      rw [hstep]
    · rw [hmap, hwell, List.map_map]
      simp only [Function.comp_def, callName_callJson]
  · rw [hwell] at hmem
    obtain ⟨c, hc, rfl⟩ := List.mem_map.mp hmem
    rw [callName_callJson, hplain c hc] at hends
    cases hends

end MarloweAgent.Provider
