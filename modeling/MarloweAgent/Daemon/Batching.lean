import MarloweAgent.Daemon.Reading
import MarloweAgent.Library.Trace

/-! The conversation fold over batches. The sweep that ends a batch closes thinking blocks,
and an event that looks at whether a block is open looks at the last entry, which the sweep
leaves alone; an entry that becomes the last by a retraction is opened by it. So no cut of the
events is seen, and no text is lost. -/

namespace MarloweAgent.Daemon
open Library Loop Tools View

/-! ## The sweep -/

@[simp] theorem closeEntry_closeEntry (entry : View.Entry) :
    closeEntry (closeEntry entry) = closeEntry entry := by
  cases entry <;> rfl

@[simp] theorem modelSpeech_closeEntry (entry : View.Entry) :
    modelSpeech (closeEntry entry) = modelSpeech entry := by
  cases entry <;> rfl

theorem thinking_closeEntry (entry : View.Entry) :
    thinking (closeEntry entry) = (thinking entry).map fun b => (b.1, b.2.1, true) := by
  cases entry <;> rfl

/-- An entry that is no thinking is not closed. -/
theorem closeEntry_of_thinking_none {entry : View.Entry} (h : thinking entry = none) :
    closeEntry entry = entry := by
  cases entry <;> first | rfl | cases h

theorem map_closeEntry_of_none {entries : List View.Entry}
    (h : ∀ e ∈ entries, thinking e = none) : entries.map closeEntry = entries := by
  rw [List.map_congr_left fun e he => closeEntry_of_thinking_none (h e he), List.map_id']

/-- Two transcripts a sweep does not tell apart: the same but for closed blocks, and the same
at their end. -/
structure SameSwept (t u : List View.Entry) : Prop where
  closed : t.map closeEntry = u.map closeEntry
  last : t.getLast? = u.getLast?

namespace SameSwept

variable {t u : List View.Entry}

theorem swept (h : SameSwept t u) :
    closeFinishedReasoning false t = closeFinishedReasoning false u := by
  rw [closeFinished_false, closeFinished_false, h.closed, h.last]

theorem finished (h : SameSwept t u) :
    closeFinishedReasoning true t = closeFinishedReasoning true u := by
  rw [closeFinished_true, closeFinished_true, h.closed]

/-- The sweep itself is not seen. -/
theorem sweep (t : List View.Entry) : SameSwept (closeFinishedReasoning false t) t := by
  rw [closeFinished_false]
  rcases List.eq_nil_or_concat t with rfl | ⟨init, e, rfl⟩
  · exact ⟨rfl, rfl⟩
  · constructor <;> simp [List.concat_eq_append]

theorem nil_iff (h : SameSwept t u) : t = [] ↔ u = [] := by
  have hlength := congrArg List.length h.closed
  simp only [List.length_map] at hlength
  rw [← List.length_eq_zero_iff, ← List.length_eq_zero_iff, hlength]

/-- A change at the end is the same change. -/
theorem onLast (h : SameSwept t u) (f : View.Entry → Option View.Entry) (entry : View.Entry) :
    SameSwept (onLast f entry t) (onLast f entry u) := by
  have hbind : t.getLast?.bind f = u.getLast?.bind f := by rw [h.last]
  unfold Library.onLast
  rw [← hbind]
  split
  next changed _ =>
    have hinit : t.dropLast.map closeEntry = u.dropLast.map closeEntry := by
      rw [List.map_dropLast, List.map_dropLast, h.closed]
    exact ⟨by rw [List.map_append, List.map_append, hinit], by simp⟩
  next => exact ⟨by rw [List.map_append, List.map_append, h.closed], by simp⟩

theorem concat (h : SameSwept t u) (entry : View.Entry) :
    SameSwept (t ++ [entry]) (u ++ [entry]) := by
  have honLast := h.onLast (fun _ => none) entry
  simpa [Library.onLast] using honLast

theorem of_finished (h : SameSwept t u) :
    SameSwept (closeFinishedReasoning true t) (closeFinishedReasoning true u) := by
  rw [h.finished]
  exact ⟨rfl, rfl⟩

variable {b b' a a' : List View.Entry} {x x' : View.Entry}

/-- What stands after an entry. -/
theorem after (h : SameSwept (b ++ x :: a) (b' ++ x' :: a'))
    (ha : a.map closeEntry = a'.map closeEntry) : SameSwept a a' := by
  refine ⟨ha, ?_⟩
  have hlength := congrArg List.length ha
  simp only [List.length_map] at hlength
  have hlast := h.last
  rcases List.eq_nil_or_concat a with rfl | ⟨init, y, rfl⟩ <;>
    rcases List.eq_nil_or_concat a' with rfl | ⟨init', y', rfl⟩
  · rfl
  · simp at hlength
  · simp at hlength
  · have hends : some y = some y' := by
      simpa only [List.concat_eq_append, ← List.cons_append, ← List.append_assoc,
        List.getLast?_concat] using hlast
    simpa using hends

/-- The same entry put between. -/
theorem between (hb : b.map closeEntry = b'.map closeEntry) (ha : SameSwept a a')
    (y : View.Entry) : SameSwept (b ++ y :: a) (b' ++ y :: a') := by
  constructor
  · rw [List.map_append, List.map_append, List.map_cons, List.map_cons, hb, ha.closed]
  · rw [List.getLast?_append, List.getLast?_append, List.getLast?_cons, List.getLast?_cons,
      ha.last]
    rfl

theorem between_append (m : List View.Entry) (ha : SameSwept a a') :
    SameSwept (m ++ a) (m ++ a') := by
  induction m with
  | nil => exact ha
  | cons y m ih => exact between (b := []) rfl ih y

/-- The splits of two such transcripts stand at the same place. -/
theorem splitThinking (h : SameSwept t u) :
    (splitLast thinking t = none ∧ splitLast thinking u = none) ∨
      ∃ before before' text total done done' later later',
        splitLast thinking t = some (before, (text, total, done), later) ∧
          splitLast thinking u = some (before', (text, total, done'), later') ∧
          before.map closeEntry = before'.map closeEntry ∧
          later.map closeEntry = later'.map closeEntry := by
  have hsplits := congrArg (splitLast thinking) h.closed
  rw [splitLast_map thinking_closeEntry, splitLast_map thinking_closeEntry] at hsplits
  cases ht : splitLast thinking t with
  | none =>
    cases hu : splitLast thinking u with
    | none => exact .inl ⟨rfl, rfl⟩
    | some split => rw [ht, hu] at hsplits; cases hsplits
  | some split =>
    cases hu : splitLast thinking u with
    | none => rw [ht, hu] at hsplits; cases hsplits
    | some split' =>
      obtain ⟨before, ⟨text, total, done⟩, later⟩ := split
      obtain ⟨before', ⟨text', total', done'⟩, later'⟩ := split'
      rw [ht, hu] at hsplits
      simp only [Option.map_some, Option.some.injEq, Prod.mk.injEq] at hsplits
      obtain ⟨hbefore, ⟨rfl, rfl, -⟩, hlater⟩ := hsplits
      exact .inr ⟨before, before', text, total, done, done', later, later', rfl, rfl, hbefore,
        hlater⟩

theorem splitSpeech (h : SameSwept t u) :
    (splitLast modelSpeech t = none ∧ splitLast modelSpeech u = none) ∨
      ∃ before before' spoken later later',
        splitLast modelSpeech t = some (before, spoken, later) ∧
          splitLast modelSpeech u = some (before', spoken, later') ∧
          before.map closeEntry = before'.map closeEntry ∧
          later.map closeEntry = later'.map closeEntry := by
  have hspeech : ∀ e, modelSpeech (closeEntry e) = (modelSpeech e).map id := fun e => by
    rw [modelSpeech_closeEntry, Option.map_id, id_eq]
  have hsplits := congrArg (splitLast modelSpeech) h.closed
  rw [splitLast_map hspeech, splitLast_map hspeech] at hsplits
  cases ht : splitLast modelSpeech t with
  | none =>
    cases hu : splitLast modelSpeech u with
    | none => exact .inl ⟨rfl, rfl⟩
    | some split => rw [ht, hu] at hsplits; cases hsplits
  | some split =>
    cases hu : splitLast modelSpeech u with
    | none => rw [ht, hu] at hsplits; cases hsplits
    | some split' =>
      obtain ⟨before, spoken, later⟩ := split
      obtain ⟨before', spoken', later'⟩ := split'
      rw [ht, hu] at hsplits
      simp only [Option.map_some, id_eq, Option.some.injEq, Prod.mk.injEq] at hsplits
      obtain ⟨hbefore, rfl, hlater⟩ := hsplits
      exact .inr ⟨before, before', spoken, later, later', rfl, rfl, hbefore, hlater⟩

theorem of_settle (h : SameSwept t u) (tokens : Nat) :
    SameSwept (settle tokens t) (settle tokens u) := by
  obtain ⟨ht, hu⟩ | ⟨before, before', text, total, done, done', later, later', ht, hu, hbefore,
    hlater⟩ := h.splitThinking
  · simpa [settle, ht, hu] using h
  · simp only [settle, ht, hu]
    obtain ⟨x, rfl, hx, -⟩ := splitLast_eq_some ht
    obtain ⟨x', rfl, hx', -⟩ := splitLast_eq_some hu
    have hafter := h.after hlater
    -- a block with entries after it may be open in one and closed in the other; the last may not
    cases hcut : later with
    | nil =>
      obtain rfl : later' = [] := hafter.nil_iff.mp hcut
      have hsame : x = x' := by simpa [hcut] using h.last
      subst hsame
      obtain ⟨-, -, rfl⟩ : text = text ∧ total = total ∧ done = done' := by
        simpa [hx] using hx'
      exact between hbefore ⟨rfl, rfl⟩ _
    | cons y rest =>
      subst hcut
      constructor
      · simp only [List.map_append, List.map_cons, hbefore, ← hlater, closeEntry]
      · have hlast := hafter.last
        rw [List.getLast?_append, List.getLast?_append, List.getLast?_cons (l := later'), ← hlast]
        simp only [List.getLast?_cons, Option.getD_some, Option.some_or]

theorem of_retract (h : SameSwept t u) (tokens : Nat) :
    SameSwept (retract tokens t) (retract tokens u) := by
  obtain ⟨ht, hu⟩ | ⟨before, before', spoken, later, later', ht, hu, hbefore, hlater⟩ :=
    h.splitSpeech
  · simpa [retract, ht, hu] using h
  · obtain ⟨x, rfl, -, -⟩ := splitLast_eq_some ht
    obtain ⟨x', rfl, -, -⟩ := splitLast_eq_some hu
    have hafter := h.after hlater
    have hsplits := congrArg (splitLast thinking) hbefore
    rw [splitLast_map thinking_closeEntry, splitLast_map thinking_closeEntry] at hsplits
    cases hb : splitLast thinking before with
    | none =>
      cases hb' : splitLast thinking before' with
      | some split' => rw [hb, hb'] at hsplits; cases hsplits
      | none =>
        simp only [retract, ht, hu, hb, hb']
        exact between hbefore hafter _
    | some split =>
      cases hb' : splitLast thinking before' with
      | none => rw [hb, hb'] at hsplits; cases hsplits
      | some split' =>
        obtain ⟨earlier, ⟨text, total, done⟩, middle⟩ := split
        obtain ⟨earlier', ⟨text', total', done'⟩, middle'⟩ := split'
        rw [hb, hb'] at hsplits
        simp only [Option.map_some, Option.some.injEq, Prod.mk.injEq] at hsplits
        obtain ⟨hearlier, ⟨rfl, rfl, -⟩, hmiddle⟩ := hsplits
        obtain ⟨-, -, -, hnone⟩ := splitLast_eq_some hb
        obtain ⟨-, -, -, hnone'⟩ := splitLast_eq_some hb'
        -- what stands between holds no thinking, so the sweep leaves it as it is
        rw [map_closeEntry_of_none hnone, map_closeEntry_of_none hnone'] at hmiddle
        subst hmiddle
        simp only [retract, ht, hu, hb, hb', List.append_assoc, List.cons_append]
        exact between hearlier (between_append middle hafter) _

end SameSwept

/-! ## One event -/

/-- What an event does to the transcript. -/
def transcriptAfter : Protocol.Event → List View.Entry → List View.Entry
  | .text delta => say delta
  | .user text => (· ++ [.user text])
  | .speechRetracted tokens => retract tokens
  | .reasoning delta tokens => if delta = "" then settle tokens else think delta tokens
  | .tool id verb target state summary detail =>
    toolLine (toolCall id verb target state summary detail)
  | .compacted turns => (· ++ [.compacted turns])
  | .done _ detail _ _ => fun transcript =>
    closeFinishedReasoning true
      (if detail = "" then transcript else transcript ++ [.said (.model detail)])
  | _ => id

/-- The rest of the view does not look at the transcript. -/
theorem applyEvent_transcript (sayable : String → String) (view : SessionView)
    (t : List View.Entry) (event : Protocol.Event) :
    applyEvent sayable { view with transcript := t } event =
      { applyEvent sayable view event with transcript := transcriptAfter event t } := by
  cases event with
  | cadence ttftMs tokens sinceFirstMs warm =>
    simp only [applyEvent]
    split <;> rfl
  | approval decision =>
    simp only [applyEvent]
    split <;> rfl
  | reasoning delta tokens =>
    simp only [applyEvent, transcriptAfter]
    split <;> rfl
  | _ => rfl

theorem transcript_applyEvent (sayable : String → String) (view : SessionView)
    (event : Protocol.Event) :
    (applyEvent sayable view event).transcript = transcriptAfter event view.transcript :=
  congrArg SessionView.transcript (applyEvent_transcript sayable view view.transcript event)

theorem transcript_foldl (sayable : String → String) (view : SessionView)
    (events : List Protocol.Event) :
    (events.foldl (applyEvent sayable) view).transcript =
      events.foldl (fun t event => transcriptAfter event t) view.transcript := by
  induction events generalizing view with
  | nil => rfl
  | cons event rest ih => rw [List.foldl_cons, List.foldl_cons, ih, transcript_applyEvent]

/-- An event does not look at what a sweep would close. -/
theorem SameSwept.transcriptAfter {t u : List View.Entry} (h : SameSwept t u)
    (event : Protocol.Event) :
    SameSwept (transcriptAfter event t) (transcriptAfter event u) := by
  cases event with
  | text delta => exact h.onLast _ _
  | user text => exact h.concat _
  | speechRetracted tokens => exact h.of_retract tokens
  | reasoning delta tokens =>
    simp only [Daemon.transcriptAfter]
    split
    · exact h.of_settle tokens
    · exact h.onLast _ _
  | tool id verb target state summary detail => exact h.onLast _ _
  | compacted turns => exact h.concat _
  | done outcome detail spendMicrosUsd elapsedMs =>
    simp only [Daemon.transcriptAfter]
    split
    · exact h.of_finished
    · exact (h.concat _).of_finished
  | _ => exact h

/-- The sweep that ends a batch. -/
def sweepView (view : SessionView) : SessionView :=
  { view with transcript := closeFinishedReasoning false view.transcript }

theorem sweep_harmless (sayable : String → String) :
    Batched.Harmless (applyEvent sayable) sweepView where
  again view := by
    simp only [sweepView, (SameSwept.sweep view.transcript).swept]
  before view event := by
    have hsame := ((SameSwept.sweep view.transcript).transcriptAfter event).swept
    have hview := applyEvent_transcript sayable view (closeFinishedReasoning false view.transcript)
      event
    have hself := applyEvent_transcript sayable view view.transcript event
    simp only [sweepView, hview, hsame]
    rw [← transcript_applyEvent sayable view event]

/-! ## The text -/

/-- The model's text in an entry, spoken or thought. -/
def entryText : View.Entry → List Char
  | .said (.model text) => text.toList
  | .reasoning text _ _ => text.toList
  | _ => []

def textReading : Reading Char where
  entry := entryText
  speech := String.toList
  thought := String.toList
  said _ := rfl
  reasoning _ _ _ := rfl
  speech_append _ _ := String.toList_append
  thought_append _ _ := String.toList_append

def modelText (transcript : List View.Entry) : List Char := textReading.of transcript

/-- The text an event brings. -/
def eventText : Protocol.Event → List Char
  | .text delta => delta.toList
  | .reasoning delta _ => delta.toList
  | .done _ detail _ _ => detail.toList
  | _ => []

theorem modelText_concat (t : List View.Entry) (e : View.Entry) :
    modelText (t ++ [e]) = modelText t ++ entryText e := by
  simp [modelText, textReading]

theorem modelText_closeFinished (finished : Bool) (t : List View.Entry) :
    modelText (closeFinishedReasoning finished t) = modelText t :=
  textReading.of_closeFinished finished t

/-- An event keeps the text there is and brings its own. -/
theorem modelText_transcriptAfter (event : Protocol.Event) (t : List View.Entry) :
    (modelText (transcriptAfter event t)).Perm (modelText t ++ eventText event) := by
  cases event with
  | text delta => exact .of_eq (textReading.of_say delta t)
  | user text => simp [transcriptAfter, modelText_concat, entryText, eventText]
  | speechRetracted tokens =>
    simpa [transcriptAfter, eventText, modelText] using textReading.of_retract rfl tokens t
  | reasoning delta tokens =>
    simp only [transcriptAfter, eventText]
    split
    next hempty => simp [hempty, modelText, textReading.of_settle]
    next => exact .of_eq (textReading.of_think delta tokens t)
  | tool id verb target state summary detail =>
    refine List.Perm.of_eq (textReading.of_onLast (fun x y hy => ?_) t)
    split at hy
    · cases hy
      rfl
    · cases hy
  | compacted turns => simp [transcriptAfter, modelText_concat, entryText, eventText]
  | done outcome detail spendMicrosUsd elapsedMs =>
    simp only [transcriptAfter, eventText, modelText_closeFinished]
    split
    next hempty => simp [hempty]
    next => simp [modelText_concat, entryText]
  | _ => simp [transcriptAfter, eventText]

theorem modelText_foldl (t : List View.Entry) (events : List Protocol.Event) :
    (modelText (events.foldl (fun t event => transcriptAfter event t) t)).Perm
      (modelText t ++ events.flatMap eventText) := by
  induction events generalizing t with
  | nil => simp
  | cons event rest ih =>
    refine (ih (transcriptAfter event t)).trans ?_
    rw [List.flatMap_cons, ← List.append_assoc]
    exact (modelText_transcriptAfter event t).append_right _

/-- **The fold does not see how its events were cut into batches**, and it loses no text: each
character that was there or came is in one entry, once. -/
theorem batches_fold (sayable : String → String) (view : SessionView)
    (first : List Protocol.Event) (rest : List (List Protocol.Event)) :
    (first :: rest).foldl (applyEvents sayable) view =
        applyEvents sayable view (first :: rest).flatten ∧
      (modelText ((first :: rest).foldl (applyEvents sayable) view).transcript).Perm
        (modelText view.transcript ++ (first :: rest).flatten.flatMap eventText) := by
  have hbatches : (first :: rest).foldl (applyEvents sayable) view =
      applyEvents sayable view (first :: rest).flatten :=
    (sweep_harmless sayable).batches view first rest
  refine ⟨hbatches, ?_⟩
  rw [hbatches]
  simp only [applyEvents, modelText_closeFinished, transcript_foldl]
  exact modelText_foldl view.transcript _

end MarloweAgent.Daemon
