import MarloweAgent.Daemon.Alignment
import MarloweAgent.Library.Trace

/-! What the two corrections of the conversation pane reach. A retraction looks for the last speech of
the transcript, and a frame of a call looks at its last entry, so each reaches what it is about only
where that stands there. -/

namespace MarloweAgent.Daemon
open Library Loop Tools View

/-! ## The calls of a transcript -/

def calls : Reading ToolCall where
  entry
    | .tools calls => calls
    | _ => []
  speech _ := []
  thought _ := []
  said _ := rfl
  reasoning _ _ _ := rfl
  speech_append := Reading.nothing_append
  thought_append := Reading.nothing_append

theorem calls_tools (cs : List ToolCall) (t : List View.Entry) :
    calls.of (t ++ [.tools cs]) = calls.of t ++ cs := by
  rw [calls.of_append, calls.of_cons, calls.of_nil, List.append_nil]
  rfl

theorem calls_retract (tokens : Nat) (t : List View.Entry) : calls.of (retract tokens t) = calls.of t := by
  obtain ⟨-, hnone⟩ | ⟨before, spoken, after, rfl, -, -, ⟨-, hplace⟩ |
    ⟨earlier, text, total, done, between, rfl, -, -, hmoved⟩⟩ := retract_cases tokens t
  · rw [hnone]
  · rw [hplace, calls.of_append, calls.of_append, calls.of_cons, calls.of_cons]
    rfl
  · rw [hmoved]
    simp [calls.said, calls.reasoning, show ∀ s, calls.speech s = [] from fun _ => rfl,
      show ∀ s, calls.thought s = [] from fun _ => rfl]

/-- A call's place among its line's group, or after it. -/
theorem calls_toolLine (call : ToolCall) (t : List View.Entry) :
    (∃ init group, t = init ++ [.tools group] ∧
        toolLine call t = init ++ [.tools (upsertCall call group)]) ∨
      ((∀ group, t.getLast? ≠ some (.tools group)) ∧ toolLine call t = t ++ [.tools [call]]) := by
  obtain ⟨init, x, y, rfl, hy, htaken⟩ | ⟨hlast, hadded⟩ := onLast_cases
    (fun entry => match entry with
      | .tools calls => some (.tools (upsertCall call calls))
      | _ => none) (.tools [call]) t
  · split at hy
    next group =>
      cases hy
      exact .inl ⟨init, group, rfl, htaken⟩
    next => cases hy
  · refine .inr ⟨fun group hgroup => ?_, hadded⟩
    simp [hgroup] at hlast

def ofCall (id : Nat) (cs : List ToolCall) : List ToolCall := cs.filter (·.id = id)

theorem ofCall_append (id : Nat) (a b : List ToolCall) : ofCall id (a ++ b) = ofCall id a ++ ofCall id b :=
  List.filter_append _ _

theorem ofCall_eq_nil {id : Nat} {cs : List ToolCall} : ofCall id cs = [] ↔ ∀ c ∈ cs, c.id ≠ id := by
  simp [ofCall]

theorem ofCall_upsertCall_of_ne {id : Nat} {call : ToolCall} (h : call.id ≠ id) (cs : List ToolCall) :
    ofCall id (upsertCall call cs) = ofCall id cs := by
  induction cs with
  | nil => simp [upsertCall, ofCall, h]
  | cons c rest ih =>
    unfold upsertCall
    split
    next heq => simp [ofCall, h, heq]
    next =>
      unfold ofCall at ih ⊢
      rw [List.filter_cons, List.filter_cons, ih]

theorem ofCall_upsertCall {call : ToolCall} {cs : List ToolCall} (h : (ofCall call.id cs).length ≤ 1) :
    ofCall call.id (upsertCall call cs) = [call] := by
  induction cs with
  | nil => simp [upsertCall, ofCall]
  | cons c rest ih =>
    unfold upsertCall
    split
    next heq =>
      have hrest : ofCall call.id rest = [] := by
        simp only [ofCall, List.filter_cons, heq, decide_true, if_true, List.length_cons] at h ⊢
        exact List.eq_nil_of_length_eq_zero (by omega)
      simpa [ofCall] using ofCall_eq_nil.mp hrest
    next hne =>
      have hsame (l : List ToolCall) : ofCall call.id (c :: l) = ofCall call.id l := by
        simp [ofCall, hne]
      rw [hsame] at h ⊢
      exact ih h

/-! ## A pane between its events -/

/-- An event, or the sweep that ends a batch. -/
inductive Update
  | event (e : Protocol.Event)
  | sweep

/-- The view, and how many of its entries stood there when the current turn began. -/
structure Turning where
  view : SessionView
  start : Nat

namespace Turning

variable (sayable : String → String)

def transcript (s : Turning) : List View.Entry := s.view.transcript

/-- The entries of earlier turns. -/
def earlier (s : Turning) : List View.Entry := s.transcript.take s.start

/-- The entries of the current turn. -/
def current (s : Turning) : List View.Entry := s.transcript.drop s.start

def opening (view : SessionView) : Turning := ⟨{ view with transcript := [] }, 0⟩

def step (s : Turning) : Update → Turning
  | .event e =>
    let view := applyEvent sayable s.view e
    { view
      start := match e with
        | .done _ _ _ _ => view.transcript.length
        | _ => s.start }
  | .sweep => { s with view := sweepView s.view }

def reached (view : SessionView) (updates : List Update) : Turning :=
  updates.foldl (step sayable) (opening view)

theorem reached_concat (view : SessionView) (updates : List Update) (u : Update) :
    reached sayable view (updates ++ [u]) = (reached sayable view updates).step sayable u := by
  simp [reached]

theorem view_foldl (s : Turning) (events : List Protocol.Event) :
    ((events.map Update.event).foldl (step sayable) s).view = events.foldl (applyEvent sayable) s.view := by
  induction events generalizing s with
  | nil => rfl
  | cons e rest ih => exact ih (s.step sayable (.event e))

/-- A batch is its events and a sweep. -/
theorem view_batch (s : Turning) (events : List Protocol.Event) :
    ((events.map Update.event ++ [Update.sweep]).foldl (step sayable) s).view = applyEvents sayable s.view events := by
  rw [List.foldl_append, List.foldl_cons, List.foldl_nil]
  exact congrArg sweepView (view_foldl sayable s events)

end Turning

/-- The line an update is a frame of. -/
def Update.frame : Update → Option ToolCall
  | .event (.tool id verb target state summary detail) => some (toolCall id verb target state summary detail)
  | _ => none

def lastFrame (id : Nat) (updates : List Update) : List ToolCall :=
  (ofCall id (updates.filterMap Update.frame)).getLast?.toList

/-! ## What the corrections reach -/

/-- A retraction finds its speech in the current turn, and the thinking it goes to; or there is
no speech to take back. -/
def speaksHere (earlier current : List View.Entry) : Bool :=
  match splitLast modelSpeech current with
  | some (before, _, _) => (splitLast thinking before).isSome || (splitLast thinking earlier).isNone
  | none => (splitLast modelSpeech earlier).isNone

/-- The correction finds what it is about. -/
def Turning.findsOwn (s : Turning) : Update → Bool
  | .event (.speechRetracted _) => speaksHere s.earlier s.current
  | .event (.tool id _ _ _ _ _) => paneReaches id s.transcript
  | _ => true

section Retraction

variable {earlier current : List View.Entry} {tokens : Nat}

/-- A retraction that takes speech back changes the transcript. -/
theorem retract_ne_self {t : List View.Entry} (h : (splitLast modelSpeech t).isSome) :
    retract tokens t ≠ t := by
  obtain ⟨hnone, -⟩ | ⟨before, spoken, after, rfl, -, -, ⟨-, hplace⟩ |
    ⟨earlier, text, total, done, between, rfl, -, -, hmoved⟩⟩ := retract_cases tokens t
  · rw [splitLast_eq_none.mpr hnone] at h
    cases h
  · rw [hplace]
    intro hsame
    cases (List.cons.inj (List.append_cancel_left hsame)).1
  · rw [hmoved]
    intro hsame
    have hlength := congrArg List.length hsame
    simp at hlength

/-- **Where a retraction stays in the current turn.** -/
theorem retract_here_iff :
    retract tokens (earlier ++ current) = earlier ++ retract tokens current ↔
      speaksHere earlier current = true := by
  unfold speaksHere
  cases hspeech : splitLast modelSpeech current with
  | none =>
    have hcurrent : retract tokens current = current := by simp [retract, hspeech]
    have hwhole := splitLast_append_none hspeech earlier
    rw [hcurrent]
    cases hearlier : splitLast modelSpeech earlier with
    | none =>
      rw [hearlier] at hwhole
      simp [retract, hwhole]
    | some s =>
      have hsome : (splitLast modelSpeech (earlier ++ current)).isSome := by
        rw [hwhole, hearlier]
        rfl
      simpa using retract_ne_self hsome
  | some s =>
    obtain ⟨before, spoken, after⟩ := s
    have hwhole := splitLast_append_some hspeech earlier
    simp only [Bool.or_eq_true, Option.isSome_iff_ne_none, Option.isNone_iff_eq_none]
    cases hbefore : splitLast thinking before with
    | some b =>
      obtain ⟨start, ⟨text, total, done⟩, between⟩ := b
      have hthinking := splitLast_append_some hbefore earlier
      simp [retract, hspeech, hwhole, hbefore, hthinking]
    | none =>
      have hthinking := splitLast_append_none hbefore earlier
      cases hearlier : splitLast thinking earlier with
      | none =>
        rw [hearlier] at hthinking
        simp [retract, hspeech, hwhole, hbefore, hthinking]
      | some e =>
        obtain ⟨start, ⟨text, total, done⟩, between⟩ := e
        rw [hearlier] at hthinking
        obtain ⟨x, rfl, -, -⟩ := splitLast_eq_some hearlier
        simp only [retract, hspeech, hwhole, hbefore, hthinking]
        -- one entry fewer than where the speech had stayed in its place
        refine iff_of_false (fun hsame => ?_) (by simp)
        have hlength := congrArg List.length hsame
        simp at hlength

end Retraction

/-! ### A frame of a call -/

theorem lines_eq_calls (t : List View.Entry) : lines.of t = (calls.of t).map bare := by
  induction t with
  | nil => rfl
  | cons e t ih =>
    rw [lines.of_cons, calls.of_cons, List.map_append, ih]
    congr 1
    cases e <;> rfl

theorem paneReaches_iff {id : Nat} {t : List View.Entry} :
    paneReaches id t = true ↔
      ofCall id (calls.of t) = [] ∨ ∃ group, t.getLast? = some (.tools group) ∧ ofCall id group ≠ [] := by
  have hany (group : List ToolCall) : group.any (·.id = id) = true ↔ ofCall id group ≠ [] := by
    simp [ofCall]
  have hnone : (lines.of t).all (·.id ≠ id) = true ↔ ofCall id (calls.of t) = [] := by
    rw [lines_eq_calls, ofCall_eq_nil]
    rw [List.all_map, List.all_eq_true]
    exact forall₂_congr fun c _ => decide_eq_true_iff
  rw [paneReaches, Bool.or_eq_true, hnone]
  refine or_congr_right ?_
  split
  next group hgroup => simp [hgroup, ← hany]
  next hno =>
    refine iff_of_false (by simp) ?_
    rintro ⟨group, hgroup, -⟩
    exact hno group hgroup

/-- **Where a frame takes the place of its call's line.** -/
theorem ofCall_toolLine_iff {call : ToolCall} {t : List View.Entry}
    (h : (ofCall call.id (calls.of t)).length ≤ 1) :
    ofCall call.id (calls.of (toolLine call t)) = [call] ↔ paneReaches call.id t = true := by
  rw [paneReaches_iff]
  obtain ⟨init, group, rfl, htaken⟩ | ⟨hlast, hadded⟩ := calls_toolLine call t
  · rw [calls_tools, ofCall_append, List.length_append] at h
    have hgroup : ofCall call.id (upsertCall call group) = [call] := ofCall_upsertCall (by omega)
    rw [htaken, calls_tools, calls_tools, ofCall_append, ofCall_append, hgroup, List.append_left_eq_self,
      List.append_eq_nil_iff]
    simp only [List.getLast?_concat, Option.some.injEq, View.Entry.tools.injEq, exists_eq_left']
    constructor
    · intro hinit
      by_cases hhere : ofCall call.id group = []
      · exact .inl ⟨hinit, hhere⟩
      · exact .inr hhere
    · rintro (⟨hinit, -⟩ | hhere)
      · exact hinit
      · have hpos := List.length_pos_of_ne_nil hhere
        exact List.eq_nil_of_length_eq_zero (by omega)
  · rw [hadded, calls_tools, ofCall_append, show ofCall call.id [call] = [call] by simp [ofCall],
      List.append_left_eq_self]
    exact ⟨.inl, fun hor => hor.resolve_right fun ⟨group, hgroup, _⟩ => hlast group hgroup⟩

theorem ofCall_toolLine_of_ne {id : Nat} {call : ToolCall} (hid : call.id ≠ id) (t : List View.Entry) :
    ofCall id (calls.of (toolLine call t)) = ofCall id (calls.of t) := by
  obtain ⟨init, group, rfl, htaken⟩ | ⟨-, hadded⟩ := calls_toolLine call t
  · rw [htaken, calls_tools, calls_tools, ofCall_append, ofCall_append, ofCall_upsertCall_of_ne hid]
  · rw [hadded, calls_tools, ofCall_append, show ofCall id [call] = [] by simp [ofCall, hid],
      List.append_nil]

/-! ## A run -/

/-- Each call has one line, in the state of its last frame. -/
def OneLineEach (updates : List Update) (t : List View.Entry) : Prop :=
  ∀ id, ofCall id (calls.of t) = lastFrame id updates

theorem lastFrame_concat (id : Nat) (updates : List Update) (u : Update) :
    lastFrame id (updates ++ [u]) =
      match u.frame with
      | some call => if call.id = id then [call] else lastFrame id updates
      | none => lastFrame id updates := by
  unfold lastFrame
  cases hframe : u.frame with
  | none => simp [hframe]
  | some call =>
    rw [List.filterMap_append, List.filterMap_cons_some hframe, List.filterMap_nil, ofCall_append]
    by_cases hid : call.id = id <;> simp [ofCall, hid]

theorem length_lastFrame_le (id : Nat) (updates : List Update) : (lastFrame id updates).length ≤ 1 := by
  unfold lastFrame
  cases (ofCall id (updates.filterMap Update.frame)).getLast? <;> simp

variable (sayable : String → String) {view : SessionView} {updates : List Update} {u : Update}

/-- What is no frame of a call leaves the calls as they are. -/
theorem calls_step {s : Turning} (h : u.frame = none) :
    calls.of (s.step sayable u).transcript = calls.of s.transcript := by
  cases u with
  | sweep => exact calls.of_closeFinished false s.transcript
  | event e =>
    show calls.of (applyEvent sayable s.view e).transcript = calls.of s.transcript
    rw [transcript_applyEvent]
    show calls.of (transcriptAfter e s.transcript) = calls.of s.transcript
    cases e with
    | text delta => exact (calls.of_say delta _).trans (List.append_nil _)
    | user text => exact (calls.of_append _ _).trans (List.append_nil _)
    | speechRetracted tokens => exact calls_retract tokens _
    | reasoning delta tokens => exact (of_reasoned calls delta tokens _).trans (List.append_nil _)
    | tool id verb target state summary detail => cases h
    | compacted turns => exact (calls.of_append _ _).trans (List.append_nil _)
    | done outcome detail spend elapsed =>
      simp only [transcriptAfter]
      rw [calls.of_closeFinished]
      split
      · rfl
      · exact (calls.of_append _ _).trans (List.append_nil _)
    | _ => rfl

/-- The lines stay one to a call exactly if a frame finds its own. -/
theorem oneLineEach_concat_iff (h : OneLineEach updates (Turning.reached sayable view updates).transcript) :
    OneLineEach (updates ++ [u]) (Turning.reached sayable view (updates ++ [u])).transcript ↔
      ∀ call, u.frame = some call →
        paneReaches call.id (Turning.reached sayable view updates).transcript = true := by
  rw [Turning.reached_concat]
  unfold OneLineEach
  simp only [lastFrame_concat]
  cases hframe : u.frame with
  | none =>
    simp only [calls_step sayable hframe]
    exact iff_of_true h nofun
  | some call =>
    have htool : ((Turning.reached sayable view updates).step sayable u).transcript =
        toolLine call (Turning.reached sayable view updates).transcript := by
      obtain ⟨id, verb, target, state, summary, detail, rfl⟩ :
          ∃ id verb target state summary detail, u = .event (.tool id verb target state summary detail) := by
        unfold Update.frame at hframe
        split at hframe
        · exact ⟨_, _, _, _, _, _, rfl⟩
        · cases hframe
      cases hframe
      rfl
    have hone : (ofCall call.id (calls.of (Turning.reached sayable view updates).transcript)).length ≤ 1 := by
      rw [h call.id]
      exact length_lastFrame_le _ _
    simp only [htool, Option.some.injEq, forall_eq']
    rw [← ofCall_toolLine_iff hone]
    constructor
    · intro hall
      have hcall := hall call.id
      rwa [if_pos rfl] at hcall
    · intro hcall id
      by_cases hid : call.id = id
      · rw [if_pos hid, ← hid, hcall]
      · rw [if_neg hid, ofCall_toolLine_of_ne hid, h id]

/-- A retraction leaves the earlier turns as they are, and does in the current one what it would do were
there no other. -/
def StaysHere (s : Turning) : Update → Prop
  | .event (.speechRetracted tokens) =>
    (s.step sayable (.event (.speechRetracted tokens))).transcript = s.earlier ++ retract tokens s.current
  | _ => True

/-- Corrections reach their own target: each retraction stays in its turn, and at every point each call
has one line, in the state of its last frame. -/
def Corrects (view : SessionView) (updates : List Update) : Prop :=
  Throughout (fun before u => StaysHere sayable (Turning.reached sayable view before) u) updates ∧
    ∀ before, before <+: updates → OneLineEach before (Turning.reached sayable view before).transcript

theorem findsOwn_iff (s : Turning) :
    s.findsOwn u = true ↔
      StaysHere sayable s u ∧ ∀ call, u.frame = some call → paneReaches call.id s.transcript = true := by
  cases u with
  | sweep => exact iff_of_true rfl ⟨trivial, nofun⟩
  | event e =>
    cases e with
    | speechRetracted tokens =>
      have hsplit : s.earlier ++ s.current = s.transcript := List.take_append_drop _ _
      have hstays : StaysHere sayable s (.event (.speechRetracted tokens)) ↔
          speaksHere s.earlier s.current = true := by
        have hhere : retract tokens (s.earlier ++ s.current) = s.earlier ++ retract tokens s.current ↔
            speaksHere s.earlier s.current = true := retract_here_iff
        rw [← hhere, hsplit]
        rfl
      exact ⟨fun h => ⟨hstays.mpr h, nofun⟩, fun h => hstays.mp h.1⟩
    | tool id verb target state summary detail =>
      exact ⟨fun h => ⟨trivial, fun call hcall => by cases hcall; exact h⟩, fun h => h.2 _ rfl⟩
    | _ => exact iff_of_true rfl ⟨trivial, nofun⟩

/-- **Corrections reach their own target exactly where each finds it**: a retraction its speech and the
thinking that takes it in the current turn, a frame its call's line in the last entry. -/
theorem corrects_iff (view : SessionView) (updates : List Update) :
    Corrects sayable view updates ↔
      Throughout (fun before u => (Turning.reached sayable view before).findsOwn u = true) updates := by
  induction updates using List.reverseRecOn with
  | nil =>
    refine iff_of_true ⟨.nil, fun before hbefore id => ?_⟩ .nil
    obtain rfl := List.prefix_nil.mp hbefore
    rfl
  | append_singleton updates u ih =>
    have hlines : (∀ before, before <+: updates ++ [u] →
          OneLineEach before (Turning.reached sayable view before).transcript) ↔
        (∀ before, before <+: updates → OneLineEach before (Turning.reached sayable view before).transcript) ∧
          OneLineEach (updates ++ [u]) (Turning.reached sayable view (updates ++ [u])).transcript := by
      simp only [List.prefix_concat_iff, or_imp, forall_and, forall_eq]
      exact and_comm
    rw [Corrects, Throughout.concat_iff, Throughout.concat_iff, hlines, ← ih, Corrects,
      findsOwn_iff sayable]
    constructor
    · rintro ⟨⟨hstays, hhere⟩, hbefore, hafter⟩
      exact ⟨⟨hstays, hbefore⟩, hhere,
        (oneLineEach_concat_iff sayable (hbefore _ (List.prefix_refl _))).mp hafter⟩
    · rintro ⟨⟨hstays, hbefore⟩, hhere, hreaches⟩
      exact ⟨⟨hstays, hhere⟩, hbefore,
        (oneLineEach_concat_iff sayable (hbefore _ (List.prefix_refl _))).mpr hreaches⟩

/-! ## An answer taken back in the next turn, and a call closed after speech -/

def answerTakenBack : List Update :=
  [.event (.text "The tests pass."), .event (.done "ok" "" 0 0), .event (.speechRetracted 0)]

def narrated : List Update :=
  [.event (.tool 7 "read" "notes.md" "running" "" none), .event (.text "Reading."),
    .event (.tool 7 "read" "notes.md" "ok" "3 lines" none)]

/-- The answer of the turn before becomes thinking, and the call gets two lines. -/
theorem misses_own : ¬ Corrects id .blank answerTakenBack ∧ ¬ Corrects id .blank narrated := by
  constructor
  · intro h
    have hstays := h.1 [.event (.text "The tests pass."), .event (.done "ok" "" 0 0)] _ [] rfl
    exact absurd (congrArg (List.map modelSpeech) hstays) (by decide)
  · intro h
    have hlines := h.2 narrated (List.prefix_refl _) 7
    exact absurd (congrArg List.length hlines) (by decide)

end MarloweAgent.Daemon
