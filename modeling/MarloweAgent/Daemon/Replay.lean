import MarloweAgent.Daemon.Batching
import MarloweAgent.Loop.Context

/-! A conversation reopened. The blocks a session left are told as events, and the pane folds
them into an empty transcript. Each event is one thing to show, and the fold shows as many
unless two of a kind come next to each other. -/

namespace MarloweAgent.Daemon
open Library Loop Tools View Contract Permission

/-! ## The events -/

/-- The first string argument, which is what a line shows as its target. -/
def firstText (args : Args) : String :=
  (args.entries.findSome? fun entry => entry.2.asText).getD ""

/-- The events of a block, and the call an upcoming tool result belongs to. -/
def replayBlock (pending : Option (String × String)) (block : Block) :
    List Protocol.Event × Option (String × String) :=
  match block.source with
  | .history =>
    let thinking := (block.wire.bind WireTurn.thinking).map fun t => Protocol.Event.reasoning t 0
    let called := (block.wire.bind fun w => w.toolCalls.head?).map fun c =>
      (c.name, firstText c.arguments)
    let text := if block.text = "" then []
      else if block.trust = .agentInferred then [Protocol.Event.text block.text]
      else [.user block.text]
    (thinking.toList ++ text, called <|> pending)
  | .toolResults =>
    let (verb, target) :=
      pending.getD ((block.wire.bind WireTurn.toolName).getD "tool", "")
    let failed := (block.wire.map WireTurn.toolFailed).getD false
    let summary := (block.wire.bind WireTurn.toolSummary).getD ""
    ([.tool 0 verb target (if failed then "failed" else "ok") summary none], none)
  | _ => ([], pending)

def replayFrom (pending : Option (String × String)) : List Block → List Protocol.Event
  | [] => []
  | block :: rest =>
    (replayBlock pending block).1 ++ replayFrom (replayBlock pending block).2 rest

/-- `Request::Replay`, of a session there is. -/
def replay (state : SessionState) : List Protocol.Event := replayFrom none state.volatile

/-! ## What there is to show -/

inductive Shown
  | user (text : String)
  | speech (text : String)
  | thought (text : String)
  | result (verb target : String) (failed : Bool) (summary : String)
  deriving DecidableEq, Repr

inductive Kind
  | user
  | speech
  | thought
  | result
  deriving DecidableEq, Repr

namespace Shown

def kind : Shown → Kind
  | user _ => .user
  | speech _ => .speech
  | thought _ => .thought
  | result _ _ _ _ => .result

/-- The event that tells it. -/
def event : Shown → Protocol.Event
  | user text => .user text
  | speech text => .text text
  | thought text => .reasoning text 0
  | result verb target failed summary =>
    .tool 0 verb target (if failed then "failed" else "ok") summary none

/-- With the verb of the closed vocabulary. -/
def display : Shown → Shown
  | result verb target failed summary => result (verbOf verb) target failed summary
  | shown => shown

end Shown

def shownLine (call : ToolCall) : Shown :=
  .result call.verb call.target
    (match call.state with
      | .failed _ => true
      | _ => false)
    (call.summaryLine.getD "")

def shownEntry : View.Entry → List Shown
  | .user text => [.user text]
  | .said (.model text) => [.speech text]
  | .reasoning text _ _ => [.thought text]
  | .tools calls => calls.map shownLine
  | _ => []

/-- What a transcript shows, in order. -/
def shown (t : List View.Entry) : List Shown := t.flatMap shownEntry

/-- The call a result's block answers: the last announced with its id. -/
def ownCall (announced : List WireToolCall) (block : Block) : Option WireToolCall :=
  block.callId.bind fun id => announced.find? (·.id = id)

/-- What names a result's line: the call, or what the block itself says of it. -/
def naming (call : Option WireToolCall) (block : Block) : String × String :=
  match call with
  | some c => (c.name, firstText c.arguments)
  | none => ((block.wire.bind WireTurn.toolName).getD "tool", "")

/-- A block's own part of the conversation, its result named by this call. -/
def recorded (call : Option WireToolCall) (block : Block) : List Shown :=
  match block.source with
  | .history =>
    ((block.wire.bind WireTurn.thinking).map Shown.thought).toList ++
      if block.text = "" then []
      else if block.trust = .agentInferred then [.speech block.text]
      else [.user block.text]
  | .toolResults =>
    [.result (naming call block).1 (naming call block).2
      ((block.wire.map WireTurn.toolFailed).getD false)
      ((block.wire.bind WireTurn.toolSummary).getD "")]
  | _ => []

/-- The calls a block announces. -/
def announces (block : Block) : List WireToolCall :=
  if block.source = .history then (block.wire.map WireTurn.toolCalls).getD [] else []

/-- The conversation the blocks record, each result under its own call. -/
def conversation (announced : List WireToolCall) : List Block → List Shown
  | [] => []
  | block :: rest =>
    (recorded (ownCall announced block) block).map Shown.display ++
      conversation (announces block ++ announced) rest

/-- The call still awaiting a result: the first of the last turn that made any, with no result
since. -/
def awaitingAfter (awaiting : Option WireToolCall) (block : Block) : Option WireToolCall :=
  match block.source with
  | .history => (announces block).head? <|> awaiting
  | .toolResults => none
  | _ => awaiting

/-- What the events tell, each result under the call that was awaiting one. -/
def toldFrom (awaiting : Option WireToolCall) : List Block → List Shown
  | [] => []
  | block :: rest => recorded awaiting block ++ toldFrom (awaitingAfter awaiting block) rest

theorem replayBlock_eq (awaiting : Option WireToolCall) (block : Block) :
    replayBlock (awaiting.map fun c => (c.name, firstText c.arguments)) block =
      ((recorded awaiting block).map Shown.event,
        (awaitingAfter awaiting block).map fun c => (c.name, firstText c.arguments)) := by
  unfold replayBlock recorded awaitingAfter announces
  cases hsource : block.source with
  | history =>
    cases hwire : block.wire with
    | none =>
      simp only [Option.bind_none, Option.map_none]
      by_cases hempty : block.text = ""
      · simp [hempty]
      · by_cases htrust : block.trust = .agentInferred <;> simp [hempty, htrust, Shown.event]
    | some wire =>
      have hthinking : (wire.thinking.map fun t => Protocol.Event.reasoning t 0).toList =
          ((wire.thinking.map Shown.thought).toList).map Shown.event := by
        cases wire.thinking <;> rfl
      have hcalled : (wire.toolCalls.head?.map fun c => (c.name, firstText c.arguments)).or
            (awaiting.map fun c => (c.name, firstText c.arguments)) =
          (wire.toolCalls.head?.or awaiting).map fun c => (c.name, firstText c.arguments) := by
        cases wire.toolCalls.head? <;> rfl
      by_cases hempty : block.text = ""
      · simp [hempty, hthinking, hcalled]
      · by_cases htrust : block.trust = .agentInferred <;>
          simp [hempty, htrust, hthinking, hcalled, Shown.event]
  | toolResults => cases awaiting <;> simp [naming, Shown.event]
  | _ => rfl

theorem replayFrom_eq (awaiting : Option WireToolCall) (blocks : List Block) :
    replayFrom (awaiting.map fun c => (c.name, firstText c.arguments)) blocks =
      (toldFrom awaiting blocks).map Shown.event := by
  induction blocks generalizing awaiting with
  | nil => rfl
  | cons block rest ih =>
    rw [replayFrom, replayBlock_eq, toldFrom, List.map_append, ih]

/-! ## The fold -/

/-- An entry of a replay: thinking still open, one call a group, and the call's id 0. -/
def replayed : View.Entry → Bool
  | .user _ => true
  | .said (.model _) => true
  | .reasoning _ _ done => !done
  | .tools [call] => call.id = 0
  | _ => false

def entryKind : View.Entry → Option Kind
  | .user _ => some .user
  | .said (.model _) => some .speech
  | .reasoning _ _ _ => some .thought
  | .tools _ => some .result
  | _ => none

/-- The kind of a transcript's last entry. -/
def lastKind (t : List View.Entry) : Option Kind := t.getLast?.bind entryKind

/-- No two next to each other grow or replace one entry. -/
def apart (last : Option Kind) : List Kind → Bool
  | [] => true
  | kind :: rest => (kind = .user || last ≠ some kind) && apart (some kind) rest

/-- It is shown in an entry of its own. -/
def opens (last : Option Kind) (x : Shown) : Bool :=
  x ≠ .thought "" && (x.kind = .user || last ≠ some x.kind)

@[simp] theorem shown_append (t u : List View.Entry) : shown (t ++ u) = shown t ++ shown u :=
  List.flatMap_append

theorem shown_concat (t : List View.Entry) (e : View.Entry) :
    shown (t ++ [e]) = shown t ++ shownEntry e := by
  simp [shown]

theorem lastKind_concat (t : List View.Entry) (e : View.Entry) :
    lastKind (t ++ [e]) = entryKind e := by
  simp [lastKind]

theorem shownLine_toolCall (verb target : String) (failed : Bool) (summary : String) :
    shownLine (toolCall 0 verb target (if failed then "failed" else "ok") summary none) =
      (Shown.result verb target failed summary).display := by
  cases failed <;> rfl

variable {t : List View.Entry} {x : Shown}

/-- A change at the end that does not apply adds the entry. -/
theorem onLast_opens {f : View.Entry → Option View.Entry} (kind : Kind) (entry : View.Entry)
    (hf : ∀ e, f e ≠ none → entryKind e = some kind) (h : lastKind t ≠ some kind) :
    onLast f entry t = t ++ [entry] := by
  refine onLast_none ?_ entry
  cases hlast : t.getLast? with
  | none => rfl
  | some e =>
    by_contra hsome
    exact h (by rw [lastKind, hlast]; exact hf e hsome)

/-- Where it opens an entry, the entry shows it. -/
theorem fold_opens (h : opens (lastKind t) x = true) :
    ∃ e, transcriptAfter x.event t = t ++ [e] ∧ shownEntry e = [x.display] ∧
      entryKind e = some x.kind ∧ replayed e = true := by
  simp only [opens, Bool.and_eq_true, Bool.or_eq_true, decide_eq_true_eq] at h
  obtain ⟨hne, hkind⟩ := h
  cases x with
  | user text => exact ⟨.user text, rfl, rfl, rfl, rfl⟩
  | speech text =>
    have hlast := hkind.resolve_left (by simp [Shown.kind])
    refine ⟨.said (.model text), onLast_opens .speech _ (fun e he => ?_) hlast, rfl, rfl,
      rfl⟩
    obtain ⟨text', he⟩ := Option.ne_none_iff_exists'.mp (mt Option.map_eq_none_iff.mpr he)
    rw [modelSpeech_eq_some.mp he]
    rfl
  | thought text =>
    have hlast := hkind.resolve_left (by simp [Shown.kind])
    have hnonempty : text ≠ "" := fun hempty => hne (by rw [hempty])
    refine ⟨.reasoning text 0 false, ?_, rfl, rfl, rfl⟩
    rw [Shown.event, transcriptAfter, if_neg hnonempty]
    refine onLast_opens .thought _ (fun e he => ?_) hlast
    split at he
    · rfl
    · exact absurd rfl he
  | result verb target failed summary =>
    have hlast := hkind.resolve_left (by simp [Shown.kind])
    let call := toolCall 0 verb target (if failed then "failed" else "ok") summary none
    refine ⟨.tools [call], onLast_opens .result _ (fun e he => ?_) hlast, ?_, rfl, rfl⟩
    · split at he
      · rfl
      · exact absurd rfl he
    · exact congrArg (fun s => [s]) (shownLine_toolCall verb target failed summary)

/-- Where it does not, as much is shown as before. -/
theorem fold_joins (hall : ∀ e ∈ t, replayed e = true) (h : opens (lastKind t) x = false) :
    (∀ e ∈ transcriptAfter x.event t, replayed e = true) ∧
      (shown (transcriptAfter x.event t)).length = (shown t).length := by
  by_cases hempty : x = .thought ""
  · subst hempty
    show (∀ e ∈ settle 0 t, _) ∧ (shown (settle 0 t)).length = _
    unfold settle
    split
    next before text total done after hsplit =>
      obtain ⟨e, rfl, he, -⟩ := splitLast_eq_some hsplit
      obtain rfl := thinking_eq_some.mp he
      refine ⟨fun e he => ?_, by simp [shown, shownEntry]⟩
      rcases List.mem_append.mp he with hbefore | hrest
      · exact hall e (List.mem_append_left _ hbefore)
      · rcases List.mem_cons.mp hrest with rfl | hafter
        · exact hall (.reasoning text total done) (by simp)
        · exact hall e (by simp [hafter])
    next => exact ⟨hall, rfl⟩
  · have hlast : lastKind t = some x.kind ∧ x.kind ≠ .user := by
      simp only [opens, hempty, ne_eq, not_false_eq_true, decide_true, Bool.true_and,
        Bool.or_eq_false_iff, decide_eq_false_iff_not, not_not] at h
      exact ⟨h.2, h.1⟩
    obtain ⟨hkind, huser⟩ := hlast
    rcases List.eq_nil_or_concat t with rfl | ⟨init, e, rfl⟩
    · cases hkind
    · rw [List.concat_eq_append] at hall hkind ⊢
      rw [lastKind_concat] at hkind
      have hinit : ∀ e ∈ init, replayed e = true := fun e he => hall e (List.mem_append_left _ he)
      have he : replayed e = true := hall e (by simp)
      -- the last entry takes it in
      obtain ⟨grown, hgrown, hfresh, hlength⟩ : ∃ grown,
          transcriptAfter x.event (init ++ [e]) = init ++ [grown] ∧ replayed grown = true ∧
            (shownEntry grown).length = (shownEntry e).length := by
        cases x with
        | user text => exact absurd rfl huser
        | speech text =>
          cases e with
          | said speech =>
            cases speech with
            | model text' =>
              refine ⟨.said (.model (text' ++ text)), ?_, rfl, rfl⟩
              simp [Shown.event, transcriptAfter, say, onLast, modelSpeech]
            | harness notice => cases he
          | _ => cases hkind
        | thought text =>
          cases e with
          | reasoning text' total done =>
            have hnonempty : text ≠ "" := fun h => hempty (by rw [h])
            obtain rfl : done = false := by simpa [replayed] using he
            refine ⟨.reasoning (text' ++ text) (satAdd u64Max total 0) false, ?_, rfl, rfl⟩
            rw [Shown.event, transcriptAfter, if_neg hnonempty]
            simp [think, onLast]
          | said speech => cases speech <;> cases hkind
          | _ => cases hkind
        | result verb target failed summary =>
          cases e with
          | tools calls =>
            cases calls with
            | nil => cases he
            | cons call more =>
              cases more with
              | nil =>
                have hid : call.id = 0 := by simpa [replayed] using he
                refine ⟨.tools [toolCall 0 verb target (if failed then "failed" else "ok") summary none],
                  ?_, rfl, rfl⟩
                refine onLast_concat_some ?_ _ _
                exact congrArg (some ∘ View.Entry.tools) (if_pos hid)
              | cons other more => cases he
          | said speech => cases speech <;> cases hkind
          | _ => cases hkind
      rw [hgrown]
      refine ⟨fun e' he' => ?_, ?_⟩
      · rcases List.mem_append.mp he' with hmem | hmem
        · exact hinit e' hmem
        · rwa [List.mem_singleton.mp hmem]
      · rw [shown_concat, shown_concat, List.length_append, List.length_append, hlength]

/-- Each is shown in an entry of its own. -/
def allOpen (last : Option Kind) : List Shown → Bool
  | [] => true
  | x :: rest => opens last x && allOpen (some x.kind) rest

theorem fold_shows (hall : ∀ e ∈ t, replayed e = true) (xs : List Shown) :
    (allOpen (lastKind t) xs = true →
        shown (xs.foldl (fun t x => transcriptAfter x.event t) t) =
          shown t ++ xs.map Shown.display) ∧
      (allOpen (lastKind t) xs = false →
        (shown (xs.foldl (fun t x => transcriptAfter x.event t) t)).length <
          (shown t).length + xs.length) ∧
      (shown (xs.foldl (fun t x => transcriptAfter x.event t) t)).length ≤
        (shown t).length + xs.length := by
  induction xs generalizing t with
  | nil => exact ⟨fun _ => (List.append_nil _).symm, fun h => (by cases h), Nat.le_refl _⟩
  | cons x rest ih =>
    rw [List.foldl_cons, allOpen, List.length_cons]
    cases hopens : opens (lastKind t) x with
    | true =>
      obtain ⟨e, hafter, hshown, hkind, hfresh⟩ := fold_opens hopens
      have hall' : ∀ e' ∈ t ++ [e], replayed e' = true := fun e' he' => by
        rcases List.mem_append.mp he' with hmem | hmem
        · exact hall e' hmem
        · rwa [List.mem_singleton.mp hmem]
      obtain ⟨hopen, hless, hle⟩ := ih hall'
      rw [lastKind_concat, hkind] at hopen hless
      rw [hafter]
      simp only [shown_concat, hshown, List.length_append, List.length_singleton, Bool.true_and]
        at hopen hless hle ⊢
      refine ⟨fun h => ?_, fun h => ?_, by omega⟩
      · rw [hopen h, List.map_cons, List.append_assoc]
        rfl
      · have hlt := hless h
        omega
    | false =>
      obtain ⟨hall', hlength⟩ := fold_joins hall hopens
      obtain ⟨-, -, hle⟩ := ih hall'
      exact ⟨fun h => (by cases h), fun _ => (by omega), (by omega)⟩

/-! ## The blocks a replay reconstructs -/

def blockKinds (block : Block) : List Kind :=
  match block.source with
  | .history =>
    ((block.wire.bind WireTurn.thinking).map fun _ => Kind.thought).toList ++
      if block.text = "" then [] else if block.trust = .agentInferred then [.speech] else [.user]
  | .toolResults => [.result]
  | _ => []

/-- A turn that recorded thinking recorded some. -/
def thinkingRecorded (block : Block) : Bool :=
  block.source ≠ .history || block.wire.bind WireTurn.thinking ≠ some ""

/-- What a result's line is named, under this call. -/
def lineName (call : Option WireToolCall) (block : Block) : String × String :=
  (verbOf (naming call block).1, (naming call block).2)

/-- Each result comes while the call awaiting one names it as its own call does. -/
def namedOwn (awaiting : Option WireToolCall) (announced : List WireToolCall) : List Block → Bool
  | [] => true
  | block :: rest =>
    (block.source ≠ .toolResults ||
        lineName awaiting block = lineName (ownCall announced block) block) &&
      namedOwn (awaitingAfter awaiting block) (announces block ++ announced) rest

/-- Thinking is never empty, no two assistant texts, thinkings or results come next to each
other, and each result is named by its own call. -/
def replayable (blocks : List Block) : Bool :=
  blocks.all thinkingRecorded && apart none (blocks.flatMap blockKinds) && namedOwn none [] blocks

theorem allOpen_eq (last : Option Kind) (xs : List Shown) :
    allOpen last xs = (xs.all (· ≠ .thought "") && apart last (xs.map Shown.kind)) := by
  induction xs generalizing last with
  | nil => rfl
  | cons x rest ih =>
    rw [allOpen, ih, opens, List.all_cons, List.map_cons, apart]
    ac_rfl

theorem kind_recorded (call : Option WireToolCall) (block : Block) :
    (recorded call block).map Shown.kind = blockKinds block := by
  unfold recorded blockKinds
  cases block.source with
  | history =>
    cases block.wire.bind WireTurn.thinking <;>
      by_cases hempty : block.text = "" <;>
      by_cases htrust : block.trust = .agentInferred <;> simp [hempty, htrust, Shown.kind]
  | _ => rfl

theorem kind_toldFrom (awaiting : Option WireToolCall) (blocks : List Block) :
    (toldFrom awaiting blocks).map Shown.kind = blocks.flatMap blockKinds := by
  induction blocks generalizing awaiting with
  | nil => rfl
  | cons block rest ih =>
    rw [toldFrom, List.map_append, kind_recorded, ih, List.flatMap_cons]

theorem all_recorded (call : Option WireToolCall) (block : Block) :
    (recorded call block).all (· ≠ .thought "") = thinkingRecorded block := by
  unfold recorded thinkingRecorded
  cases block.source with
  | history =>
    cases block.wire.bind WireTurn.thinking <;>
      by_cases hempty : block.text = "" <;>
      by_cases htrust : block.trust = .agentInferred <;> simp [hempty, htrust]
  | _ => simp

theorem all_toldFrom (awaiting : Option WireToolCall) (blocks : List Block) :
    (toldFrom awaiting blocks).all (· ≠ .thought "") = blocks.all thinkingRecorded := by
  induction blocks generalizing awaiting with
  | nil => rfl
  | cons block rest ih => rw [toldFrom, List.all_append, all_recorded, ih, List.all_cons]

theorem length_recorded (call call' : Option WireToolCall) (block : Block) :
    (recorded call block).length = (recorded call' block).length := by
  rw [← List.length_map (f := Shown.kind), ← List.length_map (f := Shown.kind), kind_recorded,
    kind_recorded]

theorem length_conversation (awaiting : Option WireToolCall) (announced : List WireToolCall)
    (blocks : List Block) :
    (conversation announced blocks).length = (toldFrom awaiting blocks).length := by
  induction blocks generalizing awaiting announced with
  | nil => rfl
  | cons block rest ih =>
    rw [conversation, toldFrom, List.length_append, List.length_append, List.length_map,
      length_recorded (ownCall announced block) awaiting, ih (awaitingAfter awaiting block)]

/-- A block is told as recorded when both calls name its line alike. -/
theorem display_recorded (call own : Option WireToolCall) (block : Block) :
    (recorded call block).map Shown.display = (recorded own block).map Shown.display ↔
      (block.source ≠ .toolResults || lineName call block = lineName own block) = true := by
  unfold recorded
  cases block.source with
  | toolResults => simp [Shown.display, lineName]
  | _ => simp

theorem display_toldFrom (awaiting : Option WireToolCall) (announced : List WireToolCall)
    (blocks : List Block) :
    (toldFrom awaiting blocks).map Shown.display = conversation announced blocks ↔
      namedOwn awaiting announced blocks = true := by
  induction blocks generalizing awaiting announced with
  | nil => simp [toldFrom, conversation, namedOwn]
  | cons block rest ih =>
    have hlength : ((recorded awaiting block).map Shown.display).length =
        ((recorded (ownCall announced block) block).map Shown.display).length := by
      rw [List.length_map, List.length_map, length_recorded]
    rw [toldFrom, conversation, namedOwn, Bool.and_eq_true, List.map_append,
      ← display_recorded awaiting (ownCall announced block) block, ← ih]
    constructor
    · exact fun h => List.append_inj h hlength
    · rintro ⟨hblock, hrest⟩
      rw [hblock, hrest]

theorem shownEntry_closeEntry (e : View.Entry) : shownEntry (closeEntry e) = shownEntry e := by
  cases e <;> rfl

/-- **A replay shows the conversation** exactly when thinking is never empty, no two assistant
texts, thinkings or tool results come next to each other, and the call awaiting a result is the
result's own. -/
theorem replay_reconstructs (sayable : String → String) (view : SessionView)
    (state : SessionState) :
    shown (applyEvents sayable { view with transcript := [] } (replay state)).transcript =
        conversation [] state.volatile ↔
      replayable state.volatile = true := by
  have hevents : replay state = (toldFrom none state.volatile).map Shown.event :=
    replayFrom_eq none state.volatile
  have hfold : shown (applyEvents sayable { view with transcript := [] } (replay state)).transcript =
      shown ((toldFrom none state.volatile).foldl (fun t x => transcriptAfter x.event t) []) := by
    rw [hevents, applyEvents, shown, flatMap_closeFinished shownEntry_closeEntry, transcript_foldl,
      List.foldl_map]
    rfl
  obtain ⟨hopen, hless, -⟩ := fold_shows (t := []) (by simp) (toldFrom none state.volatile)
  rw [hfold, replayable, ← all_toldFrom none, ← kind_toldFrom none, ← allOpen_eq]
  cases hall : allOpen none (toldFrom none state.volatile) with
  | true =>
    rw [hopen hall, Bool.true_and]
    exact display_toldFrom none [] state.volatile
  | false =>
    -- fewer entries than the conversation has
    have hlt := hless hall
    rw [Bool.false_and]
    refine iff_of_false (fun heq => ?_) Bool.false_ne_true
    rw [heq, length_conversation none] at hlt
    simp [shown] at hlt

/-! ## Two calls in one turn -/

def twoReads : SessionState :=
  (((SessionState.new 1 "M").push
    (.assistantTurn "" none
      [⟨"c1", "read", Args.empty.withText "path" "a.md"⟩,
        ⟨"c2", "grep", Args.empty.withText "pattern" "todo"⟩])).push
    (.toolResultFor "alpha" "read" .untrustedContent (some "1 line") false "c1")).push
    (.toolResultFor "beta" "grep" .untrustedContent (some "2 lines") false "c2")

/-- The second result takes the line of the first, and neither its verb nor its target. -/
theorem second_result_misnamed : ¬ ∀ (sayable : String → String) (view : SessionView)
    (state : SessionState),
    shown (applyEvents sayable { view with transcript := [] } (replay state)).transcript =
      conversation [] state.volatile := by
  intro hall
  exact absurd (congrArg List.length (hall id .blank twoReads)) (by decide)

end MarloweAgent.Daemon
