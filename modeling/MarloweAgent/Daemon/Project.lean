import MarloweAgent.Contract.Text
import MarloweAgent.Library.KeyedLog
import MarloweAgent.View.Session

/-! The daemon's events as the conversation pane shows them. Prose grows the last entry of
its kind, a retraction moves the last speech back into the thinking before it, and a tool
line replaces its own earlier frame. After each batch every thinking block with anything
after it is closed. -/

namespace MarloweAgent.Daemon
open Library Loop Tools View Contract

/-! ## Events -/

namespace Protocol

inductive AnnounceLevel
  | info
  | warn
  deriving DecidableEq, Repr

structure Announcement where
  level : AnnounceLevel
  text : String
  deriving DecidableEq, Repr

structure StatusReport where
  degraded : Option String
  model : String
  modelDisclosure : String
  rerankProvider : String
  liveRuns : Nat
  models : List String
  announcements : List Announcement
  deriving DecidableEq, Repr

structure RunDetail where
  id : String
  status : String
  lastCheckpointStep : Option Nat
  resumable : Bool
  orphanPolicy : String
  spentTokens : Nat
  grantedTokens : Nat
  pendingSteers : Nat
  deriving DecidableEq, Repr

/-- An event of the stream, as far as the projection reads it. -/
inductive Event
  | status (report : StatusReport)
  | text (delta : String)
  | user (text : String)
  | reasoning (delta : String) (tokens : Nat)
  | speechRetracted (tokens : Nat)
  | tool (id : Nat) (verb target state summary : String) (detail : Option String)
  | compacted (turns : Nat)
  | announce (announcement : Announcement)
  | cadence (ttftMs tokens sinceFirstMs : Nat) (warm : Bool)
  | degraded (what remedy : String)
  | approval (decision : Nat)
  | done (outcome detail : String) (spendMicrosUsd elapsedMs : Nat)
  | run (id status : String) (tokens depth : Nat)
  | runDetail (detail : RunDetail)
  | error (detail : String)
  | runOutput (seq : Nat)
  deriving DecidableEq, Repr

end Protocol

/-! ## The band and the panes -/

def announcementItem (a : Protocol.Announcement) : Item :=
  { label := a.text, id := none, key := none, lines := []
    tone := match a.level with
      | .info => .dim
      | .warn => .amber
    editable := false }

def fellBackMarker : String := "llama.cpp is NOT serving"
def staleMarker : String := "older than the source it was built from"

def classifyDegradation (remedy : String) : View.DegradedPath :=
  if Text.contains remedy fellBackMarker then .engineFellBackToOllama
  else if Text.contains remedy staleMarker then .binaryBehindSource
  else
    -- no character outside ASCII has a lower case that is part of one of these words
    let r := Text.toAsciiLowercase remedy
    if Text.contains r "ollama" || Text.contains r "model" || Text.contains r "provider" then
      .providerFailedOver
    else if Text.contains r "retriev" || Text.contains r "dense" || Text.contains r "embed" then
      .denseRetrievalOffline
    else if Text.contains r "voice" then .voiceUnavailable
    else .unclassified

def paneKeys : List Char :=
  ['b', 'd', 'e', 'f', 'g', 'h', 'j', 'k', 'l', 'n', 'o', 'q', 'r', 't', 'u', 'x', 'z']

def paneKey (n : Nat) : Option Char := paneKeys[n]?

/-- A run's row, replaced in place when it is there; its key is kept. -/
def upsertRun (sayable : String → String) (runs : List Item) (id : String) (tone : Tone)
    (lines : List (String × Tone)) : List Item :=
  let row (key : Option Char) : Item :=
    (match key with
      | some key => Item.new (sayable id) key tone lines
      | none => Item.unkeyed (sayable id) tone lines).identified id
  match runs.findIdx? (·.id = some id) with
  | some at_ => runs.modify at_ fun item => row item.key
  | none => runs ++ [row (paneKey runs.length)]

def runTone (status : String) : Tone := if status = "running" then .normal else .dim

/-- The pane row of a run's detail. -/
def detailLines (d : Protocol.RunDetail) : List (String × Tone) :=
  let checkpoint := match d.lastCheckpointStep with
    | some step => s!"checkpoint step {step}"
    | none => "no checkpoint"
  let spent := d.spentTokens
  let granted := d.grantedTokens
  let policy := d.orphanPolicy
  let resumable := if d.resumable then " · resumable" else ""
  let pending := d.pendingSteers
  let steers := if 0 < pending then s!" · {pending} steer(s) queued" else ""
  [(d.status, .normal), (d.id, .dim), (checkpoint, .dim),
    (s!"{spent}/{granted} tokens · on cancel: {policy}                                 " ++
      s!"{resumable}{steers}", .dim)]

/-- A counter of 32 bits. -/
def wrapU32 (n : Nat) : Nat := n % 2 ^ 32

/-! ## The transcript -/

/-- The closed vocabulary of verbs; what is outside it is a `tool`. -/
def verbs : List String :=
  ["read", "write", "edit", "glob", "grep", "find", "bash", "run", "recall", "remember", "web",
    "spawn", "use", "ask"]

def verbOf (verb : String) : String := if verb ∈ verbs then verb else "tool"

def toolCall (id : Nat) (verb target state summary : String) (detail : Option String) : ToolCall :=
  let result : ResultSummary := match detail with
    | some d => .withDetail [] d
    | none => .new []
  let lineState : ToolLineState :=
    if state = "failed" then .failed result
    else if state = "running" then .running 0
    else .ok result
  { ToolCall.ok id (verbOf verb) target [] with
    summaryLine := some summary
    state := lineState
    expanded := match lineState with
      | .failed _ => true
      | _ => false }

/-- The entry with its thinking done. -/
def closeEntry : View.Entry → View.Entry
  | .reasoning text tokens _ => .reasoning text tokens true
  | entry => entry

/-- Close every thinking block but the last entry, and that one too when all is finished. -/
def closeFinishedReasoning (finished : Bool) : List View.Entry → List View.Entry
  | [] => []
  | [entry] => [if finished then closeEntry entry else entry]
  | entry :: rest => closeEntry entry :: closeFinishedReasoning finished rest

def modelSpeech : View.Entry → Option String
  | .said (.model text) => some text
  | _ => none

def thinking : View.Entry → Option (String × Nat × Bool)
  | .reasoning text tokens done => some (text, tokens, done)
  | _ => none

/-- A delta of prose: it grows the last speech, or opens one. -/
def say (delta : String) : List View.Entry → List View.Entry :=
  onLast (fun entry => (modelSpeech entry).map fun text => .said (.model (text ++ delta)))
    (.said (.model delta))

/-- A delta of thinking: it grows a last block that is open, or opens one. -/
def think (delta : String) (tokens : Nat) : List View.Entry → List View.Entry :=
  onLast (fun entry => match entry with
      | .reasoning text total false =>
        some (.reasoning (text ++ delta) (satAdd u64Max total tokens) false)
      | _ => none)
    (.reasoning delta tokens false)

/-- Tokens that came with no text go to the last block there is, open or closed. -/
def settle (tokens : Nat) (transcript : List View.Entry) : List View.Entry :=
  match splitLast thinking transcript with
  | some (before, (text, total, done), after) =>
    before ++ .reasoning text (satAdd u64Max total tokens) done :: after
  | none => transcript

/-- Take back the last speech: it moves to the end of the thinking before it. -/
def retract (tokens : Nat) (transcript : List View.Entry) : List View.Entry :=
  match splitLast modelSpeech transcript with
  | none => transcript
  | some (before, spoken, after) =>
    match splitLast thinking before with
    | some (earlier, (text, total, _), between) =>
      earlier ++ .reasoning (text ++ spoken) (satAdd u64Max total tokens) false :: between ++ after
    | none => before ++ .reasoning spoken tokens false :: after

/-- The call takes the place of the one with its id, or comes last. -/
def upsertCall (call : ToolCall) : List ToolCall → List ToolCall
  | [] => [call]
  | c :: rest => if c.id = call.id then call :: rest else c :: upsertCall call rest

/-- A tool line: it goes into the last group of calls, or opens one. -/
def toolLine (call : ToolCall) : List View.Entry → List View.Entry :=
  onLast (fun entry => match entry with
      | .tools calls => some (.tools (upsertCall call calls))
      | _ => none)
    (.tools [call])

/-! ## The projection -/

def applyEvent (sayable : String → String) (view : SessionView) :
    Protocol.Event → SessionView
  | .announce a => { view with statusPane := view.statusPane ++ [announcementItem a] }
  | .cadence ttftMs tokens sinceFirstMs warm =>
    match Cadence.new ttftMs tokens sinceFirstMs warm with
    | some c => { view with status := { view.status with cadence := some c } }
    | none => view
  | .status r =>
    { view with
      statusPane := r.announcements.map announcementItem
      status := { view.status with
        degraded := r.degraded.map classifyDegradation
        figures := [toString r.liveRuns ++ " live", "rerank " ++ r.rerankProvider]
        detail :=
          if r.degraded.isNone then "ready · " ++ r.modelDisclosure else view.status.detail }
      model := if h : r.models = [] then view.model else .naming r.models r.model h }
  | .text delta => { view with transcript := say delta view.transcript }
  | .user text => { view with transcript := view.transcript ++ [.user text] }
  | .speechRetracted tokens => { view with transcript := retract tokens view.transcript }
  | .reasoning delta tokens =>
    { view with
      transcript :=
        if delta = "" then settle tokens view.transcript else think delta tokens view.transcript }
  | .tool id verb target state summary detail =>
    { view with
      transcript := toolLine (toolCall id verb target state summary detail) view.transcript }
  | .compacted turns =>
    { view with
      transcript := view.transcript ++ [.compacted turns]
      pager := { view.pager with
        compacted := wrapU32 (view.pager.compacted + turns)
        lineage := wrapU32 (view.pager.lineage + 1) } }
  | .degraded what remedy =>
    { view with
      status := { view.status with
        degraded := some (classifyDegradation (what ++ " " ++ remedy)) } }
  | .approval decision =>
    if decision = 0 then view
    else { view with status := { view.status with state := .waiting, detail := "approval needed" } }
  | .done outcome detail spendMicrosUsd elapsedMs =>
    { view with
      transcript := closeFinishedReasoning true
        (if detail = "" then view.transcript else view.transcript ++ [.said (.model detail)])
      pager := { view.pager with turn := wrapU32 (view.pager.turn + 1) }
      ambient := { view.ambient with
        spendCents := wrapU32 (spendMicrosUsd / 10000)
        elapsedMin := wrapU32 (elapsedMs / 60000) }
      status := { view.status with state := .idle, detail := outcome } }
  | .run id status tokens depth =>
    { view with
      runs := upsertRun sayable view.runs id (runTone status)
        [(status, .normal), (id, .dim), (s!"{tokens} tokens · depth {depth}", .dim)] }
  | .runDetail d =>
    { view with runs := upsertRun sayable view.runs d.id (runTone d.status) (detailLines d) }
  | .error detail =>
    { view with status := { view.status with degraded := some (classifyDegradation detail) } }
  | .runOutput _ => view

/-- `apply_events`: each event of the batch, and one sweep. -/
def applyEvents (sayable : String → String) (view : SessionView) (events : List Protocol.Event) :
    SessionView :=
  let folded := events.foldl (applyEvent sayable) view
  { folded with transcript := closeFinishedReasoning false folded.transcript }

end MarloweAgent.Daemon
