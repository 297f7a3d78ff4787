import MarloweAgent.Library.KeyedLog
import MarloweAgent.Loop.Driver

/-! The control plane: the run table, the steers queued for each run, and the requests
that read and write them. The table is what the daemon remembers; the log is what
survives. -/

namespace MarloweAgent.Daemon
open Contract EventLog Library Loop

/-! ## Steers -/

def maxSteerChars : Nat := 2000

inductive SteerRefused
  | empty
  | tooLong (len max : Nat)
  deriving DecidableEq, Repr

def SteerRefused.render : SteerRefused → String
  | empty => "a steer with nothing in it is not a correction; type something, or cancel the run"
  | tooLong len max =>
    "that steer is " ++ toString len ++ " characters and the limit is " ++ toString max
      ++ ". It is refused rather than truncated: half an instruction is worse than none. "
      ++ "Shorten it and send it again"

/-- `steer::admit`. -/
def admitSteer (text : String) (urgency : Urgency) : Except SteerRefused SteerMessage :=
  let clean := Text.trim (Text.sanitizeProse text)
  let len := clean.toList.length
  if len = 0 then .error .empty
  else if len > maxSteerChars then .error (.tooLong len maxSteerChars)
  else .ok { text := clean, urgency }

/-! ## The table and the log -/

/-- A row of the run table. -/
structure RunSummary where
  id : RunId
  status : String
  tokens : Nat
  depth : Nat
  attribution : Option String
  spendMicrosUsd : Nat
  elapsedMs : Nat
  startedMs : Nat
  deriving DecidableEq, Repr

/-- The row of a run the daemon just took on. -/
def RunSummary.accepted (id : RunId) (now : Int) : RunSummary :=
  { id, status := "running", tokens := 0, depth := 0, attribution := none, spendMicrosUsd := 0
    elapsedMs := 0, startedMs := now.toNat }

/-- `is_terminal_word`: the words of a run that has stopped for good. -/
def isTerminalWord (word : String) : Bool := word ∈ ["completed", "failed", "cancelled"]

/-- A row of the journal: what was recorded, under which run. -/
structure Recorded where
  kind : EventKind
  run : RunId
  payload : Payload

/-- The checkpoints of a log. -/
def checkpointsOf (log : List Recorded) : List Checkpoint :=
  log.filterMap fun entry =>
    match entry.kind, entry.payload with
    | .checkpointed, .checkpoint cp => some cp
    | _, _ => none

structure ControlPlane where
  runs : OrderedMap RunId RunSummary
  log : List Recorded
  steers : OrderedMap RunId (List SteerMessage)
  cancelled : List RunId

/-- A child as its parent's detail lists it. -/
structure RunChild where
  id : RunId
  status : String
  deriving DecidableEq, Repr

/-- One run in detail, as a window renders it. -/
structure RunDetail where
  id : RunId
  status : String
  parent : Option RunId
  elapsedMs : Nat
  spendMicrosUsd : Nat
  ceilingMicrosUsd : Nat
  spentTokens : Nat
  grantedTokens : Nat
  depth : Nat
  lastCheckpointStep : Option Nat
  resumable : Bool
  orphanPolicy : String
  pendingSteers : Nat
  subagents : List RunChild
  deriving DecidableEq, Repr

namespace ControlPlane

def new : ControlPlane := ⟨OrderedMap.empty, [], OrderedMap.empty, []⟩

/-- `latest`: the last checkpoint of a run. -/
def latest (plane : ControlPlane) (run : RunId) : Option Checkpoint :=
  KeyedLog.lastOf Checkpoint.run run (checkpointsOf plane.log)

/-- `latest_per_run`. -/
def latestPerRun (plane : ControlPlane) : List Checkpoint :=
  (KeyedLog.lastPerKey Checkpoint.run (checkpointsOf plane.log)).values

/-- The elapsed time of a row: final when there is one or the run has stopped, live otherwise. -/
def elapsedOf (now : Int) (s : RunSummary) : Nat :=
  if s.elapsedMs > 0 ∨ isTerminalWord s.status then s.elapsedMs else now.toNat - s.startedMs

def pendingSteers (plane : ControlPlane) (run : RunId) : Nat :=
  ((plane.steers.get? run).getD []).length

section Requests

/- How a status prints where no row has a word for it, and what time it is. -/
variable (shown : RunStatus → String) (now : Int)

/-- The runs a run spawned, by their last checkpoints. -/
def childrenOf (plane : ControlPlane) (parent : RunId) : List RunChild :=
  (plane.latestPerRun.filter (·.parent = some parent)).map fun cp =>
    { id := cp.run, status := ((plane.runs.get? cp.run).map RunSummary.status).getD (shown cp.status) }

def detail (plane : ControlPlane) (run : RunId) : RunDetail :=
  let summary := plane.runs.get? run
  let cp := plane.latest run
  { id := run
    status := match summary with
      | some s => s.status
      | none => (cp.map fun cp => shown cp.status).getD "unknown"
    parent := cp.bind Checkpoint.parent
    elapsedMs := (summary.map (elapsedOf now)).getD 0
    spendMicrosUsd := (summary.map RunSummary.spendMicrosUsd).getD 0
    ceilingMicrosUsd := (cp.map fun cp => cp.budget.microsUsd).getD 0
    spentTokens := (cp.map fun cp => cp.spent.tokens).getD 0
    grantedTokens := (cp.map fun cp => cp.budget.tokens).getD 0
    depth := (cp.map fun cp => cp.budget.depth).getD 0
    lastCheckpointStep := cp.map Checkpoint.step
    resumable := (cp.map fun cp => !cp.isTerminal).getD false
    orphanPolicy := (cp.map fun cp =>
      match cp.orphanPolicy with
      | .adopt by_ => "adopt by " ++ toString by_
      | .detach => "detach"
      | .terminate => "terminate").getD "unknown"
    pendingSteers := plane.pendingSteers run
    subagents := plane.childrenOf shown run }

/-- `Request::Steer`, to a resolved run: refused when its row says it has stopped. -/
def steer (plane : ControlPlane) (run : RunId) (text : String) :
    Except String RunDetail × ControlPlane :=
  let stopped := ((plane.runs.get? run).map RunSummary.status).filter
    (· ∈ ["completed", "failed", "cancelled"])
  match stopped with
  | some status =>
    (.error ("run " ++ toString run ++ " is " ++ status ++ "; a steer would queue behind a run that "
      ++ "has stopped and would never be read. Nothing was queued"), plane)
  | none =>
    match admitSteer text .advisory with
    | .error refused => (.error refused.render, plane)
    | .ok message =>
      let queued := (plane.steers.get? run).getD [] ++ [message]
      let plane := { plane with steers := plane.steers.insert run queued }
      (.ok (plane.detail shown now run), plane)

/-- `Request::Cancel`: the run is asked to stop, and its row says so. -/
def cancel (plane : ControlPlane) (run : RunId) : Except String RunDetail × ControlPlane :=
  let plane :=
    { plane with
      cancelled := if run ∈ plane.cancelled then plane.cancelled else run :: plane.cancelled
      runs := plane.runs.modify run fun s => { s with status := "cancelling" } }
  (.ok (plane.detail shown now run), plane)

end Requests

/-- The turn's own row, written when the daemon takes the work on. -/
def accept (plane : ControlPlane) (run : RunId) (now : Int) : ControlPlane :=
  { plane with runs := plane.runs.insert run (.accepted run now) }

/-- The turn's own end: the outcome's word, and what the run spent. -/
def finish (plane : ControlPlane) (run : RunId) (word : String) (spent : Budget) (depth : Nat) :
    ControlPlane :=
  { plane with runs := plane.runs.modify run fun s =>
      { s with status := word, tokens := spent.tokens, spendMicrosUsd := spent.microsUsd
               elapsedMs := spent.wallMs, depth } }

end ControlPlane

end MarloweAgent.Daemon
