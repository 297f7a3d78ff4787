import MarloweAgent.Loop.Durable

/-! What the loop talks to: the model driver, the tool host, memory, the
escalation desk, approvals, the screen, control, the clock and the recorder.
Each is a function of an environment `σ` the loop knows nothing about. -/

namespace MarloweAgent.Loop
open Contract Library Tools Permission EventLog

/-! ## Turn events -/

inductive ToolLineState
  | running (elapsedMs : Nat)
  | ok (summary : ResultSummary)
  | failed (summary : ResultSummary)
  deriving DecidableEq, Repr

inductive DegradedPath
  | denseRetrievalOffline
  | voiceUnavailable
  | providerFailedOver
  | journalAppendFailed
  | trustFloorLatched
  | modelUnavailable
  deriving DecidableEq, Repr

inductive TurnEvent
  | textDelta (text : String)
  | reasoningDelta (text : String) (tokens : Nat)
  | speechRetracted (tokens : Nat)
  | toolLine (id : Nat) (verb target : String) (state : ToolLineState)
  | compacted (turns : Nat)
  | degraded (what : DegradedPath)
  | approvalPrompt (radius : BlastRadius)
  | done (spendMicrosUsd elapsedMs : Nat) (fillPct : FillPct)
  deriving DecidableEq, Repr

/-! ## The model -/

structure Usage where
  promptTokens : Nat
  completionTokens : Nat
  microsUsd : Nat
  wallMs : Nat
  deriving DecidableEq, Repr

def Usage.asBudget (usage : Usage) : Budget :=
  { tokens := satAdd u64Max usage.promptTokens usage.completionTokens
    wallMs := usage.wallMs, microsUsd := usage.microsUsd }

structure ClaimRequest where
  text : String
  payloadKind : String
  derivedFrom : List String
  deriving DecidableEq, Repr

structure SpawnRequest where
  task : String
  contract : OutputContract
  orphan : OrphanPolicy
  share : BudgetShare
  grantTokens : Option Nat
  tools : List ToolId
  toolsDeclared : Bool
  readsUntrusted : Bool
  role : ModelRoute
  disposition : Disposition
  deriving DecidableEq, Repr

/-- The contract of a child whose parent names none. -/
def defaultSpawnContract : String := "what you found"

def parseRole (s : String) : ModelRoute :=
  let word := Text.toAsciiLowercase (Text.trim s)
  if word = "orchestrator" then .orchestrator
  else if word = "summarizer" then .summarizer
  else .worker

def parseKind (s : String) : Disposition :=
  let word := Text.toAsciiLowercase (Text.trim s)
  if word = "master" ∨ word = "manage" ∨ word = "manager" then .manage else .work

def parseOrphan (s : String) : OrphanPolicy :=
  let word := Text.toAsciiLowercase (Text.trim s)
  if word = "detach" ∨ word = "detached" then .detach else .terminate

/-- A grant of nothing is no grant. -/
def parseGrant (args : Args) : Option Nat :=
  let n : Option Int :=
    match args.get "budget_tokens" with
    | some (.integer n) => some n
    | some (.amount a) => some (BitVec.ofNat 64 a).toInt
    | some (.text s) => Text.parseI64 (Text.trim s).toList
    | some (.boolean _) | none => none
  n.bind fun n => if n ≤ 0 then none else some n.toNat

def parseTools (s : String) : List ToolId :=
  let pieces := s.toList.splitOnP fun c => c ∈ [',', ' ', '\t', '\n', '[', ']', '"', '\'']
  let words := pieces.map fun piece => Text.trim (String.ofList piece)
  (words.filter (¬ Text.isEmpty ·)).map ToolId.mk

/-- The spawn that the arguments of a `run` call ask for. What they leave out takes a fixed
value, and the share and the quarantine are not theirs to name. -/
def SpawnRequest.fromArgs (args : Args) : SpawnRequest :=
  let text (key : String) : String := Text.trim (((args.get key).bind ArgValue.asText).getD "")
  let description := text "output_contract"
  { task := text "task"
    contract :=
      OutputContract.new (if Text.isEmpty description then defaultSpawnContract else description) ["findings"]
    orphan := parseOrphan (text "orphan_policy")
    share := .standard
    grantTokens := parseGrant args
    tools := parseTools (text "exposed_tools")
    toolsDeclared := (args.get "exposed_tools").isSome
    readsUntrusted := false
    role := parseRole (text "role")
    disposition := parseKind (text "kind") }

structure ToolInvocation where
  id : String
  tool : ToolId
  args : Args

inductive EscalationSeverity
  | advisory
  | blocking
  | critical
  deriving DecidableEq, Repr

inductive EscalationCategory
  | blockedByPermission
  | scopeContradiction
  | externalSystemRefused
  | conflictingInstructions
  | suspectedInjection
  | irreversibleActionRequired
  deriving DecidableEq, Repr

/-- Labels, handle and sentence are the text their own validators admitted. -/
structure EscalationRequest where
  severity : EscalationSeverity
  category : EscalationCategory
  options : List String
  artifact : Option String
  sentence : Option String
  deriving DecidableEq, Repr

inductive ModelStep
  | say (text : String)
  | toolCall (calls : List ToolInvocation)
  | memoryWrite (claim : ClaimRequest)
  | spawn (req : SpawnRequest)
  | ask (question : String)
  | escalate (req : EscalationRequest)

structure ProviderError where
  detail : String
  retriable : Bool
  deriving DecidableEq, Repr

structure ModelCall where
  usage : Usage
  step : ModelStep

/-- A batch of one call. -/
def ModelStep.oneCall (tool : ToolId) (args : Args) : ModelStep :=
  .toolCall [{ id := "call_1", tool, args }]

/-- What a streaming call delivers before it returns. -/
inductive StreamChunk
  | delta (text : String)
  | reasoning (text : String) (tokens : Nat)
  | retract (tokens : Nat)
  deriving DecidableEq, Repr

structure ModelDriver (σ : Type) where
  callStreamingSplit : ContextView → ExposedSet → CallLimits →
    Stateful σ (List StreamChunk × Except ProviderError ModelCall)
  streams : σ → Bool
  failover : ProviderError → Stateful σ Bool

/-! ## Tools -/

inductive ToolBody
  | inline (text : String)
  | reference (hash : String) (bytes : Nat)
  deriving DecidableEq, Repr

structure ToolOutcome where
  summary : ResultSummary
  body : ToolBody
  trust : TrustClass
  failed : Bool
  wallMs : Nat
  preview : Option String
  deriving DecidableEq, Repr

namespace ToolOutcome

def bodyText (outcome : ToolOutcome) : String :=
  match outcome.body with
  | .inline s => s
  | .reference hash bytes =>
    match outcome.preview with
    | some p => s!"{bytes} B total, ref {hash}\n{p}"
    | none => s!"ref {hash} ({bytes} B)"

def screenDetail (outcome : ToolOutcome) : Option String :=
  let body := outcome.bodyText
  let reason := (outcome.summary.detail.map Text.trim).filter fun d => !Text.isEmpty d
  match reason, Text.isEmpty (Text.trim body) with
  | some r, true => some r
  | some r, false => if Text.contains body r then some body else some (r ++ "\n" ++ body)
  | none, true => none
  | none, false => some body

end ToolOutcome

/-- One call handed to the host. -/
structure BatchItem where
  tool : ToolId
  args : Args
  adjudication : Adjudication

/-! ## Escalation -/

inductive NotRaisableReason
  | root
  | readsUntrusted
  | toolSpawned
  | detached
  deriving DecidableEq, Repr

namespace NotRaisableReason

/-- The serialised name. -/
def tag : NotRaisableReason → String
  | root => "root"
  | readsUntrusted => "reads_untrusted"
  | toolSpawned => "tool_spawned"
  | detached => "detached"

def debug : NotRaisableReason → String
  | root => "Root"
  | readsUntrusted => "ReadsUntrusted"
  | toolSpawned => "ToolSpawned"
  | detached => "Detached"

def note : NotRaisableReason → String
  | root =>
    "[escalation refused] this run is the conversation itself; there is nobody above " ++
    "it to raise to. Put the question to the user directly"
  | readsUntrusted =>
    "[escalation refused] this run reads untrusted content, so it holds no upward " ++
    "channel: a question composed inside this window is a statement about the model, " ++
    "not about the source"
  | toolSpawned =>
    "[escalation refused] this run was created by a tool rather than by an agent, and " ++
    "has no master to raise to"
  | detached =>
    "[escalation refused] this run was detached from its parent, so there is no longer " ++
    "anyone above it. It was not silently dropped: the journal records the refusal"

end NotRaisableReason

inductive EscalationRoute
  | parent (run : RunId)
  | user
  | notRaisable (reason : NotRaisableReason)
  deriving DecidableEq, Repr

def escalationRaised : String :=
  "[escalation raised] it is with a human now, and this run is paused until they answer"

def escalationNoDesk : String :=
  "[escalation not delivered] this build has no escalation desk wired, so nothing was raised. " ++
  "The run continues"

def escalationRoute (run : Run) : EscalationRoute :=
  if run.profile.readsUntrusted then .notRaisable .readsUntrusted
  else
    match run.profile.level with
    | .toolSpawned => .notRaisable .toolSpawned
    | .secretary => .notRaisable .root
    | .topAgent _ => .user
    | .master | .worker =>
      match run.parent with
      | some p => .parent p
      | none => .notRaisable .detached

inductive EscalationRefused
  | noDesk
  | tooManyOptions (count max : Nat)
  | notRaisable (reason : NotRaisableReason)
  | rejected (why : String)
  deriving DecidableEq, Repr

def EscalationRefused.render : EscalationRefused → String
  | noDesk =>
    "no escalation desk is wired in this build, so there is nowhere for this to go. The run " ++
    "is not paused and nothing was recorded as pending"
  | tooManyOptions count max =>
    s!"the escalation offered {count} options and the ceiling is {max}. Refused, never " ++
    "truncated: dropping the fifth option is the harness silently choosing which of a " ++
    "raiser's alternatives a human gets to see"
  | notRaisable reason =>
    let reason := reason.debug
    s!"this run may not raise: {reason}. The route is a property of the tree and a desk cannot " ++
    "widen it"
  | rejected why => s!"the escalation desk refused the record: {why}"

/-! ## Outcomes -/

inductive LoopOutcome
  | completed (result : CondensedResult)
  | paused (reason : PauseReason)
  | escalated (question : String)
  | raised (id : EscalationId)
  | cancelled
  | failed (error : String)

inductive UpwardShape
  | typed
  | typedPlusValidatedSentence
  | freeText
  deriving DecidableEq, Repr

def UpwardShape.word : UpwardShape → String
  | typed => "typed"
  | typedPlusValidatedSentence => "validated_sentence"
  | freeText => "free_text"

/-! ## What is recorded -/

/-- The payload of one journalled event, by its shape. -/
inductive Payload
  | empty
  | steer (text : String)
  | summarized (chars : Nat)
  | sessionSpawned (parent child : SessionId)
  | trustFloor (floor : TrustClass) (blocksComposedTargets : Bool)
  | failedOver (detail : String)
  | modelStep (tokens : Nat)
  | contractViolation (violation : String) (attempts : Nat) (detail : String)
  | completed (fields : OrderedMap String String) (spentTokens contractRetries : Nat)
  | question (text : String)
  | escalationRefused (why : String)
  | escalation (id : EscalationId)
  | notRemembered (text : String)
  | checkpoint (cp : Checkpoint)
  | tool (tool : ToolId)
  | decision (decision : PermissionDecision)
  | egressBlocked (host : String)
  | egressGranted (hosts : List String)
  | toolResult (tool : ToolId) (summary : String) (detail : Option String)
  | readerSpawned (child : RunId) (quarantinedRead : String) (sources : Option Nat)
      (budgetTokens : Nat) (upwardShape : Option String)
  | childSpawned (child : RunId) (orphan : OrphanPolicy) (budgetTokens depth : Nat)
      (readsUntrusted : Bool) (route : ModelRoute) (level : AgentLevel) (upwardShape : String)
  | childViolation (child : RunId) (violation : String)
  | readerFailed (child : RunId) (outcome : LoopOutcome) (refusal : String)
  | childEscalated (child : RunId) (question : String)
  | childFailed (child : RunId) (error : String)
  | childFate (child : RunId) (fate : String) (policy : Option OrphanPolicy)
  | paused (dimension : String) (spentTokens : Nat)
  | failed (error : String)

/-! ## The ports -/

structure ApprovalGate (σ : Type) where
  isInteractive : σ → Bool
  declineReason : σ → Option String
  awaitApproval : BlastRadius → Stateful σ Bool

inductive Urgency
  | advisory
  | immediate
  deriving DecidableEq, Repr

structure SteerMessage where
  text : String
  urgency : Urgency
  deriving DecidableEq, Repr

structure Control (σ : Type) where
  cancelled : σ → RunId → Bool
  takeSteer : RunId → Stateful σ (Option SteerMessage)
  takeInterrupt : Stateful σ (Option String)

/-- `NoControl`. -/
def noControl {σ : Type} : Control σ :=
  { cancelled := fun _ _ => false, takeSteer := fun _ => pure none, takeInterrupt := pure none }

/-- The reader's screen: speech, reasoning and retractions stop here. -/
def quarantinedSink {σ : Type} (inner : TurnEvent → Stateful σ Unit) : TurnEvent → Stateful σ Unit
  | .textDelta _ | .reasoningDelta _ _ | .speechRetracted _ => pure ()
  | other => inner other

structure Ports (σ : Type) where
  driver : ModelDriver σ
  summarize : ContextView → Stateful σ String
  executeBatch : List BatchItem → Stateful σ (List ToolOutcome)
  memory : Option (RunId → SessionId → ClaimRequest → TrustClass → Int →
    Stateful σ (Except String String))
  escalations : Option (RunId → EscalationRoute → EscalationRequest →
    Stateful σ (Except EscalationRefused EscalationId))
  approvals : ApprovalGate σ
  sink : TurnEvent → Stateful σ Unit
  control : Control σ
  nowMs : Stateful σ Int
  append : Clock → EventKind → RunId → SessionId → Payload → Stateful σ (Except String Nat)

/-- The ports of a quarantined reader. -/
def Ports.forReader {σ : Type} (ports : Ports σ) : Ports σ :=
  { ports with
    memory := none, escalations := none, sink := quarantinedSink ports.sink, control := noControl }

/-- The ports of a spawned child. -/
def Ports.forChild {σ : Type} (ports : Ports σ) : Ports σ :=
  { ports with memory := none, sink := quarantinedSink ports.sink }

/-- What else the engine rests on and is not in its sources: the path scope, the
content hash, run mnemonics, and the two uses of floating point. -/
structure Outside (σ : Type) where
  scope : PathScope σ
  contentKey : String → String
  sayable : RunId → String
  reachesTrigger : FillPct → Bool
  showFill : FillPct → String

end MarloweAgent.Loop
