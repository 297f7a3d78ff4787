import MarloweAgent.Loop.Driver

/-! The engine's state, the frame of the run it is driving, and the trace of what
it did. The functions of the engine are computations over a `Machine`: the
engine's own fields, the acting run with its session, the environment behind the
ports, a supply of fresh identifiers, and the effects so far. -/

namespace MarloweAgent.Loop
open Contract Library Tools Permission EventLog

def maxSteps : Nat := 400
def maxContractRetries : Nat := 2
def maxAutoContinue : Nat := 3
def keepToolResults : Nat := 3
def maxSourcesPerReader : Nat := 6
def perSourceMaxChars : Nat := 1500
def maxCondenseCache : Nat := 512
def journaledResultMaxChars : Nat := 4000
def childFailureMaxChars : Nat := 400
def receiptReturnsMaxChars : Nat := 160
def farmingSoftNudge : Nat := 4
def farmingFirmNudge : Nat := 7
def farmingHardStop : Nat := 10
def headlineField : String := "headline"
def headlineMaxChars : Nat := 200
def controlCallId : String := "control"

structure Engine where
  registry : ToolRegistry
  /-- The adjudicator's own counter. -/
  nextDecision : Nat
  assembler : Assembler
  cache : PrefixCache
  workspace : String
  tier : Tier
  nextCallId : Nat
  condensed : OrderedMap String String
  children : OrderedMap RunId (List (RunId × OrphanPolicy))
  lastCheckpoints : OrderedMap RunId Checkpoint
  upwardShape : UpwardShape

/-- `Engine::new`. -/
def Engine.new (registry : ToolRegistry) (windowTokens reserveTokens : Nat) (workspace : String)
    (tier : Tier) : Engine :=
  { registry, nextDecision := 1, assembler := .new windowTokens reserveTokens
    cache := ⟨OrderedMap.empty⟩, workspace, tier, nextCallId := 1
    condensed := OrderedMap.empty, children := OrderedMap.empty
    lastCheckpoints := OrderedMap.empty, upwardShape := .typed }

/-- The locals of one `drive_inner`. -/
structure Locals where
  steps : Nat
  pendingNudge : String := ""
  autoContinue : Nat := 0
  contractRetries : Nat
  toolCallsThisTurn : Nat := 0
  lastReasoning : String := ""

/-- A step the model answered, with the run it answered for and the tools its call
was offered. -/
structure Answer where
  run : Run
  offered : ExposedSet
  step : ModelStep

/-- The run being driven. The engine reads none of the last four: `ancestors` are
the runs above it as they were when the next one down was created, nearest first,
`seen` the states its model calls were made from, `offered` the tools the last of
them was offered, and `answer` the step being acted on. -/
structure Frame where
  run : Run
  state : SessionState
  provenance : Provenance
  locals : Locals
  ancestors : List Run
  seen : List SessionState
  offered : ExposedSet := .empty
  answer : Option Answer := none

/-- One thing the engine did. Calls through a port are recorded as they are made;
`iteration`, `saved`, `violated`, `compacted`, `took`, `used`, `groupStarted`,
`groupFolded`, `consulted` and `charged` mark places in the engine's own code. -/
inductive Effect
  | recorded (run : RunId) (session : SessionId) (kind : EventKind) (payload : Payload)
      (accepted : Bool)
  | shown (run : RunId) (event : TurnEvent)
  | iteration (run : RunId)
  | saved (run : RunId)
  | modelCalled (run : Run) (state : SessionState) (view : ContextView) (tools : ExposedSet)
      (limits : CallLimits)
  | modelAnswered (run : Run) (usage : Usage)
  | violated (run : RunId)
  | compacted (run : RunId) (before after : SessionState)
  | took (answer : Answer)
  /-- Tools that take effect while this answer is acted on. -/
  | used (run : RunId) (answer : Option Answer) (tools : List ToolId)
  | groupStarted (run : RunId)
  | adjudicated (run : Run) (seen : List SessionState) (request : Request) (adjudication : Adjudication)
  | asked (run : RunId) (decision : PermissionDecision) (granted : Bool)
  | hostCalled (run : Run) (items : List BatchItem)
  | groupFolded (run : RunId) (slots : List (String × Bool))
  | consulted (run : RunId) (hits : List (Option String))
  | spawned (ancestors : List Run) (parent child : Run)
  | returned (parent child : Run) (outcome : LoopOutcome)
  | charged (run : Run)
  /-- A bound of the model ran out; no run reaches this. -/
  | stuck

/-- The run whose doing it is. -/
def Effect.actor : Effect → RunId
  | .recorded run _ _ _ _ | .shown run _ | .iteration run | .saved run | .violated run
  | .compacted run _ _ | .groupStarted run | .asked run _ _ | .groupFolded run _
  | .consulted run _ | .used run _ _ => run
  | .took answer => answer.run.id
  | .modelCalled run _ _ _ _ | .modelAnswered run _ | .adjudicated run _ _ _ | .hostCalled run _
  | .spawned _ run _ | .returned run _ _ | .charged run => run.id
  | .stuck => 0

structure Machine (σ : Type) where
  engine : Engine
  frame : Frame
  env : σ
  fresh : Nat
  trace : List Effect

abbrev LoopM (σ α : Type) := Stateful (Machine σ) α

variable {σ α : Type}

namespace Machine

/-- A machine about to drive a run, with nothing done yet. -/
def start (engine : Engine) (run : Run) (state : SessionState) (provenance : Provenance) (env : σ)
    (fresh steps retries : Nat) : Machine σ :=
  { engine
    frame :=
      { run, state, provenance, locals := { steps, contractRetries := retries }, ancestors := []
        seen := [] }
    env, fresh, trace := [] }

@[simp] def run (m : Machine σ) : Run := m.frame.run
@[simp] def state (m : Machine σ) : SessionState := m.frame.state

def note (m : Machine σ) (e : Effect) : Machine σ := { m with trace := m.trace ++ [e] }

def withEnv (m : Machine σ) (env : σ) : Machine σ := { m with env }

def withRun (m : Machine σ) (run : Run) : Machine σ := { m with frame := { m.frame with run } }

def withState (m : Machine σ) (state : SessionState) : Machine σ :=
  { m with frame := { m.frame with state } }

def withLocals (m : Machine σ) (locals : Locals) : Machine σ :=
  { m with frame := { m.frame with locals } }

def withProvenance (m : Machine σ) (provenance : Provenance) : Machine σ :=
  { m with frame := { m.frame with provenance } }

def withEngine (m : Machine σ) (engine : Engine) : Machine σ := { m with engine }

/-- `run.spent.add`, with the run's new count on the trace. -/
def charged (m : Machine σ) (amount : Budget) : Machine σ :=
  let run := { m.run with spent := m.run.spent.add amount }
  (m.withRun run).note (.charged run)

end Machine

/-! ## Primitive steps -/

open Stateful (read update)

/-- Call something behind a port. -/
def port (f : Stateful σ α) : LoopM σ α := ⟨fun m => ((f.run m.env).1, m.withEnv (f.run m.env).2)⟩

def note (e : Effect) : LoopM σ Unit := update (·.note e)

/-- Act on a step of the model from here on. -/
def takes (step : ModelStep) : LoopM σ Unit :=
  update fun m =>
    let answer : Answer := ⟨m.run, m.frame.offered, step⟩
    { m with frame := { m.frame with answer := some answer }, trace := m.trace ++ [.took answer] }

/-- Tools take effect. -/
def uses (tools : List ToolId) : LoopM σ Unit :=
  update fun m => m.note (.used m.run.id m.frame.answer tools)

def setRun (f : Run → Run) : LoopM σ Unit := update fun m => m.withRun (f m.run)

def setLocals (f : Locals → Locals) : LoopM σ Unit := update fun m => m.withLocals (f m.frame.locals)

def setEngine (f : Engine → Engine) : LoopM σ Unit := update fun m => m.withEngine (f m.engine)

/-- `state.push`. -/
def pushBlock (b : Block) : LoopM σ Unit := update fun m => m.withState (m.state.push b)

/-- A fresh `Uuid::new_v4`: not one drawn before, and not the acting run's. -/
def newId : LoopM σ Nat :=
  ⟨fun m =>
    let id := max m.fresh (m.run.id + 1)
    (id, { m with fresh := id + 1 })⟩

/-- Take the next tool-line number. -/
def takeCallId : LoopM σ Nat :=
  ⟨fun m => (m.engine.nextCallId,
    m.withEngine { m.engine with nextCallId := m.engine.nextCallId + 1 })⟩

def emit (ports : Ports σ) (event : TurnEvent) : LoopM σ Unit := do
  let m ← read
  note (.shown m.run.id event)
  port (ports.sink event)

/-- `record`: a failed append is shown as degraded and otherwise swallowed. -/
def record (ports : Ports σ) (kind : EventKind) (payload : Payload) : LoopM σ (Option Nat) := do
  let now ← port ports.nowMs
  let m ← read
  let answer ← port (ports.append ⟨now⟩ kind m.run.id m.state.session payload)
  note (.recorded m.run.id m.state.session kind payload answer.isOk)
  match answer with
  | .ok seq => pure (some seq)
  | .error _ => do
    emit ports (.degraded .journalAppendFailed)
    pure none

/-- `run.spent.add`. -/
def charge (amount : Budget) : LoopM σ Unit := update (·.charged amount)

def setStatus (status : RunStatus) : LoopM σ Unit := setRun fun run => { run with status }

/-- Capture the run as it stands, record it, and keep it as the run's last checkpoint. -/
def writeCheckpoint (ports : Ports σ) (step contractRetries : Nat) : LoopM σ Unit := do
  let m ← read
  let cp := Checkpoint.capture m.run m.state step contractRetries
  let seq ← record ports .checkpointed (.checkpoint cp)
  setEngine fun engine =>
    { engine with lastCheckpoints := engine.lastCheckpoints.insert m.run.id cp }
  setRun fun run => { run with lastCheckpoint := seq }

/-- `pause`. -/
def pause (ports : Ports σ) (dimension : String) : LoopM σ LoopOutcome := do
  let m ← read
  let _ ← record ports .runPaused (.paused dimension m.run.spent.tokens)
  emit ports (.done m.run.spent.microsUsd m.run.spent.wallMs ⟨0, 1⟩)
  setStatus (.paused (.budgetExhausted dimension))
  pure (.paused (.budgetExhausted dimension))

/-- `fail`. -/
def fail (ports : Ports σ) (error : String) : LoopM σ LoopOutcome := do
  let _ ← record ports .runFailed (.failed error)
  setStatus (.failed error)
  pure (.failed error)

/-- `tool_error`. -/
def toolError (tool : ToolId) (why callRef : String) : LoopM σ Unit :=
  let name := tool.text
  pushBlock (.toolResultBlockedId s!"[{name} blocked] {why}" name .agentObserved callRef)

/-- A note of the harness in the conversation. -/
def pushNote (text : String) : LoopM σ Unit := pushBlock (.new .history text .agentObserved)

/-- Run another run to its end in a frame of its own and come back to this one:
what it returned and the frame it left. -/
def inFrame (frame : Frame) (body : LoopM σ α) : LoopM σ (α × Frame) :=
  ⟨fun m =>
    let (a, m') := body.run { m with frame }
    ((a, m'.frame), { m' with frame := m.frame })⟩

end MarloweAgent.Loop
