import MarloweAgent.Loop.Batch
import MarloweAgent.Loop.Spawn

/-! The loop: one iteration stage by stage, `drive_inner` around it, `drive` with
its last checkpoint and the settling of children, and resuming. -/

namespace MarloweAgent.Loop
open Contract Library Tools Permission
open Fallible (lift)
open Stateful (each)

variable {σ : Type}

/-- How an iteration ends before its checkpoint: `continue`, or `return`. -/
inductive Exit
  | again
  | stop (outcome : LoopOutcome)

abbrev StepM (σ α : Type) := Fallible (Machine σ) Exit α

def again {α : Type} : StepM σ α := Fallible.fail .again

def stopWith {α : Type} (ending : LoopM σ LoopOutcome) : StepM σ α := do
  let outcome ← lift ending
  Fallible.fail (.stop outcome)

/-! ## The top of the loop -/

def hardStops (ports : Ports σ) : StepM σ Unit := do
  let m ← Fallible.read
  match m.run.budget.exhausted m.run.spent with
  | some dimension => stopWith (pause ports dimension)
  | none =>
    if m.run.budget.hasRoomForACall m.run.spent then pure ()
    else stopWith (pause ports "tokens")

/-- Count the iteration, up to the step bound. -/
def beginIteration (ports : Ports σ) : StepM σ Unit := do
  let m ← Fallible.read
  if maxSteps < m.frame.locals.steps + 1 then stopWith (pause ports "steps")
  else
    lift do
      setLocals fun locals => { locals with steps := locals.steps + 1 }
      note (.iteration m.run.id)

def checkCancelled (ports : Ports σ) : StepM σ Unit := do
  let m ← Fallible.read
  if ports.control.cancelled m.env m.run.id then
    stopWith do
      let _ ← record ports .runCancelled .empty
      setStatus .cancelled
      pure .cancelled
  else pure ()

/-- The user's words enter the conversation and vouch for themselves. -/
def userTurn (tag text : String) : LoopM σ Unit := do
  let m ← Stateful.read
  Stateful.update (·.withProvenance (m.frame.provenance.attributeUserMessage text))
  pushBlock (.new .history (tag ++ text) .userAsserted)

def takeSteer (ports : Ports σ) : LoopM σ Unit := do
  let m ← Stateful.read
  match ← port (ports.control.takeSteer m.run.id) with
  | none => pure ()
  | some steer => do
    let _ ← record ports .steerReceived (.steer steer.text)
    userTurn "[steer] " steer.text

/-! ## The context -/

/-- Replace the volatile tier by its summary, in a child session. -/
def replaceVolatile (ports : Ports σ) (child : SessionId) (summary : String) : LoopM σ Unit := do
  Stateful.update fun m =>
    let (assembler, state, cache) :=
      m.engine.assembler.compact m.state child summary m.engine.cache
    ((m.withEngine { m.engine with assembler, cache }).withState state).note
      (.compacted m.run.id m.state state)
  setRun fun run => { run with session := child }
  let m ← Stateful.read
  emit ports (.compacted m.state.compactions)

/-- Open the child session of a compaction and move into it. -/
def compactInto (ports : Ports σ) (summary : String) : LoopM σ Unit := do
  let child ← newId
  let m ← Stateful.read
  let _ ← record ports .sessionSpawned (.sessionSpawned m.state.session child)
  replaceVolatile ports child summary

/-- Summarise and record, then replace the volatile tier. The two appends are
requested; whether they were accepted is not looked at. -/
def compactSession (ports : Ports σ) (view : ContextView) : LoopM σ Unit := do
  let summary ← port (ports.summarize view)
  let _ ← record ports .sessionSummarized (.summarized summary.utf8ByteSize)
  compactInto ports summary

/-- A session that compaction did not bring under the trigger cannot go on. -/
def compactionError (sys : Outside σ) (fill : FillPct) : String :=
  let shown := sys.showFill fill
  s!"compaction left context at {shown} of the effective window, still at " ++
  "or above the 0.7 trigger; the stable and context " ++
  "tiers plus the turn being answered do not fit"

/-- Assemble the view. A full window is compacted and an overfull store of tool
results is masked, and the loop goes round. -/
def assembleView (sys : Outside σ) (ports : Ports σ) : StepM σ ContextView := do
  let m ← Fallible.read
  let view := m.engine.assembler.assemble m.state
  if sys.reachesTrigger view.fillPct then do
    lift (compactSession ports view)
    let m ← Fallible.read
    let after := m.engine.assembler.assemble m.state
    if sys.reachesTrigger after.fillPct then stopWith (fail ports (compactionError sys after.fillPct))
    else again
  else if m.engine.assembler.overBudget m.state .toolResults then do
    let (state, masked) := Assembler.clearToolResults m.state keepToolResults
    lift (Stateful.update (Machine.withState · state))
    if 0 < masked then again else pure view
  else pure view

/-! ## The model call -/

/-- Keep the last reasoning with the turn it belongs to. -/
def attachThinking (reasoning : String) : List Block → List Block
  | [] => []
  | b :: rest =>
    if rest.any fun b => b.source = .history && b.trust = .agentInferred then
      b :: attachThinking reasoning rest
    else if b.source = .history ∧ b.trust = .agentInferred then
      let wire := b.wire.getD {}
      { b with wire := some { wire with thinking := wire.thinking.orElse fun _ => some reasoning } }
        :: rest
    else b :: rest

/-- The view as it is sent: the pending nudge last, and the last reasoning in its place. -/
def sentView (view : ContextView) (nudge reasoning : String) : ContextView :=
  let volatile := if Text.isEmpty nudge then view.volatile
    else view.volatile ++ [.new .governance nudge .agentObserved]
  { view with
    volatile := if Text.isEmpty reasoning then volatile else attachThinking reasoning volatile }

/-- Latch the run's floor to the view's, and say so when it moved. -/
def latchFloor (ports : Ports σ) (view : ContextView) : LoopM σ Unit := do
  let m ← Stateful.read
  setRun fun run => (run.latchTrustFloor view.trustFloor).1
  match (m.run.latchTrustFloor view.trustFloor).2 with
  | none => pure ()
  | some floor => do
    let _ ← record ports .trustFloorLatched (.trustFloor floor (blocksComposedTargets floor))
    if blocksComposedTargets floor && !m.run.profile.readsUntrusted then
      emit ports (.degraded .trustFloorLatched)
    else pure ()

/-- Show what streamed, and keep the reasoning. -/
def showStream (ports : Ports σ) : List StreamChunk → LoopM σ String
  | [] => pure ""
  | chunk :: rest => do
    emit ports (match chunk with
      | .delta text => .textDelta text
      | .reasoning text tokens => .reasoningDelta text tokens
      | .retract tokens => .speechRetracted tokens)
    let more ← showStream ports rest
    pure (match chunk with
      | .reasoning text _ => text ++ more
      | _ => more)

/-- Latch the floor, offer the tools and call the model. -/
def callModel (ports : Ports σ) (view : ContextView) :
    LoopM σ (String × Except ProviderError ModelCall) := do
  latchFloor ports view
  let m ← Stateful.read
  let limits := m.run.budget.callLimits m.run.spent m.run.profile.modelRoute
  let offered := if farmingHardStop ≤ m.frame.locals.toolCallsThisTurn then ExposedSet.empty
    else m.run.profile.exposedTools
  note (.modelCalled m.run m.state view offered limits)
  Stateful.update fun m => { m with frame := { m.frame with seen := m.frame.seen ++ [m.state], offered } }
  let (chunks, answer) ← port (ports.driver.callStreamingSplit view offered limits)
  let reasoning ← showStream ports chunks
  pure (reasoning, answer)

/-- Whether another provider took over. -/
def tryFailover (ports : Ports σ) (e : ProviderError) : LoopM σ Bool :=
  if e.retriable then port (ports.driver.failover e) else pure false

def chargeCall (ports : Ports σ) (call : ModelCall) : LoopM σ ModelStep := do
  let m ← Stateful.read
  note (.modelAnswered m.run call.usage)
  charge call.usage.asBudget
  let _ ← record ports .modelStep (.modelStep (call.usage.promptTokens + call.usage.completionTokens))
  pure call.step

/-- Charge an answer, or fail over, or fail. -/
def takeAnswer (ports : Ports σ) (answer : Except ProviderError ModelCall) : StepM σ ModelStep := do
  match answer with
  | .ok call => lift (chargeCall ports call)
  | .error e => do
    let failedOver ← lift (tryFailover ports e)
    if failedOver then do
      let _ ← lift (record ports .providerFailedOver (.failedOver e.detail))
      lift (emit ports (.degraded .providerFailedOver))
      again
    else stopWith (fail ports e.detail)

/-- A person who spoke during the call is heard before the answer is. -/
def takeInterrupt (ports : Ports σ) : StepM σ Unit := do
  let m ← Fallible.read
  if m.run.profile.interrupt = .interruptible then do
    let spoken ← lift (port ports.control.takeInterrupt)
    match spoken with
    | none => pure ()
    | some text => do
      let _ ← lift (record ports .interrupted .empty)
      lift (userTurn "[user, interrupting] " text)
      again
  else pure ()

def emptyTurnNudge (reasoning : String) : String :=
  if Text.isEmpty reasoning then
    "(Your previous turn produced nothing at all. Answer the user, or call a tool if you need " ++
    "something first.)"
  else
    "(Your previous turn produced reasoning but no reply and no tool call. Continue from where you " ++
    "left off — either answer the user or call a tool.)"

def ModelStep.saysNothing : ModelStep → Bool
  | .say text => Text.isEmpty (Text.trim text)
  | _ => false

/-- A turn with nothing in it is asked for again, a few times. -/
def retryEmptyTurn (ports : Ports σ) (step : ModelStep) : StepM σ Unit := do
  let m ← Fallible.read
  if step.saysNothing then
    if m.frame.locals.autoContinue < maxAutoContinue then do
      lift (setLocals fun locals =>
        { locals with
          autoContinue := locals.autoContinue + 1
          pendingNudge := emptyTurnNudge locals.lastReasoning })
      again
    else
      stopWith (fail ports
        s!"the model produced no reply and no tool call {maxAutoContinue} times in a row")
  else lift (setLocals fun locals => { locals with autoContinue := 0 })

def farmingNudge (n : Nat) : String :=
  if farmingHardStop ≤ n then
    "(HARD STOP: you have called tools repeatedly " ++
    "without answering. Tools are withheld for this turn. Answer the user now " ++
    "with what you already have.)"
  else if farmingFirmNudge ≤ n then
    "(You have gathered a substantial amount " ++
    "across many tool calls. Stop collecting. Next turn, synthesise what you " ++
    "have and answer. Call another tool only if it is essential.)"
  else if farmingSoftNudge ≤ n then
    "(Reminder: several tool calls so far. Do you " ++
    "already have enough to answer? If so, stop searching and answer.)"
  else ""

def ModelStep.isToolCall : ModelStep → Bool
  | .toolCall _ => true
  | _ => false

/-- Count a turn of tool calls towards the farming nudges. -/
def countToolTurn (step : ModelStep) : LoopM σ Unit :=
  if step.isToolCall then
    setLocals fun locals =>
      { locals with
        toolCallsThisTurn := locals.toolCallsThisTurn + 1
        pendingNudge := farmingNudge (locals.toolCallsThisTurn + 1) }
  else pure ()

/-! ## The steps a model takes -/

def undescribedSource : String :=
  "the reader did not describe this source separately; see `about`"

/-- Every declared field is present in the result. -/
def fillFields (fields : List FieldSpec) (result : CondensedResult) : CondensedResult :=
  fields.foldl (fun result spec =>
    if (result.get spec.name).isSome then result else result.insert spec.name undescribedSource)
    result

/-- A reply as the result its run's contract asks for. -/
def resultOf (contract : OutputContract) (text : String) : CondensedResult :=
  match contract.fields with
  | [] => CondensedResult.empty.insert "answer" text
  | [one] => CondensedResult.empty.insert one.name text
  | first :: rest =>
    fillFields (first :: rest) ((CondensedResult.parseFields text (first :: rest)).getD
      (CondensedResult.empty.insert first.name text))

/-- A field as the journal keeps it. -/
def journaledField (value : String) : String :=
  match Text.clipped value journaledResultMaxChars with
  | some cut =>
    let length := value.toList.length
    cut ++ s!"… [{length} chars, journal keeps {journaledResultMaxChars}]"
  | none => value

def journaledFields (result : CondensedResult) : OrderedMap String String :=
  result.fields.bindings.foldl (fun out (k, v) => out.insert k (journaledField v)) OrderedMap.empty

/-- A reply that misses its contract is sent back, up to the retry bound. -/
def retryContract (ports : Ports σ) (violation : ContractViolation) : StepM σ Unit := do
  let m ← Fallible.read
  let attempts := m.frame.locals.contractRetries + 1
  let why := violation.render
  if maxContractRetries < attempts then
    stopWith do
      let _ ← record ports .runFailed (.contractViolation why attempts
        ("the contract was not satisfied within its retry " ++
        "bound; the run is stopped rather than allowed to " ++
        "spend the rest of its budget on the same reply"))
      setStatus (.failed s!"output contract: {why}")
      pure (.failed (contractUnmet ++ " " ++ why))
  else do
    lift do
      setLocals fun locals => { locals with contractRetries := attempts }
      note (.violated m.run.id)
      pushNote s!"[output contract] {why}"
      setStatus .running
    again

/-- A reply that did not stream is shown whole. -/
def showReply (ports : Ports σ) (streamed : Bool) (text : String) : LoopM σ Unit :=
  if streamed then pure () else emit ports (.textDelta text)

/-- Show and keep a reply, and make it the run's result. -/
def reply (ports : Ports σ) (view : ContextView) (streamed : Bool) (text : String) :
    LoopM σ CondensedResult := do
  showReply ports streamed text
  let m ← Stateful.read
  let reasoning := m.frame.locals.lastReasoning
  pushBlock (.assistantTurn text (if Text.isEmpty reasoning then none else some reasoning) [])
  setStatus .completed
  emit ports (.done m.run.spent.microsUsd m.run.spent.wallMs view.fillPct)
  pure (resultOf m.run.outputContract text)

def say (ports : Ports σ) (view : ContextView) (streamed : Bool) (text : String) : StepM σ Unit := do
  let result ← lift (reply ports view streamed text)
  let m ← Fallible.read
  match m.run.outputContract.validate result with
  | .error violation => retryContract ports violation
  | .ok () =>
    stopWith do
      let _ ← record ports .runCompleted (.completed (journaledFields result) m.run.spent.tokens
        m.frame.locals.contractRetries)
      pure (.completed result)

def askIsTheConversationsDoor : String :=
  "[ask refused] `ask` reaches the person Marlowe is talking to, and only the conversation" ++
  "\x20     itself holds that door. An agent that is stuck raises an escalation instead, " ++
  "which travels" ++
  "\x20     up its own chain of masters"

def ask (ports : Ports σ) (question : String) : StepM σ Unit := do
  let m ← Fallible.read
  if m.run.profile.level ≠ .secretary then do
    lift (pushNote askIsTheConversationsDoor)
    again
  else
    stopWith do
      uses [⟨"ask"⟩]
      let _ ← record ports .approvalRequested (.question question)
      setStatus (.paused .awaitingAnswer)
      pure (.escalated question)

/-- Hand an escalation to the desk, when there is one. -/
def raiseAt (ports : Ports σ) (route : EscalationRoute) (req : EscalationRequest) :
    LoopM σ (Except EscalationRefused EscalationId) := do
  let m ← Stateful.read
  match ports.escalations with
  | some raise => port (raise m.run.id route req)
  | none => pure (.error .noDesk)

/-- A refused escalation: the conversation is told, and the record is. -/
def noteRefusal (ports : Ports σ) (refused : EscalationRefused) : LoopM σ Unit :=
  match refused with
  | .noDesk => pushNote escalationNoDesk
  | why => do
    let shown := why.render
    let _ ← record ports .runFailed (.escalationRefused shown)
    pushNote s!"[escalation refused] {shown}"

def escalate (ports : Ports σ) (req : EscalationRequest) : StepM σ Unit := do
  let m ← Fallible.read
  match escalationRoute m.run with
  | .notRaisable reason =>
    lift do
      let _ ← record ports .runFailed (.escalationRefused reason.tag)
      pushNote reason.note
  | route => do
    let raised ← lift (raiseAt ports route req)
    match raised with
    | .ok id =>
      stopWith do
        uses [⟨"escalate"⟩]
        let _ ← record ports .approvalRequested (.escalation id)
        pushNote escalationRaised
        setStatus (.paused (.awaitingEscalation id))
        pure (.raised id)
    | .error refused => lift (noteRefusal ports refused)

/-- Ask memory to remember, under the run's floor. -/
def rememberIn (ports : Ports σ) (claim : ClaimRequest) : LoopM σ (Except String String) := do
  let m ← Stateful.read
  let now ← port ports.nowMs
  match ports.memory with
  | some remember => port (remember m.run.id m.state.session claim m.run.trustFloor now)
  | none => pure (.error "memory is not wired in this build")

def memoryWrite (ports : Ports σ) (claim : ClaimRequest) : LoopM σ Unit := do
  let m ← Stateful.read
  if !m.run.profile.mayWriteMemory then
    pushNote "[remember refused] this run's profile may not write memory"
  else do
    match ← rememberIn ports claim with
    | .ok receipt => do
      uses [⟨"remember"⟩]
      pushNote s!"[remembered] {receipt}"
    | .error why => do
      let text := s!"[not remembered] {why}"
      let _ ← record ports .memoryWriteRejected (.notRemembered text)
      pushNote text

/-- Act on what the model answered. -/
def takeStep (sys : Outside σ) (ports : Ports σ) (sub : SubRun σ) (view : ContextView)
    (streamed : Bool) (step : ModelStep) : StepM σ Unit := do
  lift (takes step)
  match step with
  | .say text => say ports view streamed text
  | .ask question => ask ports question
  | .escalate req => escalate ports req
  | .toolCall calls =>
    lift do
      let m ← Stateful.read
      toolBatch sys ports sub view calls m.frame.locals.lastReasoning
  | .memoryWrite claim => lift (memoryWrite ports claim)
  | .spawn req => lift (spawn sys ports sub req)

/-! ## The loop -/

/-- Send the view and stream the answer, with whether the driver shows speech itself. -/
def callWith (ports : Ports σ) (view : ContextView) :
    LoopM σ (ContextView × Bool × String × Except ProviderError ModelCall) := do
  let m ← Stateful.read
  let streamed := ports.driver.streams m.env
  let sent := sentView view m.frame.locals.pendingNudge m.frame.locals.lastReasoning
  setLocals fun locals => { locals with pendingNudge := "" }
  let (reasoning, answer) ← callModel ports sent
  pure (sent, streamed, reasoning, answer)

/-- From an assembled context to an answered model call. -/
def modelTurn (sys : Outside σ) (ports : Ports σ) : StepM σ (ContextView × Bool × ModelStep) := do
  let view ← assembleView sys ports
  let (sent, streamed, reasoning, answer) ← lift (callWith ports view)
  let step ← takeAnswer ports answer
  takeInterrupt ports
  lift (setLocals fun locals => { locals with lastReasoning := reasoning })
  pure (sent, streamed, step)

/-- The per-iteration checkpoint. -/
def checkpointIteration (ports : Ports σ) : LoopM σ Unit := do
  let m ← Stateful.read
  writeCheckpoint ports m.frame.locals.steps m.frame.locals.contractRetries
  note (.saved m.run.id)

/-- An iteration once it has begun: one turn of the model, and its checkpoint. -/
def turn (sys : Outside σ) (ports : Ports σ) (sub : SubRun σ) : StepM σ Unit := do
  checkCancelled ports
  lift (takeSteer ports)
  let (view, streamed, step) ← modelTurn sys ports
  retryEmptyTurn ports step
  lift (countToolTurn step)
  takeStep sys ports sub view streamed step
  lift (checkpointIteration ports)

/-- The body of the loop. -/
def iterationBody (sys : Outside σ) (ports : Ports σ) (sub : SubRun σ) : StepM σ Unit := do
  hardStops ports
  beginIteration ports
  turn sys ports sub

/-- One iteration: the outcome when the loop returned in it. -/
def iterate (sys : Outside σ) (ports : Ports σ) (sub : SubRun σ) : LoopM σ (Option LoopOutcome) := do
  match ← Stateful.outcome (iterationBody sys ports sub) with
  | .ok () => pure none
  | .error .again => pure none
  | .error (.stop outcome) => pure (some outcome)

def stuck : LoopM σ LoopOutcome := do
  note .stuck
  pure (.failed "")

/-- `drive_inner`. The step bound is what ends the loop, so it is the bound here too. -/
def driveInner (sys : Outside σ) (sub : SubRun σ) (ports : Ports σ) (resumedSteps resumedRetries : Nat) :
    LoopM σ LoopOutcome := do
  setStatus .running
  setLocals fun _ => { steps := resumedSteps, contractRetries := resumedRetries }
  Stateful.repeatUntil (iterate sys ports sub) stuck (maxSteps - resumedSteps + 1)

/-- Settle one child of a run that ended. -/
def settleChild (ports : Ports σ) (child : RunId × OrphanPolicy) : LoopM σ Unit := do
  let m ← Stateful.read
  match m.engine.lastCheckpoints.get? child.1 with
  | none => do
    let _ ← record ports .runCompleted (.childFate child.1 "no_checkpoint" none)
  | some cp =>
    match settleOrphan cp child.2 with
    | none => pure ()
    | some (amended, fate) => do
      let _ ← record ports .checkpointed (.checkpoint amended)
      let _ ← record ports .runCompleted (.childFate child.1 fate.verb (some child.2))
      setEngine fun engine =>
        { engine with lastCheckpoints := engine.lastCheckpoints.insert child.1 amended }

/-- `settle_children`. -/
def settleChildren (ports : Ports σ) : LoopM σ Unit := do
  let m ← Stateful.read
  setEngine fun engine => { engine with children := engine.children.erase m.run.id }
  each (settleChild ports) ((m.engine.children.get? m.run.id).getD [])

/-- The steps and retries the last checkpoint of the run counts, or the resumed ones. -/
def countedSteps (m : Machine σ) (resumedSteps resumedRetries : Nat) : Nat × Nat :=
  match m.engine.lastCheckpoints.get? m.run.id with
  | some cp => (cp.step, cp.contractRetries)
  | none => (resumedSteps, resumedRetries)

/-- `drive`. -/
def drive (sys : Outside σ) (sub : SubRun σ) (resumedSteps resumedRetries : Nat) (ports : Ports σ) :
    LoopM σ LoopOutcome := do
  let outcome ← driveInner sys sub ports resumedSteps resumedRetries
  let m ← Stateful.read
  let counted := countedSteps m resumedSteps resumedRetries
  writeCheckpoint ports counted.1 counted.2
  settleChildren ports
  pure outcome

/-! ## The whole engine -/

/-- Nested runs, to a depth. A run with depth to grant nests at most one further
than that, and a reader not at all, so the bound is never met. -/
def nested (sys : Outside σ) : Nat → SubRun σ
  | 0 => fun _ => stuck
  | n + 1 => drive sys (nested sys n) 0 0

/-- How many levels of nested runs a run can still open. -/
def nesting (run : Run) : Nat := if run.profile.exposedTools.isEmpty then 0 else run.budget.depth + 1

/-- `drive_inner` of the run in the frame. -/
def runDriveInner (sys : Outside σ) (ports : Ports σ) (resumedSteps resumedRetries : Nat) :
    LoopM σ LoopOutcome := do
  let m ← Stateful.read
  driveInner sys (nested sys (nesting m.run)) ports resumedSteps resumedRetries

/-- `continue_from`: drive the run in the frame. -/
def continueFrom (sys : Outside σ) (ports : Ports σ) (resumedSteps resumedRetries : Nat) :
    LoopM σ LoopOutcome := do
  let m ← Stateful.read
  drive sys (nested sys (nesting m.run)) resumedSteps resumedRetries ports

/-- The frame `resume_from` drives. -/
def Frame.restored (cp : Checkpoint) : Frame :=
  let restored := cp.restore
  { run := restored.run, state := restored.state, provenance := restored.provenance
    locals := { steps := restored.steps, contractRetries := restored.contractRetries }
    ancestors := [], seen := [] }

/-- `resume_from`. -/
def resumeFrom (sys : Outside σ) (ports : Ports σ) (cp : Checkpoint) : LoopM σ LoopOutcome := do
  Stateful.update fun m => { m with frame := Frame.restored cp }
  continueFrom sys ports cp.step cp.contractRetries

end MarloweAgent.Loop
