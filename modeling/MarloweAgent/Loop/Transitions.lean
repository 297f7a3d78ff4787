import MarloweAgent.Library.CallTree
import MarloweAgent.Loop.Drive

/-! The transition system of the loop: every step a run can take on its machine,
with what must hold for it to be taken, and the nested run as one call. The
modules on the claims read their results off these steps; that the engine takes
no other is proved in the refinement. -/

namespace MarloweAgent.Loop
open Contract Library Tools Permission EventLog

variable {σ : Type}

/-- A record or an event on the screen, other than the two records of a compaction. -/
def Effect.isPlain : Effect → Bool
  | .recorded _ _ kind _ _ => kind ≠ .sessionSummarized && kind ≠ .sessionSpawned
  | .shown _ _ | .groupFolded _ _ | .consulted _ _ => true
  | _ => false

/-- A plain effect of this run. -/
structure Effect.PlainOf (run : RunId) (e : Effect) : Prop where
  plain : e.isPlain = true
  actor : e.actor = run

/-- The same run but for its status, its session and its last checkpoint's number. -/
def Run.Same (r r' : Run) : Prop :=
  ∃ status session seq, r' = { r with status, session, lastCheckpoint := seq }

namespace Run.Same

theorem refl (r : Run) : r.Same r := ⟨r.status, r.session, r.lastCheckpoint, rfl⟩

theorem trans {r r' r'' : Run} (h : r.Same r') (h' : r'.Same r'') : r.Same r'' := by
  obtain ⟨a, b, c, rfl⟩ := h
  obtain ⟨a', b', c', rfl⟩ := h'
  exact ⟨a', b', c', rfl⟩

end Run.Same

/-- The parts of a machine no step of the run in the frame may touch unseen. -/
structure Unmoved (m m' : Machine σ) : Prop where
  run : m.run.Same m'.run
  ancestors : m'.frame.ancestors = m.frame.ancestors
  fresh : m.fresh ≤ m'.fresh
  registry : m'.engine.registry = m.engine.registry

/-- Nothing the steps below speak of has changed, but for some plain effects of the run. -/
structure Told (m m' : Machine σ) (es : List Effect) : Prop extends Unmoved m m' where
  state : m'.state = m.state
  seen : m'.frame.seen = m.frame.seen
  offered : m'.frame.offered = m.frame.offered
  answer : m'.frame.answer = m.frame.answer
  steps : m'.frame.locals.steps = m.frame.locals.steps
  retries : m'.frame.locals.contractRetries = m.frame.locals.contractRetries
  children : m'.engine.children = m.engine.children
  checkpoints : m'.engine.lastCheckpoints = m.engine.lastCheckpoints
  trace : m'.trace = m.trace ++ es
  plain : ∀ e ∈ es, e.PlainOf m.run.id

/-! ## Mediation -/

/-- The request a run makes for a call of a tool: the registered manifest, the run's
own exposed set, and the taint its provenance and its floor resolve. -/
structure RequestOf (registry : ToolRegistry) (run : Run) (tool : ToolId) (req : Request) : Prop where
  registered : registry.manifest tool = some req.manifest
  exposed : req.exposed = run.profile.exposedTools
  taint : ∃ (provenance : Provenance) (view : ContextView),
    req.taint = provenance.taintFor req.args view run.trustFloor

/-- The segment of a batch that clears one call: its adjudication, the record of
the decision, and a yes where the decision asks for one, in that order. -/
def Vouched (sys : Outside σ) (registry : ToolRegistry) (run : Run) (item : BatchItem)
    (segment : List Effect) : Prop :=
  ∃ (at_ : Run) (seen : List SessionState) (req : Request) (id : Nat) (env : σ)
      (session : SessionId) (accepted : Bool) (rest : List Effect),
    at_.id = run.id ∧ at_.profile.exposedTools = run.profile.exposedTools ∧
    RequestOf registry at_ item.tool req ∧ req.args = item.args ∧
    item.adjudication = ((adjudicate sys.scope id req).run env).1 ∧ Cleared req ∧
    segment = .adjudicated at_ seen req item.adjudication ::
      .recorded run.id session .permissionDecided (.decision item.adjudication.decision) accepted ::
        rest ∧
    (item.adjudication.decision.outcome = .allowed ∨
      (∃ tier, item.adjudication.decision.outcome = .needsApproval tier) ∧
        .asked run.id item.adjudication.decision true ∈ rest)

def Effect.startsGroup : Effect → Bool
  | .groupStarted _ => true
  | _ => false

/-- The trace ends in a group of this run, and each item has a segment of its own there. -/
def Mediated (sys : Outside σ) (registry : ToolRegistry) (trace : List Effect) (run : Run)
    (items : List BatchItem) : Prop :=
  ∃ before group segments, trace = before ++ .groupStarted run.id :: group ∧
    (∀ e ∈ group, e.startsGroup = false) ∧
    List.Forall₂ (Vouched sys registry run) items segments ∧ segments.flatten.Sublist group

/-- What the loop checks on its own before a tool takes effect for an answer: that
the run holds the tool of a call, and of each control step whatever its handler asks. -/
def Answer.Permits (answer : Answer) (tool : ToolId) : Prop :=
  match answer.step with
  | .say _ => False
  | .toolCall calls =>
    tool ∈ calls.map ToolInvocation.tool ∧ answer.run.profile.exposedTools.contains tool = true
  | .memoryWrite _ => tool = ⟨"remember"⟩ ∧ answer.run.profile.mayWriteMemory = true
  | .spawn req => tool = ⟨"run"⟩ ∧ ∃ granted, admitSpawn answer.run req = .ok granted
  | .ask _ => tool = ⟨"ask"⟩ ∧ answer.run.profile.level = .secretary
  | .escalate _ =>
    tool = ⟨"escalate"⟩ ∧ ∀ reason, escalationRoute answer.run ≠ .notRaisable reason

/-! ## Steps -/

/-- The effects of one compaction: the two appends, each followed by a notice when
it was refused, and the replacement. -/
def compactionEffects (run : RunId) (before after : SessionState) (summary spawned : Payload)
    (first second : Bool) (firstNotice secondNotice : List Effect) : List Effect :=
  .recorded run before.session .sessionSummarized summary first :: firstNotice ++
    .recorded run before.session .sessionSpawned spawned second :: secondNotice ++
      [.compacted run before after]

/-- What holds of every plain effect of the run, and of the three of its own, holds
of every effect of a compaction. -/
theorem forall_compactionEffects {P : Effect → Prop} {run : RunId} {before after : SessionState}
    {summary spawned : Payload} {first second : Bool} {firstNotice secondNotice : List Effect}
    (hfirst : ∀ e ∈ firstNotice, e.PlainOf run) (hsecond : ∀ e ∈ secondNotice, e.PlainOf run)
    (plain : ∀ e, e.PlainOf run → P e)
    (recorded : ∀ kind payload accepted, P (.recorded run before.session kind payload accepted))
    (compacted : P (.compacted run before after)) :
    ∀ e ∈ compactionEffects run before after summary spawned first second firstNotice secondNotice,
      P e := by
  intro e he
  simp only [compactionEffects, List.mem_append, List.mem_cons, List.not_mem_nil, or_false] at he
  rcases he with ((rfl | he) | rfl | he) | rfl
  · exact recorded _ _ _
  · exact plain e (hfirst e he)
  · exact recorded _ _ _
  · exact plain e (hsecond e he)
  · exact compacted

/-- One step of the run in the frame. -/
inductive Act (sys : Outside σ) : Machine σ → Machine σ → Prop
  | tell {m m'} (es : List Effect) (h : Told m m' es) : Act sys m m'
  | begin (m) (h : m.frame.locals.steps + 1 ≤ maxSteps) :
    Act sys m ((m.withLocals { m.frame.locals with steps := m.frame.locals.steps + 1 }).note
      (.iteration m.run.id))
  | violation (m) (h : m.frame.locals.contractRetries + 1 ≤ maxContractRetries) :
    Act sys m ((m.withLocals
      { m.frame.locals with contractRetries := m.frame.locals.contractRetries + 1 }).note
        (.violated m.run.id))
  | push (m) (b : Block) (h : b.source.tier = .volatile) : Act sys m (m.withState (m.state.push b))
  | clear (m) (keep : Nat) :
    Act sys m (m.withState (Assembler.clearToolResults m.state keep).1)
  | compaction {m m'} (child : SessionId) (summary : String) (p q : Payload) (first second : Bool)
      (firstNotice secondNotice : List Effect) (h : Unmoved m m')
      (hfirst : ∀ e ∈ firstNotice, e.PlainOf m.run.id)
      (hsecond : ∀ e ∈ secondNotice, e.PlainOf m.run.id)
      (seen : m'.frame.seen = m.frame.seen)
      (offered : m'.frame.offered = m.frame.offered)
      (answer : m'.frame.answer = m.frame.answer)
      (locals : m'.frame.locals = m.frame.locals)
      (children : m'.engine.children = m.engine.children)
      (checkpoints : m'.engine.lastCheckpoints = m.engine.lastCheckpoints)
      (state : m'.state = (m.engine.assembler.compact m.state child summary m.engine.cache).2.1)
      (trace : m'.trace = m.trace ++ compactionEffects m.run.id m.state m'.state p q first second
        firstNotice secondNotice) : Act sys m m'
  | latch (m) (observed : TrustClass) : Act sys m (m.withRun (m.run.latchTrustFloor observed).1)
  | call (m) (view : ContextView) (tools : ExposedSet) (limits : CallLimits)
      (h : ∀ b ∈ m.state.sources, m.run.trustFloor ≤ b.trust)
      (offered : tools = .empty ∨ tools = m.run.profile.exposedTools) :
    Act sys m { m with
      trace := m.trace ++ [.modelCalled m.run m.state view tools limits]
      frame := { m.frame with seen := m.frame.seen ++ [m.state], offered := tools } }
  | answer (m) (usage : Usage) :
    Act sys m ((m.note (.modelAnswered m.run usage)).charged usage.asBudget)
  | took (m) (step : ModelStep) :
    Act sys m { m with
      trace := m.trace ++ [.took ⟨m.run, m.frame.offered, step⟩]
      frame := { m.frame with answer := some ⟨m.run, m.frame.offered, step⟩ } }
  | used (m) (tools : List ToolId)
      (h : ∃ answer, m.frame.answer = some answer ∧ ∀ tool ∈ tools, answer.Permits tool) :
    Act sys m (m.note (.used m.run.id m.frame.answer tools))
  | groupStart (m) : Act sys m (m.note (.groupStarted m.run.id))
  | adjudicated (m) (tool : ToolId) (req : Request) (adjudication : Adjudication)
      (h : RequestOf m.engine.registry m.run tool req) :
    Act sys m (m.note (.adjudicated m.run m.frame.seen req adjudication))
  | asked (m) (decision : PermissionDecision) (granted : Bool) :
    Act sys m ((m.note (.asked m.run.id decision granted)).withRun
      (if granted then { m.run with profile := (widen decision.reasons m.run.profile).1 } else m.run))
  | host (m) (items : List BatchItem) (wallMs : Nat)
      (h : Mediated sys m.engine.registry m.trace m.run items) :
    Act sys m ((if items.isEmpty then m else m.note (.hostCalled m.run items)).charged
      { toolCalls := items.length % 2 ^ 32, wallMs })
  | checkpoint (m) :
    Act sys m ((m.withEngine
      { m.engine with
        lastCheckpoints := m.engine.lastCheckpoints.insert m.run.id (Checkpoint.capture m.run m.state
          m.frame.locals.steps m.frame.locals.contractRetries) }).note (.saved m.run.id))
  | enlist (m) (child : RunId) (policy : OrphanPolicy) (h : m.run.id < child) :
    Act sys m (m.withEngine
      { m.engine with
        children := m.engine.children.insert m.run.id
          ((m.engine.children.get? m.run.id).getD [] ++ [(child, policy)]) })

/-! ## Calls -/

/-- How a run comes to have a child: as the reader of a quarantined read, or by an
admitted spawn. -/
inductive ChildOf (parent child : Run) : Prop
  | reader (profile : child.profile = .quarantinedReader)
      (budget : parent.budget.sliceForQuarantinedRead parent.spent = some child.budget)
  | spawned (req : SpawnRequest) (h : admitSpawn parent req = .ok (child.budget, child.profile))

/-- What holds of a child when its run starts. -/
structure Born (m : Machine σ) (child : Run) : Prop where
  later : m.run.id < child.id
  drawn : child.id < m.fresh
  unspent : child.spent = {}
  floor : child.trustFloor = m.run.trustFloor
  how : ChildOf m.run child
  nests : nesting child < nesting m.run

/-- The machine in the child's frame. -/
def Machine.entered (m : Machine σ) (child : Run) (state : SessionState) : Machine σ :=
  { m with
    trace := m.trace ++ [.spawned m.frame.ancestors m.run child]
    frame :=
      { run := child, state, provenance := .new, locals := { steps := 0, contractRetries := 0 }
        ancestors := m.run :: m.frame.ancestors, seen := [] } }

/-- The machine back in the caller's frame, the child's spending charged to it. -/
def Machine.backIn (done caller : Machine σ) (outcome : LoopOutcome) : Machine σ :=
  ((({ done with frame := caller.frame }).note
    (.returned caller.run done.run outcome)).charged done.run.spent).charged { subagents := 1 }

/-- The end of a `drive`: its records, and the checkpoints of the run and its children. -/
structure Finished (m m' : Machine σ) : Prop extends Unmoved m m' where
  state : m'.state = m.state
  trace : ∃ es, m'.trace = m.trace ++ es ∧ ∀ e ∈ es, e.PlainOf m.run.id
  /-- No other run's checkpoint is touched. -/
  checkpoints : ∀ k, k ≠ m.run.id →
    (∀ kid ∈ (m.engine.children.get? m.run.id).getD [], k ≠ kid.1) →
    m'.engine.lastCheckpoints.get? k = m.engine.lastCheckpoints.get? k
  children : m'.engine.children = m.engine.children.erase m.run.id

/-- What a nested run did comes before its return on the trace. -/
theorem Finished.prefix_back {done fin : Machine σ} (h : Finished done fin) (caller : Machine σ)
    (outcome : LoopOutcome) : done.trace <+: (fin.backIn caller outcome).trace := by
  obtain ⟨es, htrace, _⟩ := h.trace
  have hfin : done.trace <+: fin.trace := htrace ▸ List.prefix_append _ _
  exact hfin.trans
    (((List.prefix_append _ _).trans (List.prefix_append _ _)).trans (List.prefix_append _ _))

def Enters (m c : Machine σ) : Prop := ∃ child state, Born m child ∧ c = m.entered child state

def Leaves (caller done after : Machine σ) : Prop :=
  ∃ finished outcome, Finished done finished ∧ after = finished.backIn caller outcome

/-- Everything a run of the loop can do. -/
abbrev Runs (sys : Outside σ) : Machine σ → Machine σ → Prop := Calls (Act sys) Enters Leaves

end MarloweAgent.Loop
