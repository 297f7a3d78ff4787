import MarloweAgent.Library.CallTree
import MarloweAgent.Loop.Drive
import MarloweAgent.Loop.Floor
import Mathlib.Data.Set.Basic

/-! What the engine changes, one thing at a time, together with what its environment
has heard the user say. A nested run is a call in a frame that attributes nothing.
Every function of the loop is an execution of these changes; those up to the batch and
the spawn are here, the stages of the loop come after. -/

namespace MarloweAgent.Loop
open Contract Library Tools Permission
open Stateful (each collect)

variable {σ α β : Type} {sys : Outside σ} {said : σ → Set String} {judging : Prop}

/-! ## An environment that hears the user -/

/-- `f` forgets nothing the user said. -/
abbrev Remembers (said : σ → Set String) (f : Stateful σ α) : Prop :=
  Stateful.Within (fun env env' => said env ⊆ said env') f

theorem Remembers.pure (a : α) : Remembers said (pure a : Stateful σ α) :=
  Stateful.Within.pure (fun env => Set.Subset.refl (said env)) a

theorem Remembers.bind {f : Stateful σ α} {g : α → Stateful σ β} (hf : Remembers said f)
    (hg : ∀ a, Remembers said (g a)) : Remembers said (f >>= g) :=
  Stateful.Within.bind (R := fun env env' => said env ⊆ said env')
    (fun _ _ _ h h' => h.trans h') hf hg

/-- No port forgets what the user said, and of a steer or an interruption that is handed
over the user said the text. -/
structure Hearing (said : σ → Set String) (ports : Ports σ) : Prop where
  call : ∀ view offered limits,
    Remembers said (ports.driver.callStreamingSplit view offered limits)
  failover : ∀ e, Remembers said (ports.driver.failover e)
  summarize : ∀ view, Remembers said (ports.summarize view)
  executeBatch : ∀ items, Remembers said (ports.executeBatch items)
  memory : ∀ remember, ports.memory = some remember →
    ∀ run session claim floor now, Remembers said (remember run session claim floor now)
  escalations : ∀ raise, ports.escalations = some raise →
    ∀ run route req, Remembers said (raise run route req)
  awaitApproval : ∀ radius, Remembers said (ports.approvals.awaitApproval radius)
  sink : ∀ event, Remembers said (ports.sink event)
  nowMs : Remembers said ports.nowMs
  append : ∀ now kind run session payload,
    Remembers said (ports.append now kind run session payload)
  takeSteer : ∀ run, Remembers said (ports.control.takeSteer run)
  steer : ∀ run env steer, ((ports.control.takeSteer run).run env).1 = some steer →
    steer.text ∈ said ((ports.control.takeSteer run).run env).2
  takeInterrupt : Remembers said ports.control.takeInterrupt
  interrupt : ∀ env text, (ports.control.takeInterrupt.run env).1 = some text →
    text ∈ said (ports.control.takeInterrupt.run env).2

namespace Hearing

variable {ports : Ports σ}

theorem quarantinedSink (h : Hearing said ports) (event : TurnEvent) :
    Remembers said (Loop.quarantinedSink ports.sink event) := by
  cases event with
  | textDelta | reasoningDelta | speechRetracted => exact .pure ()
  | _ => exact h.sink _

theorem forChild (h : Hearing said ports) : Hearing said ports.forChild :=
  { h with memory := nofun, sink := h.quarantinedSink }

/-- Nobody is heard in a reader. -/
theorem forReader (h : Hearing said ports) : Hearing said ports.forReader :=
  { h with
    memory := nofun
    escalations := nofun
    sink := h.quarantinedSink
    takeSteer := fun _ => .pure none
    steer := nofun
    takeInterrupt := .pure none
    interrupt := nofun }

end Hearing

/-- Any ports hear whatever there is. -/
theorem hearing_univ (ports : Ports σ) : Hearing (fun _ => Set.univ) ports := by
  constructor <;> intros <;> first | exact Set.mem_univ _ | exact fun _ => Set.subset_univ _

/-- Opening a path forgets nothing either. -/
def Outside.Remembers (said : σ → Set String) (sys : Outside σ) : Prop :=
  ∀ globs workspace value access, Loop.Remembers said (sys.scope.openPath globs workspace value access)

theorem remembers_openPaths (hsys : sys.Remembers said) (req : Request) (specs : List ParamSpec)
    (handles : OrderedMap String ScopedPath) :
    Remembers said (openPaths sys.scope req specs handles) := by
  induction specs generalizing handles with
  | nil => exact .pure _
  | cons spec rest ih =>
    simp only [openPaths]
    split
    · refine (hsys _ _ _ _).bind fun opened => ?_
      cases opened with
      | ok handle => exact ih _
      | error detail => exact .pure _
    · exact ih _

theorem remembers_adjudicate (hsys : sys.Remembers said) (id : Nat) (req : Request) :
    Remembers said (adjudicate sys.scope id req) := by
  unfold adjudicate
  dsimp only
  split
  · exact .pure _
  · split
    · exact .pure _
    · refine (remembers_openPaths hsys req _ _).bind fun opened => ?_
      cases opened with
      | error reason => exact .pure _
      | ok handles =>
        dsimp only
        split <;> exact .pure _

/-! ## Changes -/

def Effect.isJudgement : Effect → Bool
  | .adjudicated _ _ _ _ => true
  | _ => false

def Effect.isConsultation : Effect → Bool
  | .consulted _ _ => true
  | _ => false

/-- A reader about to read these sources. -/
structure Opened (sources : List PendingRead) (m : Machine σ) : Prop where
  profile : m.run.profile = .quarantinedReader
  contract : m.run.outputContract = readerContract sources.length
  window : ∃ session parent,
    m.state = readerWindow session parent sources (readerContract sources.length)
  steps : m.frame.locals.steps = 0
  retries : m.frame.locals.contractRetries = 0

/-- A reader of these sources was driven, all on this trace, and came to this answer. -/
def Answered (sys : Outside σ) (trace : List Effect) (sources : List PendingRead)
    (answer : ReaderAnswer) : Prop :=
  ∃ (n : Nat) (ports : Ports σ) (opened : Machine σ), Opened sources opened ∧
    ((nested sys n ports).run opened).2.trace <+: trace ∧
    answer = readerAnswer (readerContract sources.length) sources.length
      ((nested sys n ports).run opened).1

theorem Answered.mono {trace trace' : List Effect} {sources : List PendingRead}
    {answer : ReaderAnswer} (h : Answered sys trace sources answer) (hle : trace <+: trace') :
    Answered sys trace' sources answer := by
  obtain ⟨n, ports, opened, hopened, htrace, hanswer⟩ := h
  exact ⟨n, ports, opened, hopened, htrace.trans hle, hanswer⟩

/-- No skill is pushed. -/
def SessionOp.Skilless : SessionOp → Prop
  | .push b => b.source ≠ .skills
  | _ => True

/-- One change the engine makes to its machine. A call is judged only while `judging`. -/
inductive Change (sys : Outside σ) (said : σ → Set String) (judging : Prop) (m : Machine σ) :
    Machine σ → Prop
  | env (env : σ) (h : said m.env ⊆ said env) : Change sys said judging m (m.withEnv env)
  | heard (text : String) (h : text ∈ said m.env) :
    Change sys said judging m (m.withProvenance (m.frame.provenance.attributeUserMessage text))
  | note (e : Effect) (h : (e.isJudgement || e.isConsultation) = false) :
    Change sys said judging m (m.note e)
  | consulted (chunk : List PendingRead) :
    Change sys said judging m (m.note (.consulted m.run.id
      ((cacheHits sys m.engine.condensed chunk).map Prod.snd)))
  | judged (h : judging) (view : ContextView) (manifest : CapabilityManifest) (args : Args)
      (id : Nat) (env : σ) :
    Change sys said judging m (m.note (.adjudicated m.run m.frame.seen
      (requestFor m view manifest args)
      ((adjudicate sys.scope id (requestFor m view manifest args)).run env).1))
  | run (run : Run) (h : run.trustFloor ≤ m.run.trustFloor) : Change sys said judging m (m.withRun run)
  | aside (locals : Locals) (offered : ExposedSet) (answer : Option Answer) :
    Change sys said judging m { m with frame := { m.frame with locals, offered, answer } }
  | engine (engine : Engine) (h : engine.upwardShape = m.engine.upwardShape)
      (hcache : engine.condensed = m.engine.condensed) :
    Change sys said judging m (m.withEngine engine)
  | cached (sources : List PendingRead) (answer : ReaderAnswer)
      (h : Answered sys m.trace sources answer) :
    Change sys said judging m (m.withEngine
      { m.engine with condensed := cacheAnswer sys sources answer m.engine.condensed })
  | state (op : SessionOp) (h : op.Skilless) :
    Change sys said judging m (m.withState (m.state.apply op))
  | shown : Change sys said judging m
      { m with frame := { m.frame with seen := m.frame.seen ++ [m.state] } }
  | drawn (fresh : Nat) : Change sys said judging m { m with fresh }

/-- A frame no attribution has been made in, and in which no model was called. -/
def Opens (m c : Machine σ) : Prop :=
  ∃ frame : Frame, frame.provenance = .new ∧ frame.seen = [] ∧ c = { m with frame }

def Closes (m done m' : Machine σ) : Prop := m' = { done with frame := m.frame }

/-- Everything the engine changes on the way from one machine to another. -/
abbrev Goes (sys : Outside σ) (said : σ → Set String) (judging : Prop) :
    Machine σ → Machine σ → Prop :=
  Calls (Change sys said judging) Opens Closes

theorem goes_trans (m m' m'' : Machine σ) (h : Goes sys said judging m m')
    (h' : Goes sys said judging m' m'') : Goes sys said judging m m'' := h.trans h'

/-- What the user said is not forgotten. -/
theorem Goes.remembers {m m' : Machine σ} (h : Goes sys said judging m m') :
    said m.env ⊆ said m'.env := by
  refine Calls.relates (R := fun m m' => said m.env ⊆ said m'.env) (fun m => Set.Subset.refl _)
    (fun _ _ _ h h' => h.trans h') ?_ ?_ h
  · intro m m' hchange
    cases hchange with
    | env env h => exact h
    | _ => exact Set.Subset.refl _
  · rintro m c d m' ⟨frame, -, -, rfl⟩ hbody rfl
    exact hbody

/-- The trace only grows. -/
theorem Goes.trace {m m' : Machine σ} (h : Goes sys said judging m m') : m.trace <+: m'.trace := by
  refine Calls.relates (R := fun m m' : Machine σ => m.trace <+: m'.trace)
    (fun m => List.prefix_refl _) (fun _ _ _ h h' => h.trans h') ?_ ?_ h
  · intro m m' hchange
    cases hchange with
    | note | consulted | judged => exact List.prefix_append _ _
    | _ => exact List.prefix_refl _
  · rintro m c d m' ⟨frame, -, -, rfl⟩ hbody rfl
    exact hbody

/-- `f` makes no changes but these. -/
abbrev Changes (sys : Outside σ) (said : σ → Set String) (judging : Prop) (f : LoopM σ α) : Prop :=
  Stateful.Within (Goes sys said judging) f

/-- The same for a stage of the loop, however it ends. -/
abbrev StageChanges (sys : Outside σ) (said : σ → Set String) (judging : Prop) (f : StepM σ α) :
    Prop :=
  Fallible.Within (Goes sys said judging) f

section Rules

theorem Changes.of_change {f : LoopM σ α} (h : ∀ m, Change sys said judging m (f.run m).2) :
    Changes sys said judging f := fun m => .of_step (h m)

theorem Changes.pure (a : α) : Changes sys said judging (pure a : LoopM σ α) :=
  Stateful.Within.pure .refl a

theorem Changes.bind {f : LoopM σ α} {g : α → LoopM σ β} (hf : Changes sys said judging f)
    (hg : ∀ a, Changes sys said judging (g a)) : Changes sys said judging (f >>= g) :=
  Stateful.Within.bind goes_trans hf hg

theorem Changes.read {g : Machine σ → LoopM σ β} (h : ∀ m, Changes sys said judging (g m)) :
    Changes sys said judging (Stateful.read >>= g) :=
  Stateful.Within.read_bind fun m => h m m

theorem Changes.each {body : α → LoopM σ Unit} (h : ∀ a, Changes sys said judging (body a))
    (items : List α) : Changes sys said judging (Stateful.each body items) :=
  Stateful.Within.each .refl goes_trans h items

theorem Changes.collect {body : α → LoopM σ β} (h : ∀ a, Changes sys said judging (body a))
    (items : List α) : Changes sys said judging (Stateful.collect body items) := by
  induction items with
  | nil => exact .pure _
  | cons a rest ih => exact (h a).bind fun _ => ih.bind fun _ => .pure _

theorem StageChanges.pure (a : α) : StageChanges sys said judging (pure a : StepM σ α) :=
  Fallible.Within.pure .refl a

theorem StageChanges.bind {f : StepM σ α} {g : α → StepM σ β} (hf : StageChanges sys said judging f)
    (hg : ∀ a, StageChanges sys said judging (g a)) : StageChanges sys said judging (f >>= g) :=
  Fallible.Within.bind goes_trans hf hg

theorem StageChanges.read {g : Machine σ → StepM σ β}
    (h : ∀ m, StageChanges sys said judging (g m)) :
    StageChanges sys said judging (Fallible.read >>= g) :=
  Fallible.Within.read_bind fun m => h m m

theorem StageChanges.lift {f : LoopM σ α} (h : Changes sys said judging f) :
    StageChanges sys said judging (Fallible.lift f) :=
  Fallible.Within.lift h

theorem StageChanges.again : StageChanges sys said judging (again : StepM σ α) :=
  Fallible.Within.fail .refl _

theorem StageChanges.stopWith {f : LoopM σ LoopOutcome} (h : Changes sys said judging f) :
    StageChanges sys said judging (stopWith f : StepM σ α) :=
  .bind (.lift h) fun _ => Fallible.Within.fail .refl _

end Rules

/-! ## Primitive steps -/

section Primitive

theorem changes_port {f : Stateful σ α} (h : Remembers said f) :
    Changes sys said judging (port f) := .of_change fun m => .env _ (h m.env)

theorem changes_note (e : Effect) (h : (e.isJudgement || e.isConsultation) = false) :
    Changes sys said judging (note e : LoopM σ Unit) := .of_change fun _ => .note e h

theorem changes_uses (tools : List ToolId) : Changes sys said judging (uses tools : LoopM σ Unit) :=
  .of_change fun _ => .note _ rfl

theorem changes_setRun (f : Run → Run) (h : ∀ run, (f run).trustFloor = run.trustFloor) :
    Changes sys said judging (setRun f : LoopM σ Unit) := .of_change fun m => .run _ (h m.run).le

theorem changes_setStatus (status : RunStatus) :
    Changes sys said judging (setStatus status : LoopM σ Unit) := changes_setRun _ fun _ => rfl

theorem changes_setLocals (f : Locals → Locals) :
    Changes sys said judging (setLocals f : LoopM σ Unit) :=
  .of_change fun m => .aside _ m.frame.offered m.frame.answer

theorem changes_setEngine (f : Engine → Engine) (h : ∀ e, (f e).upwardShape = e.upwardShape)
    (hcache : ∀ e, (f e).condensed = e.condensed) :
    Changes sys said judging (setEngine f : LoopM σ Unit) :=
  .of_change fun m => .engine _ (h m.engine) (hcache m.engine)

theorem changes_takeCallId : Changes sys said judging (takeCallId : LoopM σ Nat) :=
  .of_change fun _ => .engine _ rfl rfl

theorem changes_newId : Changes sys said judging (newId : LoopM σ Nat) :=
  .of_change fun _ => .drawn _

theorem changes_pushBlock (b : Block) (h : b.source ≠ .skills) :
    Changes sys said judging (pushBlock b : LoopM σ Unit) := .of_change fun _ => .state (.push b) h

theorem changes_pushNote (text : String) :
    Changes sys said judging (pushNote text : LoopM σ Unit) := changes_pushBlock _ nofun

theorem changes_toolError (tool : ToolId) (why callRef : String) :
    Changes sys said judging (toolError tool why callRef : LoopM σ Unit) :=
  changes_pushBlock _ nofun

theorem changes_charge (amount : Budget) :
    Changes sys said judging (charge amount : LoopM σ Unit) := fun m =>
  .step (.of_step (.run { m.run with spent := m.run.spent.add amount } le_rfl)) (.note _ rfl)

/-- A step is taken: the frame has its answer, and the trace says so. -/
theorem changes_takes (step : ModelStep) :
    Changes sys said judging (takes step : LoopM σ Unit) := fun m =>
  .step (.of_step (.aside m.frame.locals m.frame.offered (some ⟨m.run, m.frame.offered, step⟩)))
    (.note (.took ⟨m.run, m.frame.offered, step⟩) rfl)

variable {ports : Ports σ}

theorem changes_emit (hp : Hearing said ports) (event : TurnEvent) :
    Changes sys said judging (emit ports event) :=
  .read fun _ => (changes_note _ rfl).bind fun _ => changes_port (hp.sink event)

theorem changes_record (hp : Hearing said ports) (kind : EventLog.EventKind) (payload : Payload) :
    Changes sys said judging (record ports kind payload) := by
  refine (changes_port hp.nowMs).bind fun now => .read fun m =>
    (changes_port (hp.append _ _ _ _ _)).bind fun answer => (changes_note _ rfl).bind fun _ => ?_
  cases answer with
  | ok seq => exact .pure _
  | error e => exact (changes_emit hp _).bind fun _ => .pure _

theorem changes_writeCheckpoint (hp : Hearing said ports) (step contractRetries : Nat) :
    Changes sys said judging (writeCheckpoint ports step contractRetries) :=
  .read fun _ => (changes_record hp _ _).bind fun _ =>
    (changes_setEngine _ (by intro _; rfl) (by intro _; rfl)).bind fun _ =>
      changes_setRun _ (by intro _; rfl)

theorem changes_pause (hp : Hearing said ports) (dimension : String) :
    Changes sys said judging (pause ports dimension) :=
  .read fun _ => (changes_record hp _ _).bind fun _ => (changes_emit hp _).bind fun _ =>
    (changes_setStatus _).bind fun _ => .pure _

theorem changes_fail (hp : Hearing said ports) (error : String) :
    Changes sys said judging (fail ports error) :=
  (changes_record hp _ _).bind fun _ => (changes_setStatus _).bind fun _ => .pure _

end Primitive

/-! ## Runs within runs -/

/-- A nested drive of the engine: however it hears the user, it makes no changes but these. -/
structure SubChanges (sys : Outside σ) (said : σ → Set String) (sub : SubRun σ) : Prop where
  nested : ∃ n, sub = nested sys n
  changes : ∀ ports : Ports σ, Hearing said ports → Changes sys said True (sub ports)

section Children

variable {ports : Ports σ} {sub : SubRun σ}

theorem changes_runChild (hsub : SubChanges sys said sub) (hp : Hearing said ports) (child : Run)
    (state : SessionState) : Changes sys said True (runChild sub ports child state) := by
  refine .read fun m => (changes_note _ rfl).bind fun _ => Changes.bind ?_ fun _ =>
    (changes_note _ rfl).bind fun _ => (changes_charge _).bind fun _ =>
      (changes_charge _).bind fun _ => .pure _
  intro m₁
  exact .of_call ⟨_, rfl, rfl, rfl⟩ (hsub.changes ports hp _) rfl

/-! ### Quarantined reads -/

theorem changes_pushBlocks (blocks : List Block) (h : ∀ b ∈ blocks, b.source ≠ .skills) :
    Changes sys said judging (each pushBlock blocks : LoopM σ Unit) := by
  induction blocks with
  | nil => exact .pure ()
  | cons b rest ih =>
    exact (changes_pushBlock b (h b List.mem_cons_self)).bind fun _ =>
      ih fun b' hb => h b' (List.mem_cons_of_mem _ hb)

theorem answeredNotes_skilless (answer : ReaderAnswer) (i k : Nat)
    (hits : List (PendingRead × Option String)) :
    ∀ b ∈ answeredNotes answer i k hits, b.source ≠ .skills := by
  induction hits generalizing i k with
  | nil => exact fun b hb => by cases hb
  | cons hit rest ih =>
    obtain ⟨p, _ | cached⟩ := hit <;>
      exact List.forall_mem_cons.mpr ⟨nofun, ih _ _⟩

theorem changes_recordReaderFailure (hp : Hearing said ports) (child : RunId)
    (contract : OutputContract) (outcome : LoopOutcome) :
    Changes sys said judging (recordReaderFailure ports child contract outcome) := by
  cases outcome with
  | completed result =>
    unfold recordReaderFailure
    dsimp only
    split
    · exact .pure _
    · exact (changes_record hp _ _).bind fun _ => .pure _
  | _ => exact (changes_record hp _ _).bind fun _ => .pure _

theorem changes_readSources (hsub : SubChanges sys said sub) (hp : Hearing said ports)
    (childBudget : Budget) (fresh : List PendingRead) :
    Changes sys said True (readSources ports sub childBudget fresh) :=
  changes_newId.bind fun _ => changes_newId.bind fun _ => .read fun _ =>
    (changes_record hp _ _).bind fun _ => changes_takeCallId.bind fun _ =>
      (changes_emit hp _).bind fun _ => (changes_runChild hsub hp.forReader _ _).bind fun _ =>
        (changes_recordReaderFailure hp _ _ _).bind fun _ => (changes_emit hp _).bind fun _ =>
          .pure _

theorem runChild_answered {n : Nat} {sources : List PendingRead} {child : Run}
    {window : SessionState} (profile : child.profile = .quarantinedReader)
    (contract : child.outputContract = readerContract sources.length)
    (opened : ∃ session parent,
      window = readerWindow session parent sources (readerContract sources.length))
    (ports : Ports σ) :
    Stateful.Triple (fun _ => True) (runChild (nested sys n) ports child window)
      fun ended m => Answered sys m.trace sources
        (readerAnswer (readerContract sources.length) sources.length ended.1) := by
  intro m _
  let frame : Frame :=
    { run := child, state := window, provenance := .new
      locals := { steps := 0, contractRetries := 0 }
      ancestors := m.run :: m.frame.ancestors, seen := [] }
  refine ⟨n, ports, { m.note (.spawned m.frame.ancestors m.run child) with frame },
    ⟨profile, contract, opened, rfl, rfl⟩, ?_, rfl⟩
  -- the return and the two charges come after it
  exact ((List.prefix_append _ _).trans (List.prefix_append _ _)).trans (List.prefix_append _ _)

/-- What the sources are said to hold is what a reader of them came to. -/
theorem readSources_answered (hsub : SubChanges sys said sub) (hp : Hearing said ports)
    (childBudget : Budget) (sources : List PendingRead) :
    Stateful.Triple (fun _ => True) (readSources ports sub childBudget sources)
      fun answer m => Answered sys m.trace sources answer := by
  have hkeep {β : Type} {f : LoopM σ β} (h : Changes sys said True f) (answer : ReaderAnswer) :
      Stateful.Triple (fun m : Machine σ => Answered sys m.trace sources answer) f
        fun _ m => Answered sys m.trace sources answer :=
    h.triple fun _ _ hgoes hanswered => hanswered.mono hgoes.trace
  obtain ⟨n, rfl⟩ := hsub.nested
  exact .bind_right fun childId => .bind_right fun session => .bind_right fun m =>
    .bind_right fun _ => .bind_right fun line => .bind_right fun _ =>
      .bind (runChild_answered rfl rfl ⟨session, m.state, rfl⟩ ports.forReader) fun ended =>
        .bind (hkeep (changes_recordReaderFailure hp _ _ _) _) fun _ =>
          .bind (hkeep (changes_emit hp _) _) fun _ => .pure fun _ h => h

theorem changes_condenseChunk (hsub : SubChanges sys said sub) (hp : Hearing said ports)
    (chunk : List PendingRead) : Changes sys said True (condenseChunk sys ports sub chunk) := by
  intro m
  let hits := cacheHits sys m.engine.condensed chunk
  let asked := m.note (.consulted m.run.id (hits.map Prod.snd))
  have hasked : Goes sys said True m asked := .of_step (.consulted chunk)
  refine hasked.trans ?_
  unfold condenseChunk
  simp only [Stateful.run_bind, Stateful.run_read]
  show Goes sys said True asked ((if (freshReads hits).isEmpty then _ else _ : LoopM σ Unit).run asked).2
  split
  · exact changes_pushBlocks _ (answeredNotes_skilless _ _ _ _) _
  cases m.run.budget.sliceForQuarantinedRead m.run.spent with
  | none =>
    refine changes_pushBlocks _ (fun b hb => ?_) _
    obtain ⟨p, -, rfl⟩ := List.mem_map.mp hb
    intro hskills
    cases hskills
  | some childBudget =>
    have hread := changes_readSources hsub hp childBudget (freshReads hits) asked
    have hanswered := readSources_answered hsub hp childBudget (freshReads hits) asked trivial
    refine (hread.step (.cached _ _ hanswered)).trans ?_
    exact changes_pushBlocks _ (answeredNotes_skilless _ _ _ _) _

theorem changes_condenseBatch (hsub : SubChanges sys said sub) (hp : Hearing said ports)
    (pending : List PendingRead) : Changes sys said True (condenseBatch sys ports sub pending) :=
  .each (changes_condenseChunk hsub hp) _

/-! ### One call -/

/-- A call is judged by the request made for it from the machine it is judged on. -/
theorem adjudicateCall_goes (hsys : sys.Remembers said) (hp : Hearing said ports)
    (view : ContextView) (manifest : CapabilityManifest) (args : Args) (m : Machine σ) :
    Goes sys said True m
      ((adjudicateCall sys ports (requestFor m view manifest args)).run m).2 := by
  let req := requestFor m view manifest args
  let counted := m.withEngine { m.engine with nextDecision := m.engine.nextDecision + 1 }
  let judged := (adjudicate sys.scope m.engine.nextDecision req).run m.env
  have hcounted : Goes sys said True m counted := .of_step (.engine _ rfl rfl)
  have hheard : Change sys said True counted (counted.withEnv judged.2) :=
    .env _ (remembers_adjudicate hsys _ req m.env)
  have hjudged : Change sys said True (counted.withEnv judged.2)
      ((counted.withEnv judged.2).note (.adjudicated m.run m.frame.seen req judged.1)) :=
    .judged trivial view manifest args m.engine.nextDecision m.env
  refine ((hcounted.step hheard).step hjudged).trans ?_
  exact (changes_record hp .permissionDecided (.decision judged.1.decision)).bind
    (fun _ => .pure judged.1) _

theorem changes_takeApproval (hp : Hearing said ports) (adjudication : Adjudication)
    (granted : Bool) : Changes sys said judging (takeApproval ports adjudication granted) := by
  refine .read fun m => (changes_note _ rfl).bind fun _ => ?_
  split
  · exact (changes_setRun _ (by intro _; rfl)).bind fun _ => (changes_record hp _ _).bind fun _ =>
      .pure _
  · exact (changes_record hp _ _).bind fun _ => .pure _

theorem changes_askApproval (hp : Hearing said ports) (tool : ToolId) (adjudication : Adjudication) :
    Changes sys said judging (askApproval ports tool adjudication) :=
  (changes_record hp _ _).bind fun _ => (changes_emit hp _).bind fun _ =>
    (changes_port (hp.awaitApproval _)).bind fun _ => changes_takeApproval hp _ _

theorem changes_readyCall (hp : Hearing said ports) (callId : Nat) (call : ToolInvocation)
    (args : Args) (adjudication : Adjudication) :
    Changes sys said judging (readyCall ports callId call args adjudication) :=
  (changes_emit hp _).bind fun _ => .pure _

theorem changes_settleCall (hp : Hearing said ports) (callId : Nat) (call : ToolInvocation)
    (args : Args) (adjudication : Adjudication) :
    Changes sys said judging (settleCall ports callId call args adjudication) := by
  unfold settleCall
  cases adjudication.decision.outcome with
  | blocked reason =>
    refine Changes.bind ?_ fun _ => .read fun _ => (changes_emit hp _).bind fun _ => .pure _
    cases reason with
    | egressNotAllowed => exact (changes_record hp _ _).bind fun _ => .pure _
    | _ => exact .pure _
  | allowed | allowedBatched => exact changes_readyCall hp _ _ _ _
  | needsApproval tier =>
    refine (changes_askApproval hp _ _).bind fun granted => ?_
    split
    · exact changes_readyCall hp _ _ _ _
    · exact .read fun _ => (changes_emit hp _).bind fun _ => .pure _

theorem changes_prepareCall (hsys : sys.Remembers said) (hp : Hearing said ports)
    (view : ContextView) (call : ToolInvocation) :
    Changes sys said True (prepareCall sys ports view call) := by
  refine changes_takeCallId.bind fun callId => (changes_record hp _ _).bind fun _ m => ?_
  rw [Stateful.run_bind, Stateful.run_read]
  dsimp only
  cases m.engine.registry.manifest call.tool with
  | none => exact .refl m
  | some manifest =>
    exact (adjudicateCall_goes hsys hp view manifest call.args m).trans
      (changes_settleCall hp _ _ _ _ _)

/-! ### A batch -/

theorem changes_foldResults (hp : Hearing said ports) (prepared : List Prepared)
    (outcomes : List ToolOutcome) :
    Changes sys said judging (foldResults ports prepared outcomes) := by
  induction prepared generalizing outcomes with
  | nil => exact .pure _
  | cons p rest ih =>
    cases p with
    | refused tool why callRef => exact (changes_toolError _ _ _).bind fun _ => ih _
    | ready call =>
      cases outcomes with
      | nil => exact ih _
      | cons outcome outcomes =>
        have hfinish : Changes sys said judging (finishCall ports call outcome) := by
          refine (changes_record hp _ _).bind fun _ => (changes_emit hp _).bind fun _ => ?_
          split
          · exact .pure _
          · exact (changes_pushBlock _ fun h => by cases h).bind fun _ => .pure _
        exact hfinish.bind fun _ => (ih _).bind fun _ => .pure _

theorem changes_executeItems (hp : Hearing said ports) (items : List BatchItem) :
    Changes sys said judging (executeItems ports items) := by
  have hcall : Changes sys said judging (callHost ports items) := by
    unfold callHost
    split
    · exact .pure _
    · exact (changes_uses _).bind fun _ => .read fun _ => (changes_note _ rfl).bind fun _ =>
        changes_port (hp.executeBatch items)
  exact (changes_port hp.nowMs).bind fun _ => hcall.bind fun _ =>
    (changes_port hp.nowMs).bind fun _ => (changes_charge _).bind fun _ => .pure _

theorem changes_runGroup (hsys : sys.Remembers said) (hsub : SubChanges sys said sub)
    (hp : Hearing said ports) (view : ContextView) (calls : List ToolInvocation) :
    Changes sys said True (runGroup sys ports sub view calls) :=
  .read fun _ => (changes_note _ rfl).bind fun _ =>
    (Changes.collect (changes_prepareCall hsys hp view) calls).bind fun _ =>
      (changes_executeItems hp _).bind fun _ => (changes_note _ rfl).bind fun _ =>
        (changes_foldResults hp _ _).bind fun _ => changes_condenseBatch hsub hp _

theorem changes_toolBatch (hsys : sys.Remembers said) (hsub : SubChanges sys said sub)
    (hp : Hearing said ports) (view : ContextView) (calls : List ToolInvocation)
    (reasoning : String) :
    Changes sys said True (toolBatch sys ports sub view calls reasoning) := by
  unfold toolBatch
  split
  · exact .pure _
  · exact (changes_pushBlock _ fun h => by cases h).bind fun _ => .read fun _ =>
      .each (changes_runGroup hsys hsub hp view) _

/-! ### Spawns -/

theorem changes_recordChildEnd (hp : Hearing said ports) (child : RunId) (outcome : LoopOutcome) :
    Changes sys said judging (recordChildEnd ports child outcome) := by
  cases outcome with
  | escalated | failed => exact (changes_record hp _ _).bind fun _ => .pure _
  | _ => exact .pure _

theorem changes_validatedHeadline (hsub : SubChanges sys said sub) (hp : Hearing said ports)
    (prose : String) : Changes sys said True (validatedHeadline ports sub prose) := by
  refine .read fun m => ?_
  split
  · exact .pure _
  · split
    · exact .pure _
    · refine changes_newId.bind fun _ => changes_newId.bind fun _ =>
        (changes_record hp _ _).bind fun _ =>
          (changes_runChild hsub hp.forReader _ _).bind fun answered => ?_
      obtain ⟨outcome, frame⟩ := answered
      cases outcome with
      | completed result =>
        dsimp only
        split <;> exact .pure _
      | _ => exact .pure _

theorem changes_upwardNote (hsub : SubChanges sys said sub) (hp : Hearing said ports)
    (completed : Bool) (prose : Option String) (typed : String) :
    Changes sys said True (upwardNote ports sub completed prose typed) := by
  refine .read fun m => ?_
  split
  · exact .pure _
  · split
    · exact .pure _
    · refine (changes_validatedHeadline hsub hp _).bind fun headline => ?_
      cases headline <;> exact .pure _
  · exact .pure _

theorem changes_spawn (hsub : SubChanges sys said sub) (hp : Hearing said ports)
    (req : SpawnRequest) : Changes sys said True (spawn sys ports sub req) := by
  refine .read fun m => ?_
  split
  · exact changes_takeCallId.bind fun _ => (changes_emit hp _).bind fun _ => changes_toolError _ _ _
  · exact (changes_uses _).bind fun _ => changes_newId.bind fun _ => changes_newId.bind fun _ =>
      .read fun _ => (changes_record hp _ _).bind fun _ =>
        (changes_setEngine _ (by intro _; rfl) (by intro _; rfl)).bind fun _ =>
          (changes_pushNote _).bind fun _ => changes_takeCallId.bind fun _ =>
            (changes_pushBlock _ fun h => by cases h).bind fun _ => (changes_emit hp _).bind fun _ =>
              (changes_runChild hsub hp.forChild _ _).bind fun _ =>
                (changes_recordChildEnd hp _ _).bind fun _ =>
                  (changes_upwardNote hsub hp _ _ _).bind fun _ =>
                    (changes_emit hp _).bind fun _ => changes_pushBlock _ fun h => by cases h

end Children

end MarloweAgent.Loop
