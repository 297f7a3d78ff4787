import MarloweAgent.Loop.Floor
import MarloweAgent.Loop.Mediation

/-! Every stage of the loop is an execution of the transition system, and so is the
loop, to any depth of nested runs. -/

namespace MarloweAgent.Loop
open Contract Library Tools Permission
open Fallible (lift)

variable {σ α : Type} {sys : Outside σ} {n : Nat}

/-! ## The context -/

/-- Compaction is one step, and a notice on the screen. -/
theorem steps_compactSession (ports : Ports σ) (view : ContextView) :
    Steps sys n (compactSession ports view) := by
  intro m
  let summarized := (ports.summarize view).run m.env
  let m₀ := m.withEnv summarized.2
  obtain ⟨env₁, first, notice₁, hrun₁, hnotice₁⟩ :=
    record_run ports .sessionSummarized (.summarized summarized.1.utf8ByteSize) m₀
  let child := max m.fresh (m.run.id + 1)
  let m₂ : Machine σ :=
    { m with
      env := env₁, fresh := child + 1
      trace := m.trace ++ .recorded m.run.id m.state.session .sessionSummarized
        (.summarized summarized.1.utf8ByteSize) first :: notice₁ }
  obtain ⟨env₃, second, notice₃, hrun₃, hnotice₃⟩ :=
    record_run ports .sessionSpawned (.sessionSpawned m.state.session child) m₂
  let compacted := m.engine.assembler.compact m.state child summarized.1 m.engine.cache
  let m₅ : Machine σ :=
    { engine := { m.engine with assembler := compacted.1, cache := compacted.2.2 }
      frame := { m.frame with state := compacted.2.1, run := { m.run with session := child } }
      env := env₃, fresh := child + 1
      trace := (m₂.trace ++ .recorded m.run.id m.state.session .sessionSpawned
        (.sessionSpawned m.state.session child) second :: notice₃) ++
          [.compacted m.run.id m.state compacted.2.1] }
  have hact : Act sys m m₅ := by
    refine .compaction child summarized.1 (.summarized summarized.1.utf8ByteSize)
      (.sessionSpawned m.state.session child) first second notice₁ notice₃
      ⟨⟨m.run.status, child, m.run.lastCheckpoint, rfl⟩, rfl, ?_, rfl⟩ (plain_of_notice hnotice₁)
      (plain_of_notice hnotice₃)
      rfl rfl rfl rfl rfl rfl rfl ?_
    · change m.fresh ≤ max m.fresh (m.run.id + 1) + 1
      omega
    · simp [m₅, m₂, compactionEffects]
  refine Reach.trans m m₅ _ (.of_act hact rfl rfl) ?_
  have hinto : ((compactSession ports view).run m).2 =
      ((compactInto ports summarized.1).run
        ((record ports .sessionSummarized (.summarized summarized.1.utf8ByteSize)).run m₀).2).2 := rfl
  have hreplace : ((compactInto ports summarized.1).run
        { m₀ with
          env := env₁
          trace := m₀.trace ++ .recorded m₀.run.id m₀.state.session .sessionSummarized
            (.summarized summarized.1.utf8ByteSize) first :: notice₁ }).2 =
      ((replaceVolatile ports child summarized.1).run
        ((record ports .sessionSpawned (.sessionSpawned m.state.session child)).run m₂).2).2 := rfl
  rw [hinto, hrun₁, hreplace, hrun₃]
  have hlast : ((replaceVolatile ports child summarized.1).run
        { m₂ with
          env := env₃
          trace := m₂.trace ++ .recorded m₂.run.id m₂.state.session .sessionSpawned
            (.sessionSpawned m.state.session child) second :: notice₃ }).2 =
      ((emit ports (.compacted compacted.2.1.compactions)).run m₅).2 := rfl
  rw [hlast]
  exact (tells_emit _ _).steps m₅

theorem stages_assembleView (ports : Ports σ) : Stages sys n (assembleView sys ports) := by
  intro m
  unfold assembleView
  rw [Fallible.read_bind_run]
  dsimp only
  split
  · refine Stages.bind (.lift (steps_compactSession _ _)) (fun _ => .read fun _ => ?_) m
    split
    · exact .stopWith (tells_fail _ _).steps
    · exact .again
  split
  · rw [Fallible.lift_bind_run]
    refine Reach.trans m (m.withState (Assembler.clearToolResults m.state keepToolResults).1) _
      (.of_act (.clear m keepToolResults) rfl rfl) ?_
    split
    · exact Stages.again _
    · exact Stages.pure _ _
  · exact Stages.pure _ m

/-- The view bounds the state it is sent from. -/
theorem assembleView_bounds (ports : Ports σ) (m m' : Machine σ) (view : ContextView)
    (h : (assembleView sys ports).run m = (.ok view, m')) :
    view.stable ≠ [] ∧ Bounds view.trustFloor m'.state.sources := by
  have hassembled :
      Bounds (m.engine.assembler.assemble m.state).trustFloor m.state.sources := by
    rw [assemble_trustFloor]
    exact m.state.trustFloor_le
  have hstable : (m.engine.assembler.assemble m.state).stable ≠ [] := by
    simp [Assembler.assemble, SessionState.stableBlocks]
  unfold assembleView at h
  rw [Fallible.read_bind_run] at h
  dsimp only at h
  split at h
  · -- a compaction ends the iteration
    rw [Fallible.lift_bind_run, Fallible.read_bind_run] at h
    split at h <;> cases h
  split at h
  · rw [Fallible.lift_bind_run] at h
    split at h
    · cases h
    · cases h
      exact ⟨hstable, (bounds_clearToolResults _ _ _).mpr hassembled⟩
  · cases h
    exact ⟨hstable, hassembled⟩

/-! ## The model call -/

theorem attachThinking_trust (reasoning : String) (blocks : List Block) :
    (attachThinking reasoning blocks).map Block.trust = blocks.map Block.trust := by
  induction blocks with
  | nil => rfl
  | cons b rest ih =>
    simp only [attachThinking]
    split
    · rw [List.map_cons, ih, List.map_cons]
    · split <;> rfl

theorem bounds_of_sentView {t : TrustClass} {view : ContextView} {nudge reasoning : String}
    (h : Bounds t (sentView view nudge reasoning).blocks) : Bounds t view.blocks := by
  have hthinking : ∀ blocks : List Block,
      Bounds t (attachThinking reasoning blocks) ↔ Bounds t blocks := by
    intro blocks
    rw [Bounds, Bounds, ← List.forall_mem_map (P := (t ≤ ·)), attachThinking_trust,
      List.forall_mem_map]
  unfold sentView ContextView.blocks at h
  rw [ContextView.blocks, bounds_append]
  refine ⟨(bounds_append.mp h).1, ?_⟩
  have hvolatile := (bounds_append.mp h).2
  dsimp only at hvolatile
  split at hvolatile
  · split at hvolatile
    · exact hvolatile
    · exact (bounds_append.mp hvolatile).1
  · rw [hthinking] at hvolatile
    split at hvolatile
    · exact hvolatile
    · exact (bounds_append.mp hvolatile).1

/-- What is added to a view on the way out does not raise its floor. -/
theorem sentView_trustFloor (view : ContextView) (nudge reasoning : String)
    (h : view.stable ≠ []) : (sentView view nudge reasoning).trustFloor ≤ view.trustFloor := by
  have hsent : (sentView view nudge reasoning).blocks ≠ [] := by
    simp [ContextView.blocks, sentView, h]
  refine (le_floorOf_iff ?_).mpr (bounds_of_sentView ((le_floorOf_iff hsent).mp (le_refl _)))
  simp [ContextView.blocks, h]

theorem steps_showStream (ports : Ports σ) (chunks : List StreamChunk) :
    Tells (showStream ports chunks) := by
  induction chunks with
  | nil => exact .pure _
  | cons chunk rest ih => exact (tells_emit _ _).bind fun _ => ih.bind fun _ => .pure _

/-- Latching lowers the floor to the view's. -/
theorem latchFloor_told (ports : Ports σ) (view : ContextView) (m : Machine σ) :
    ∃ es, Told (m.withRun (m.run.latchTrustFloor view.trustFloor).1)
      ((latchFloor ports view).run m).2 es := by
  unfold latchFloor
  rw [Stateful.run_bind, Stateful.run_bind]
  split
  · exact Tells.pure () (m.withRun (m.run.latchTrustFloor view.trustFloor).1)
  · rename_i floor _
    have hafter : Tells (do
        let _ ← record ports .trustFloorLatched (.trustFloor floor (blocksComposedTargets floor))
        if blocksComposedTargets floor && !m.run.profile.readsUntrusted then
          emit ports (.degraded .trustFloorLatched)
        else pure ()) := by
      refine (tells_record _ _ _ (by decide)).bind fun _ => ?_
      split
      · exact tells_emit _ _
      · exact .pure _
    exact hafter (m.withRun (m.run.latchTrustFloor view.trustFloor).1)

/-- **The model is called under a floor no better than anything it is shown.** -/
theorem callModel_reach (ports : Ports σ) (view : ContextView) (m : Machine σ)
    (h : Bounds view.trustFloor m.state.sources) :
    Reach sys n m ((callModel ports view).run m).2 := by
  let latched := ((latchFloor ports view).run m).2
  obtain ⟨es, htold⟩ := latchFloor_told ports view m
  have hlatched : Reach sys n m latched :=
    Reach.trans _ _ _ (.of_act (.latch m view.trustFloor) rfl rfl) (.of_told ⟨es, htold⟩)
  have hfloor : latched.run.trustFloor ≤ view.trustFloor := by
    obtain ⟨_, _, _, hrun⟩ := htold.run
    rw [hrun]
    change (m.run.latchTrustFloor view.trustFloor).1.trustFloor ≤ _
    rw [Run.latchTrustFloor_floor]
    exact min_le_right _ _
  have hstate : latched.state = m.state := htold.state
  let limits := latched.run.budget.callLimits latched.run.spent latched.run.profile.modelRoute
  let offered := if farmingHardStop ≤ latched.frame.locals.toolCallsThisTurn then ExposedSet.empty
    else latched.run.profile.exposedTools
  have hoffered : offered = .empty ∨ offered = latched.run.profile.exposedTools :=
    ite_eq_or_eq _ _ _
  have hcall : Act sys latched _ := .call latched view offered limits
    (fun b hb => hfloor.trans (h b (hstate ▸ hb))) hoffered
  refine hlatched.trans _ _ _ (Reach.trans _ _ _ (.of_act hcall rfl rfl) ?_)
  exact ((tells_port (ports.driver.callStreamingSplit view offered limits)).steps.bind fun answered =>
    (steps_showStream ports answered.1).steps.bind fun _ => .pure _) _

theorem callWith_reach (ports : Ports σ) (view : ContextView) (m : Machine σ)
    (hstable : view.stable ≠ []) (h : Bounds view.trustFloor m.state.sources) :
    Reach sys n m ((callWith ports view).run m).2 := by
  let sent := sentView view m.frame.locals.pendingNudge m.frame.locals.lastReasoning
  let quieted := m.withLocals { m.frame.locals with pendingNudge := "" }
  refine Reach.trans m quieted _ (.of_told ⟨_, .withLocals m _ rfl rfl⟩) ?_
  have hsent : Bounds sent.trustFloor quieted.state.sources := fun b hb =>
    (sentView_trustFloor view _ _ hstable).trans (h b hb)
  exact (callModel_reach ports sent quieted hsent).trans _ _ _ (Reach.refl _)

theorem stages_takeAnswer (ports : Ports σ) (answer : Except ProviderError ModelCall) :
    Stages sys n (takeAnswer ports answer) := by
  cases answer with
  | ok call =>
    intro m
    refine Reach.trans _ _ _ (.of_act (.answer m call.usage) rfl rfl) ?_
    exact ((tells_record ports .modelStep _ (by decide)).steps.bind fun _ => .pure call.step) _
  | error e =>
    have hfailover : Tells (tryFailover ports e) := by
      unfold tryFailover
      split
      · exact tells_port _
      · exact .pure _
    refine .bind (.lift hfailover.steps) fun failedOver => ?_
    split
    · exact .bind (.lift (tells_record _ _ _ (by decide)).steps) fun _ =>
        .bind (.lift (tells_emit _ _).steps) fun _ => .again
    · exact .stopWith (tells_fail _ _).steps

theorem steps_userTurn (tag text : String) : Steps sys n (userTurn tag text : LoopM σ Unit) := by
  intro m
  refine Reach.trans m (m.withProvenance (m.frame.provenance.attributeUserMessage text)) _
    (.of_told ⟨_, .withProvenance m _⟩) ?_
  exact steps_pushBlock _ rfl _

theorem stages_takeInterrupt (ports : Ports σ) : Stages sys n (takeInterrupt ports) := by
  refine .read fun m => ?_
  split
  · refine .bind (.lift (tells_port _).steps) fun spoken => ?_
    cases spoken with
    | none => exact .pure _
    | some text =>
      exact .bind (.lift (tells_record _ _ _ (by decide)).steps) fun _ =>
        .bind (.lift (steps_userTurn _ _)) fun _ => .again
  · exact .pure _

theorem stages_retryEmptyTurn (ports : Ports σ) (step : ModelStep) :
    Stages sys n (retryEmptyTurn ports step) := by
  refine .read fun m => ?_
  split
  · split
    · refine .bind (.lift (tells_setLocals _ ?_ ?_).steps) fun _ => .again
      · exact fun _ => rfl
      · exact fun _ => rfl
    · exact .stopWith (tells_fail _ _).steps
  · exact .lift (tells_setLocals _ (by intro _; rfl) (by intro _; rfl)).steps

theorem steps_countToolTurn (step : ModelStep) :
    Steps sys n (countToolTurn step : LoopM σ Unit) := by
  unfold countToolTurn
  split
  · exact (tells_setLocals _ (by intro _; rfl) (by intro _; rfl)).steps
  · exact .pure _

/-! ## What the model asked for -/

/-- A violation within the retry bound is tolerated; one beyond it ends the run. -/
theorem stages_retryContract (ports : Ports σ) (violation : ContractViolation) :
    Stages sys n (retryContract ports violation) := by
  intro m
  unfold retryContract
  rw [Fallible.read_bind_run]
  dsimp only
  split
  · refine Stages.stopWith ?_ m
    exact ((tells_record _ _ _ (by decide)).bind fun _ => (tells_setStatus _).bind fun _ =>
      .pure _).steps
  · rename_i hbound
    rw [Fallible.lift_bind_run]
    refine Reach.trans _ _ _ ?_ (Stages.again _)
    refine Reach.trans m _ _ (.of_act (.violation m (Nat.le_of_not_lt hbound)) rfl rfl) ?_
    exact ((steps_pushNote _).bind fun _ => (tells_setStatus _).steps) _

theorem stages_say (ports : Ports σ) (view : ContextView) (streamed : Bool) (text : String) :
    Stages sys n (say ports view streamed text) := by
  have hreply : Steps sys n (reply ports view streamed text) := by
    have hshow : Tells (showReply ports streamed text) := by
      unfold showReply
      split
      · exact .pure _
      · exact tells_emit _ _
    refine hshow.steps.bind fun _ => .read fun m => Steps.bind (steps_pushBlock _ ?_) fun _ =>
      (tells_setStatus _).steps.bind fun _ => (tells_emit _ _).steps.bind fun _ => .pure _
    rfl
  refine .bind (.lift hreply) fun result => .read fun m => ?_
  split
  · exact stages_retryContract ports _
  · exact .stopWith ((tells_record _ _ _ (by decide)).bind fun _ => .pure _).steps

theorem ask_reach (ports : Ports σ) (question : String) (m : Machine σ)
    (hm : Acting m.run (.ask question) m) : Reach sys n m ((ask ports question).run m).2 := by
  unfold ask
  rw [Fallible.read_bind_run]
  split
  · exact Stages.bind (.lift (steps_pushNote _)) (fun _ => .again) m
  · rename_i hlevel
    have hused : Reach sys n m ((uses [⟨"ask"⟩]).run m).2 :=
      hm.uses_reach ⟨"ask"⟩ fun _ => ⟨rfl, not_not.mp hlevel⟩
    refine hused.trans _ _ _ ?_
    exact Stages.stopWith ((tells_record ports .approvalRequested (.question question)
      (by decide)).bind fun _ => (tells_setStatus _).bind fun _ => .pure _).steps _

theorem escalate_reach (ports : Ports σ) (req : EscalationRequest) (m : Machine σ)
    (hm : Acting m.run (.escalate req) m) : Reach sys n m ((escalate ports req).run m).2 := by
  unfold escalate
  rw [Fallible.read_bind_run]
  split
  · exact Stages.lift ((tells_record _ _ _ (by decide)).steps.bind fun _ => steps_pushNote _) m
  · rename_i hroute
    have hraise : Tells (raiseAt ports (escalationRoute m.run) req) := by
      refine .read fun _ => ?_
      split
      · exact tells_port _
      · exact .pure _
    obtain ⟨es, htold⟩ := hraise m
    rw [Fallible.lift_bind_run]
    refine Reach.trans m _ _ (.of_told ⟨es, htold⟩) ?_
    cases ((raiseAt ports (escalationRoute m.run) req).run m).1 with
    | ok id =>
      have hused : Reach sys n _ ((uses [⟨"escalate"⟩]).run
          ((raiseAt ports (escalationRoute m.run) req).run m).2).2 :=
        (htold.acting hm).uses_reach ⟨"escalate"⟩ fun _ => ⟨rfl, hroute⟩
      refine hused.trans _ _ _ ?_
      exact Stages.stopWith ((tells_record ports .approvalRequested (.escalation id)
        (by decide)).steps.bind fun _ => (steps_pushNote _).bind fun _ =>
          (tells_setStatus _).steps.bind fun _ => .pure _) _
    | error refused =>
      cases refused with
      | noDesk => exact Stages.lift (steps_pushNote _) _
      | _ =>
        exact Stages.lift ((tells_record _ _ _ (by decide)).steps.bind fun _ => steps_pushNote _) _

theorem memoryWrite_reach (ports : Ports σ) (claim : ClaimRequest) (m : Machine σ)
    (hm : Acting m.run (.memoryWrite claim) m) :
    Reach sys n m ((memoryWrite ports claim).run m).2 := by
  unfold memoryWrite
  rw [Stateful.run_bind, Stateful.run_read, Stateful.run_ite]
  split
  · exact steps_pushNote _ m
  · rename_i hmay
    have hremember : Tells (rememberIn ports claim) := by
      refine .read fun _ => (tells_port _).bind fun _ => ?_
      split
      · exact tells_port _
      · exact .pure _
    obtain ⟨es, htold⟩ := hremember m
    rw [Stateful.run_bind]
    refine Reach.trans m _ _ (.of_told ⟨es, htold⟩) ?_
    cases ((rememberIn ports claim).run m).1 with
    | ok receipt =>
      have hused : Reach sys n _ ((uses [⟨"remember"⟩]).run
          ((rememberIn ports claim).run m).2).2 :=
        (htold.acting hm).uses_reach ⟨"remember"⟩ fun _ => ⟨rfl, by simpa using hmay⟩
      exact hused.trans _ _ _ (steps_pushNote _ _)
    | error why =>
      exact ((tells_record _ _ _ (by decide)).steps.bind fun _ => steps_pushNote _) _

/-- The machine once the step is taken. -/
def Machine.taking (m : Machine σ) (step : ModelStep) : Machine σ := ((takes step).run m).2

/-- **A step is acted on as the one the run took.** -/
theorem takeStep_turns {sub : SubRun σ} (hsub : Nests sys n sub) (ports : Ports σ)
    (view : ContextView) (streamed : Bool) (step : ModelStep) :
    Fallible.Within (Turns sys n) (takeStep sys ports sub view streamed step) := by
  intro m hn
  have htook : Turns sys n m (m.taking step) := fun _ => ⟨.of_step (.took m step), rfl⟩
  have hacting : Acting (m.taking step).run step (m.taking step) := ⟨m.frame.offered, rfl⟩
  refine (htook.trans _ _ _ (Reach.turns ?_)) hn
  unfold takeStep
  rw [Fallible.lift_bind_run]
  cases step with
  | say text => exact stages_say ports view streamed text _
  | ask question => exact ask_reach ports question _ hacting
  | escalate req => exact escalate_reach ports req _ hacting
  | toolCall calls =>
    let taken := m.taking (.toolCall calls)
    have hanswering : Answering n calls taken := ⟨hn, _, rfl, rfl, rfl⟩
    exact toolBatch_under hsub ports view calls taken.frame.locals.lastReasoning taken hanswering
  | memoryWrite claim => exact memoryWrite_reach ports claim _ hacting
  | spawn req => exact spawn_reach hsub ports req _ hacting

/-! ## The loop -/

theorem steps_checkpointIteration (ports : Ports σ) : Steps sys n (checkpointIteration ports) := by
  intro m
  let cp := Checkpoint.capture m.run m.state m.frame.locals.steps m.frame.locals.contractRetries
  let recorded := (record ports .checkpointed (.checkpoint cp)).run m
  have htold : Reach sys n m recorded.2 := (tells_record ports _ _ (by decide)).steps m
  obtain ⟨env, accepted, notice, hrun, -⟩ := record_run ports .checkpointed (.checkpoint cp) m
  let saved := (recorded.2.withEngine
    { recorded.2.engine with
      lastCheckpoints := recorded.2.engine.lastCheckpoints.insert m.run.id cp }).note (.saved m.run.id)
  have hsaved : Act sys recorded.2 saved := by
    have hact : Act sys recorded.2 _ := .checkpoint recorded.2
    have hsame : recorded.2.frame = m.frame := by
      change ((record ports .checkpointed (.checkpoint cp)).run m).2.frame = _
      rw [hrun]
    unfold Machine.run Machine.state at hact
    rw [hsame] at hact
    exact hact
  have hlast : Told saved ((checkpointIteration ports).run m).2 [] :=
    .withRun saved { saved.run with lastCheckpoint := recorded.1 }
      ⟨saved.run.status, saved.run.session, recorded.1, rfl⟩
  exact htold.trans _ _ _ (Reach.trans _ _ _ (.of_act hsaved rfl rfl) (.of_told ⟨_, hlast⟩))

/-- A turn once the model has been called. -/
def answerTurn (sys : Outside σ) (ports : Ports σ) (sub : SubRun σ)
    (called : ContextView × Bool × String × Except ProviderError ModelCall) : StepM σ Unit := do
  let (view, streamed, reasoning, answer) := called
  let step ← takeAnswer ports answer
  takeInterrupt ports
  lift (setLocals fun locals => { locals with lastReasoning := reasoning })
  retryEmptyTurn ports step
  lift (countToolTurn step)
  takeStep sys ports sub view streamed step
  lift (checkpointIteration ports)

/-- A turn is what comes before the model call, the call, and what is made of its answer. -/
theorem turn_eq (sys : Outside σ) (ports : Ports σ) (sub : SubRun σ) :
    turn sys ports sub = (checkCancelled ports >>= fun _ => lift (takeSteer ports) >>= fun _ =>
      assembleView sys ports >>= fun view => lift (callWith ports view) >>=
        answerTurn sys ports sub) := by
  simp only [turn, modelTurn, Fallible.bind_assoc]
  rfl

theorem stages_checkCancelled (ports : Ports σ) : Stages sys n (checkCancelled ports) := by
  refine .read fun m => ?_
  split
  · exact .stopWith ((tells_record _ _ _ (by decide)).bind fun _ =>
      (tells_setStatus _).bind fun _ => .pure _).steps
  · exact .pure _

theorem steps_takeSteer (ports : Ports σ) : Steps sys n (takeSteer ports) := by
  refine .read fun m => (tells_port _).steps.bind fun steer => ?_
  cases steer with
  | none => exact .pure _
  | some steer => exact (tells_record _ _ _ (by decide)).steps.bind fun _ => steps_userTurn _ _

theorem answerTurn_turns {sub : SubRun σ} (hsub : Nests sys n sub) (ports : Ports σ)
    (called : ContextView × Bool × String × Except ProviderError ModelCall) :
    Fallible.Within (Turns sys n) (answerTurn sys ports sub called) := by
  obtain ⟨view, streamed, reasoning, answer⟩ := called
  have hkeep : Stages sys n (lift (setLocals fun locals =>
      { locals with lastReasoning := reasoning })) :=
    .lift (tells_setLocals _ (by intro _; rfl) (by intro _; rfl)).steps
  exact .bind Turns.trans (stages_takeAnswer _ _).turns fun _ =>
    .bind Turns.trans (stages_takeInterrupt _).turns fun _ => .bind Turns.trans hkeep.turns fun _ =>
      .bind Turns.trans (stages_retryEmptyTurn _ _).turns fun _ =>
        .bind Turns.trans (Stages.lift (steps_countToolTurn _)).turns fun _ =>
          .bind Turns.trans (takeStep_turns hsub _ _ _ _) fun _ =>
            (Stages.lift (steps_checkpointIteration ports)).turns

theorem turn_turns {sub : SubRun σ} (hsub : Nests sys n sub) (ports : Ports σ) :
    Fallible.Within (Turns sys n) (turn sys ports sub) := by
  rw [turn_eq]
  refine .bind Turns.trans (stages_checkCancelled ports).turns fun _ =>
    .bind Turns.trans (Stages.lift (steps_takeSteer ports)).turns fun _ m => ?_
  refine Fallible.bind_at (stages_assembleView ports m).turns fun view m₁ hview hturns => ?_
  obtain ⟨hstable, hbounds⟩ := assembleView_bounds ports m m₁ view hview
  rw [Fallible.lift_bind_run]
  exact hturns.trans _ _ _ ((callWith_reach ports view m₁ hstable hbounds).turns.trans _ _ _
    (answerTurn_turns hsub ports _ _))

theorem hardStops_cases (ports : Ports σ) (m : Machine σ) :
    (∃ dimension, (hardStops ports).run m = (stopWith (pause ports dimension)).run m) ∨
      (hardStops ports).run m = (.ok (), m) := by
  unfold hardStops
  rw [Fallible.read_bind_run]
  split
  · exact .inl ⟨_, rfl⟩
  · split
    · exact .inr rfl
    · exact .inl ⟨_, rfl⟩

/-- The machine once the iteration is counted. -/
def Machine.begun (m : Machine σ) : Machine σ :=
  (m.withLocals { m.frame.locals with steps := m.frame.locals.steps + 1 }).note (.iteration m.run.id)

theorem beginIteration_cases (ports : Ports σ) (m : Machine σ) :
    (beginIteration ports).run m = (stopWith (pause ports "steps")).run m ∨
      m.frame.locals.steps + 1 ≤ maxSteps ∧ (beginIteration ports).run m = (.ok (), m.begun) := by
  unfold beginIteration
  rw [Fallible.read_bind_run]
  split
  · exact .inl rfl
  · rename_i hbound
    exact .inr ⟨Nat.le_of_not_lt hbound, rfl⟩

/-- An iteration either returns before it is counted, or is counted, within the
bound, and has its turn. -/
theorem iterationBody_cases (ports : Ports σ) (sub : SubRun σ) (m : Machine σ) :
    (∃ dimension, (iterationBody sys ports sub).run m = (stopWith (pause ports dimension)).run m) ∨
      m.frame.locals.steps + 1 ≤ maxSteps ∧
        (iterationBody sys ports sub).run m = (turn sys ports sub).run m.begun := by
  unfold iterationBody
  rcases hardStops_cases ports m with ⟨dimension, hstop⟩ | hgo
  · exact .inl ⟨dimension, by rw [Fallible.bind_error hstop]; rfl⟩
  rw [Fallible.bind_ok hgo]
  rcases beginIteration_cases ports m with hstop | ⟨hbound, hgo⟩
  · exact .inl ⟨"steps", by rw [Fallible.bind_error hstop]; rfl⟩
  · exact .inr ⟨hbound, Fallible.bind_ok hgo⟩

theorem iterate_state (ports : Ports σ) (sub : SubRun σ) (m : Machine σ) :
    ((iterate sys ports sub).run m).2 = ((iterationBody sys ports sub).run m).2 := by
  unfold iterate
  rw [Stateful.run_bind]
  split <;> rfl

theorem iterate_runs {sub : SubRun σ} (hsub : Nests sys n sub) (ports : Ports σ) (m : Machine σ)
    (hn : nesting m.run ≤ n) : Runs sys m ((iterate sys ports sub).run m).2 := by
  rw [iterate_state]
  rcases @iterationBody_cases σ sys ports sub m with ⟨dimension, hstop⟩ | ⟨hbound, hgo⟩
  · rw [hstop]
    exact (Stages.stopWith (tells_pause ports dimension).steps m hn).1
  · rw [hgo]
    exact .trans (.of_step (.begin m hbound)) (turn_turns hsub ports m.begun hn).1

/-- An iteration that goes round has used one of the steps. -/
theorem iterate_goes_round {sub : SubRun σ} (hsub : Nests sys n sub) (ports : Ports σ)
    (m : Machine σ) (hn : nesting m.run ≤ n) (h : ((iterate sys ports sub).run m).1 = none) :
    maxSteps - ((iterate sys ports sub).run m).2.frame.locals.steps <
      maxSteps - m.frame.locals.steps := by
  rw [iterate_state]
  rcases @iterationBody_cases σ sys ports sub m with ⟨dimension, hstop⟩ | ⟨hbound, hgo⟩
  · -- a stop returns an outcome
    unfold iterate at h
    rw [Stateful.run_bind] at h
    unfold Stateful.outcome at h
    simp only [hstop] at h
    cases h
  · rw [hgo, (turn_turns hsub ports m.begun hn).2]
    change maxSteps - (m.frame.locals.steps + 1) < _
    omega

/-- **`drive_inner` is an execution.** -/
theorem driveInner_runs {sub : SubRun σ} (hsub : Nests sys n sub) (ports : Ports σ)
    (resumedSteps resumedRetries : Nat) (m : Machine σ) (hn : nesting m.run ≤ n)
    (hsteps : m.frame.locals.steps = resumedSteps)
    (hretries : m.frame.locals.contractRetries = resumedRetries) :
    Runs sys m ((driveInner sys sub ports resumedSteps resumedRetries).run m).2 := by
  let started := (m.withRun { m.run with status := .running }).withLocals
    { steps := resumedSteps, contractRetries := resumedRetries }
  have hstart : Told m started ([] ++ []) :=
    (Told.withRun m _ ⟨.running, m.run.session, m.run.lastCheckpoint, rfl⟩).trans
      (.withLocals _ _ hsteps.symm hretries.symm)
  refine .trans (.of_step (.tell _ hstart)) ?_
  change Runs sys started ((Stateful.repeatUntil (iterate sys ports sub) stuck
    (maxSteps - resumedSteps + 1)).run started).2
  refine Stateful.repeatUntil_at (R := Runs sys) (P := fun m => nesting m.run ≤ n)
    (f := fun m => maxSteps - m.frame.locals.steps) (fun _ _ _ => .trans)
    (fun s t hst hs => hst.kept.nesting ▸ hs) (iterate_runs hsub ports)
    (iterate_goes_round hsub ports) _ started hn ?_
  change maxSteps - resumedSteps < maxSteps - resumedSteps + 1
  omega

/-! ## The end of a drive -/

/-- Written, and settled with the children: the end of a drive. -/
def finish (ports : Ports σ) (step contractRetries : Nat) : LoopM σ Unit := do
  writeCheckpoint ports step contractRetries
  settleChildren ports

/-- What settling keeps, for the children in `kids`. -/
structure Settled (kids : List (RunId × OrphanPolicy)) (m m' : Machine σ) : Prop
    extends Unmoved m m' where
  state : m'.state = m.state
  trace : ∃ es, m'.trace = m.trace ++ es ∧ ∀ e ∈ es, e.PlainOf m.run.id
  checkpoints : ∀ k, (∀ kid ∈ kids, k ≠ kid.1) →
    m'.engine.lastCheckpoints.get? k = m.engine.lastCheckpoints.get? k
  children : m'.engine.children = m.engine.children

namespace Settled

variable {kids : List (RunId × OrphanPolicy)}

theorem of_told {m m' : Machine σ} {es : List Effect} (h : Told m m' es) : Settled kids m m' :=
  ⟨h.toUnmoved, h.state, ⟨es, h.trace, h.plain⟩, fun _ _ => by rw [h.checkpoints], h.children⟩

theorem refl (m : Machine σ) : Settled kids m m := .of_told (.refl m)

theorem trans (m m' m'' : Machine σ) (h : Settled kids m m') (h' : Settled kids m' m'') :
    Settled kids m m'' := by
  obtain ⟨es, htrace, hes⟩ := h.trace
  obtain ⟨es', htrace', hes'⟩ := h'.trace
  have hid : m'.run.id = m.run.id := by
    obtain ⟨_, _, _, hrun⟩ := h.run
    rw [hrun]
  refine ⟨⟨h.run.trans h'.run, h'.ancestors.trans h.ancestors, h.fresh.trans h'.fresh,
    h'.registry.trans h.registry⟩, h'.state.trans h.state, ⟨es ++ es', ?_, ?_⟩, ?_,
    h'.children.trans h.children⟩
  · rw [htrace', htrace, List.append_assoc]
  · exact List.forall_mem_append.mpr ⟨hes, hid ▸ hes'⟩
  · intro k hk
    rw [h'.checkpoints k hk, h.checkpoints k hk]

/-- A checkpoint of one of the children. -/
theorem insert (m : Machine σ) (child : RunId × OrphanPolicy) (cp : Checkpoint) (h : child ∈ kids) :
    Settled kids m (m.withEngine
      { m.engine with lastCheckpoints := m.engine.lastCheckpoints.insert child.1 cp }) :=
  ⟨⟨.refl _, rfl, Nat.le_refl _, rfl⟩, rfl, ⟨[], (List.append_nil _).symm, by simp⟩,
    fun k hk => by
      change (m.engine.lastCheckpoints.insert child.1 cp).get? k = _
      rw [OrderedMap.get?_insert, if_neg (Ne.symm (hk child h))], rfl⟩

end Settled

theorem settled_settleChild (ports : Ports σ) (kids : List (RunId × OrphanPolicy))
    (child : RunId × OrphanPolicy) (h : child ∈ kids) :
    Stateful.Within (Settled kids) (settleChild ports child) := by
  have htells : ∀ {β : Type} {f : LoopM σ β}, Tells f → Stateful.Within (Settled kids) f :=
    fun hf m => (hf m).elim fun _ h => .of_told h
  intro m
  unfold settleChild
  rw [Stateful.run_bind, Stateful.run_read]
  cases m.engine.lastCheckpoints.get? child.1 with
  | none => exact htells ((tells_record _ _ _ (by decide)).bind fun _ => .pure _) m
  | some cp =>
    dsimp only
    cases settleOrphan cp child.2 with
    | none => exact Settled.refl m
    | some settled =>
      obtain ⟨amended, fate⟩ := settled
      refine Stateful.Within.bind Settled.trans (htells (tells_record ports .checkpointed _ ?_))
        (fun _ => Stateful.Within.bind Settled.trans
          (htells (tells_record ports .runCompleted _ ?_)) fun _ => ?_) m
      · decide
      · decide
      exact fun m => .insert m child amended h

theorem settled_each (ports : Ports σ) (kids items : List (RunId × OrphanPolicy))
    (h : ∀ kid ∈ items, kid ∈ kids) :
    Stateful.Within (Settled kids) (Stateful.each (settleChild ports) items) := by
  induction items with
  | nil => exact Stateful.Within.pure Settled.refl ()
  | cons child rest ih =>
    exact Stateful.Within.bind Settled.trans
      (settled_settleChild ports kids child (h child List.mem_cons_self)) fun _ =>
        ih fun kid hkid => h kid (List.mem_cons_of_mem _ hkid)

/-- The run's own checkpoint, and the end of its children's enlistment. -/
theorem finish_finished (ports : Ports σ) (step contractRetries : Nat) (m : Machine σ) :
    Finished m ((finish ports step contractRetries).run m).2 := by
  let cp := Checkpoint.capture m.run m.state step contractRetries
  let recorded := (record ports .checkpointed (.checkpoint cp)).run m
  obtain ⟨es, htold⟩ := tells_record ports .checkpointed (.checkpoint cp) (by decide) m
  let written := (recorded.2.withEngine
    { recorded.2.engine with
      lastCheckpoints := recorded.2.engine.lastCheckpoints.insert m.run.id cp }).withRun
        { recorded.2.run with lastCheckpoint := recorded.1 }
  let kids := (written.engine.children.get? written.run.id).getD []
  let released := written.withEngine
    { written.engine with children := written.engine.children.erase written.run.id }
  have hsettled : Settled kids released ((finish ports step contractRetries).run m).2 :=
    settled_each ports kids kids (fun _ h => h) released
  have hid : written.run.id = m.run.id := htold.id_eq
  have hchildren : written.engine.children = m.engine.children := htold.children
  obtain ⟨es', htrace', hes'⟩ := hsettled.trace
  refine ⟨⟨?_, ?_, ?_, ?_⟩, ?_, ⟨es ++ es', ?_, ?_⟩, ?_, ?_⟩
  · refine htold.run.trans (Run.Same.trans ?_ hsettled.run)
    exact ⟨recorded.2.run.status, recorded.2.run.session, recorded.1, rfl⟩
  · exact hsettled.ancestors.trans htold.ancestors
  · exact htold.fresh.trans hsettled.fresh
  · exact hsettled.registry.trans htold.registry
  · exact hsettled.state.trans htold.state
  · rw [htrace', ← List.append_assoc, ← htold.trace]
    rfl
  · refine List.forall_mem_append.mpr ⟨htold.plain, fun e he => ?_⟩
    exact hid ▸ hes' e he
  · intro k hk hkids
    rw [hsettled.checkpoints k fun kid hkid => hkids kid (by
      rw [← hchildren, ← hid]
      exact hkid)]
    change (recorded.2.engine.lastCheckpoints.insert m.run.id cp).get? k = _
    rw [OrderedMap.get?_insert, if_neg (Ne.symm hk), ← htold.checkpoints]
  · rw [hsettled.children, ← hchildren, ← hid]
    rfl

/-! ## The whole engine -/

/-- A drive is its loop and then its end, under the steps and retries it counts. -/
theorem drive_run (sub : SubRun σ) (ports : Ports σ) (resumedSteps resumedRetries : Nat)
    (m : Machine σ) :
    let driven := ((driveInner sys sub ports resumedSteps resumedRetries).run m).2
    let counted := countedSteps driven resumedSteps resumedRetries
    ((drive sys sub resumedSteps resumedRetries ports).run m).2 =
      ((finish ports counted.1 counted.2).run driven).2 := by
  unfold drive
  rw [Stateful.run_bind]
  rfl

/-- **Nested runs keep to the transition system**, to every depth. -/
theorem nested_nests (sys : Outside σ) (n : Nat) : Nests sys n (nested sys n) := by
  induction n with
  | zero => intro ports m h; omega
  | succ n ih =>
    intro ports m h hsteps hretries
    refine ⟨((driveInner sys (nested sys n) ports 0 0).run m).2,
      driveInner_runs ih ports 0 0 m (Nat.le_of_lt_succ h) hsteps hretries, ?_⟩
    change Finished _ ((drive sys (nested sys n) 0 0 ports).run m).2
    rw [drive_run]
    exact finish_finished ports _ _ _

/-- **The engine's loop is an execution of the transition system**, for every run,
registry, set of ports and environment. -/
theorem runDriveInner_runs (ports : Ports σ) (m : Machine σ) :
    Runs sys m ((runDriveInner sys ports m.frame.locals.steps m.frame.locals.contractRetries).run
      m).2 := by
  unfold runDriveInner
  rw [Stateful.run_bind, Stateful.run_read]
  exact driveInner_runs (nested_nests sys (nesting m.run)) ports _ _ m (Nat.le_refl _) rfl rfl

end MarloweAgent.Loop
