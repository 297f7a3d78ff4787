import MarloweAgent.Loop.Changes
import MarloweAgent.Loop.Execution

/-! The stages of the loop, and a whole drive to any depth of nested runs, make no
changes but the engine's. Up to the model call none of them judges a call. -/

namespace MarloweAgent.Loop
open Contract Library Tools Permission
open Fallible (lift)
open Stateful (each)

variable {σ α : Type} {sys : Outside σ} {said : σ → Set String} {judging : Prop}
  {ports : Ports σ} {sub : SubRun σ}

/-! ## Before the model is called -/

/-- What the user said enters the conversation. -/
theorem userTurn_goes (tag text : String) (m : Machine σ) (h : text ∈ said m.env) :
    Goes sys said judging m ((userTurn tag text).run m).2 := by
  let attributed := m.withProvenance (m.frame.provenance.attributeUserMessage text)
  have hheard : Goes sys said judging m attributed := .of_step (.heard text h)
  exact hheard.trans (changes_pushBlock (.new .history (tag ++ text) .userAsserted)
    (fun h => by cases h) attributed)

theorem changes_takeSteer (hp : Hearing said ports) :
    Changes sys said judging (takeSteer ports) := by
  refine .read fun m m₁ => ?_
  let taken := (ports.control.takeSteer m.run.id).run m₁.env
  have htaken : Goes sys said judging m₁ (m₁.withEnv taken.2) :=
    .of_step (.env _ (hp.takeSteer _ _))
  refine htaken.trans ?_
  rw [Stateful.run_bind]
  split
  · exact .refl _
  · rename_i steer hspoken
    let recorded := ((record ports .steerReceived (.steer steer.text)).run (m₁.withEnv taken.2)).2
    have hrecorded : Goes sys said judging (m₁.withEnv taken.2) recorded :=
      changes_record hp _ _ _
    exact hrecorded.trans (userTurn_goes "[steer] " steer.text recorded
      (hrecorded.remembers (hp.steer m.run.id m₁.env steer hspoken)))

theorem stageChanges_checkCancelled (hp : Hearing said ports) :
    StageChanges sys said judging (checkCancelled ports) := by
  refine .read fun m => ?_
  split
  · exact .stopWith ((changes_record hp _ _).bind fun _ => (changes_setStatus _).bind fun _ =>
      .pure _)
  · exact .pure _

theorem changes_compactSession (hp : Hearing said ports) (view : ContextView) :
    Changes sys said judging (compactSession ports view) := by
  have hreplace : ∀ (child : SessionId) (summary : String),
      Changes sys said judging (replaceVolatile ports child summary) := by
    intro child summary
    refine Changes.bind (fun m => ?_) fun _ => (changes_setRun _ (by intro _; rfl)).bind fun _ =>
      .read fun _ => changes_emit hp _
    let compacted := m.engine.assembler.compact m.state child summary m.engine.cache
    have hengine : Change sys said judging m
        (m.withEngine { m.engine with assembler := compacted.1, cache := compacted.2.2 }) :=
      .engine _ rfl rfl
    refine ((Calls.of_step hengine).step ?_).step (.note (.compacted m.run.id m.state compacted.2.1)
      rfl)
    exact .state (.compact m.engine.assembler child summary m.engine.cache) trivial
  exact (changes_port (hp.summarize view)).bind fun _ => (changes_record hp _ _).bind fun _ =>
    changes_newId.bind fun _ => .read fun _ => (changes_record hp _ _).bind fun _ => hreplace _ _

theorem stageChanges_assembleView (hp : Hearing said ports) :
    StageChanges sys said judging (assembleView sys ports) := by
  intro m
  unfold assembleView
  rw [Fallible.read_bind_run]
  dsimp only
  split
  · refine StageChanges.bind (.lift (changes_compactSession hp _)) (fun _ => .read fun m' => ?_) m
    split
    · exact .stopWith (changes_fail hp _)
    · exact .again
  split
  · rw [Fallible.lift_bind_run]
    have hcleared : Goes sys said judging m
        (m.withState (Assembler.clearToolResults m.state keepToolResults).1) :=
      .of_step (.state (.clearToolResults keepToolResults) trivial)
    refine hcleared.trans ?_
    split
    · exact StageChanges.again _
    · exact StageChanges.pure _ _
  · exact StageChanges.pure _ m

/-! ## The model call -/

theorem changes_latchFloor (hp : Hearing said ports) (view : ContextView) :
    Changes sys said judging (latchFloor ports view) := by
  refine .read fun m => Changes.bind (fun m₁ => ?_) fun _ => ?_
  · refine .of_step (.run _ ?_)
    rw [Run.latchTrustFloor_floor]
    exact min_le_left _ _
  · split
    · exact .pure _
    · refine (changes_record hp _ _).bind fun _ => ?_
      split
      · exact changes_emit hp _
      · exact .pure _

theorem changes_showStream (hp : Hearing said ports) (chunks : List StreamChunk) :
    Changes sys said judging (showStream ports chunks) := by
  induction chunks with
  | nil => exact .pure _
  | cons chunk rest ih => exact (changes_emit hp _).bind fun _ => ih.bind fun _ => .pure _

/-- The model call under a floor that is latched. -/
def callLatched (ports : Ports σ) (view : ContextView) :
    LoopM σ (String × Except ProviderError ModelCall) := do
  let m ← Stateful.read
  let limits := m.run.budget.callLimits m.run.spent m.run.profile.modelRoute
  let offered := if farmingHardStop ≤ m.frame.locals.toolCallsThisTurn then ExposedSet.empty
    else m.run.profile.exposedTools
  note (.modelCalled m.run m.state view offered limits)
  Stateful.update fun m =>
    { m with frame := { m.frame with seen := m.frame.seen ++ [m.state], offered } }
  let (chunks, answer) ← port (ports.driver.callStreamingSplit view offered limits)
  let reasoning ← showStream ports chunks
  pure (reasoning, answer)

theorem callModel_eq (ports : Ports σ) (view : ContextView) :
    callModel ports view = latchFloor ports view >>= fun _ => callLatched ports view := rfl

theorem changes_callLatched (hp : Hearing said ports) (view : ContextView) :
    Changes sys said judging (callLatched ports view) := by
  have hshown : ∀ offered : ExposedSet, Changes sys said judging (Stateful.update fun m =>
      { m with frame := { m.frame with seen := m.frame.seen ++ [m.state], offered } }) := by
    intro offered m
    exact .step (.of_step .shown) (.aside m.frame.locals offered m.frame.answer)
  exact .read fun _ => (changes_note _ rfl).bind fun _ => (hshown _).bind fun _ =>
    (changes_port (hp.call _ _ _)).bind fun _ => (changes_showStream hp _).bind fun _ => .pure _

theorem changes_callWith (hp : Hearing said ports) (view : ContextView) :
    Changes sys said judging (callWith ports view) := by
  refine .read fun _ => (changes_setLocals _).bind fun _ => Changes.bind ?_ fun _ => .pure _
  rw [callModel_eq]
  exact (changes_latchFloor hp _).bind fun _ => changes_callLatched hp _

theorem stageChanges_takeAnswer (hp : Hearing said ports) (answer : Except ProviderError ModelCall) :
    StageChanges sys said judging (takeAnswer ports answer) := by
  cases answer with
  | ok call =>
    exact .lift (.read fun _ => (changes_note _ rfl).bind fun _ => (changes_charge _).bind fun _ =>
      (changes_record hp _ _).bind fun _ => .pure _)
  | error e =>
    have hfailover : Changes sys said judging (tryFailover ports e) := by
      unfold tryFailover
      split
      · exact changes_port (hp.failover e)
      · exact .pure _
    refine .bind (.lift hfailover) fun failedOver => ?_
    split
    · exact .bind (.lift (changes_record hp _ _)) fun _ => .bind (.lift (changes_emit hp _))
        fun _ => .again
    · exact .stopWith (changes_fail hp _)

/-- An interruption is the user's own words. -/
theorem stageChanges_takeInterrupt (hp : Hearing said ports) :
    StageChanges sys said judging (takeInterrupt ports) := by
  refine .read fun m => ?_
  split
  · intro m₁
    let taken := ports.control.takeInterrupt.run m₁.env
    have htaken : Goes sys said judging m₁ (m₁.withEnv taken.2) :=
      .of_step (.env _ (hp.takeInterrupt _))
    rw [Fallible.lift_bind_run]
    refine htaken.trans ?_
    show Goes sys said judging _ ((_ : StepM σ Unit).run (m₁.withEnv taken.2)).2
    split
    · exact .refl _
    · rename_i text hspoken
      let recorded := ((record ports .interrupted .empty).run (m₁.withEnv taken.2)).2
      have hrecorded : Goes sys said judging (m₁.withEnv taken.2) recorded :=
        changes_record hp _ _ _
      exact hrecorded.trans (userTurn_goes "[user, interrupting] " text recorded
        (hrecorded.remembers (hp.interrupt m₁.env text hspoken)))
  · exact .pure _

theorem stageChanges_retryEmptyTurn (hp : Hearing said ports) (step : ModelStep) :
    StageChanges sys said judging (retryEmptyTurn ports step) := by
  refine .read fun m => ?_
  split
  · split
    · exact .bind (.lift (changes_setLocals _)) fun _ => .again
    · exact .stopWith (changes_fail hp _)
  · exact .lift (changes_setLocals _)

theorem changes_countToolTurn (step : ModelStep) :
    Changes sys said judging (countToolTurn step : LoopM σ Unit) := by
  unfold countToolTurn
  split
  · exact changes_setLocals _
  · exact .pure _

/-! ## What the model asked for -/

theorem stageChanges_say (hp : Hearing said ports) (view : ContextView) (streamed : Bool)
    (text : String) : StageChanges sys said judging (say ports view streamed text) := by
  have hshow : Changes sys said judging (showReply ports streamed text) := by
    unfold showReply
    split
    · exact .pure _
    · exact changes_emit hp _
  have hreply : Changes sys said judging (reply ports view streamed text) :=
    hshow.bind fun _ => .read fun _ => (changes_pushBlock _ fun h => by cases h).bind fun _ =>
      (changes_setStatus _).bind fun _ => (changes_emit hp _).bind fun _ => .pure _
  refine .bind (.lift hreply) fun result => .read fun m => ?_
  split
  · refine .read fun m' => ?_
    dsimp only
    split
    · exact .stopWith ((changes_record hp _ _).bind fun _ => (changes_setStatus _).bind fun _ =>
        .pure _)
    · exact .bind (.lift ((changes_setLocals _).bind fun _ => (changes_note _ rfl).bind fun _ =>
        (changes_pushNote _).bind fun _ => changes_setStatus _)) fun _ => .again
  · exact .stopWith ((changes_record hp _ _).bind fun _ => .pure _)

theorem stageChanges_ask (hp : Hearing said ports) (question : String) :
    StageChanges sys said judging (ask ports question) := by
  refine .read fun m => ?_
  split
  · exact .bind (.lift (changes_pushNote _)) fun _ => .again
  · exact .stopWith ((changes_uses _).bind fun _ => (changes_record hp _ _).bind fun _ =>
      (changes_setStatus _).bind fun _ => .pure _)

theorem stageChanges_escalate (hp : Hearing said ports) (req : EscalationRequest) :
    StageChanges sys said judging (escalate ports req) := by
  refine .read fun m => ?_
  split
  · exact .lift ((changes_record hp _ _).bind fun _ => changes_pushNote _)
  · have hraise : ∀ route, Changes sys said judging (raiseAt ports route req) := by
      intro route
      refine .read fun _ => ?_
      split
      · rename_i raise hraise
        exact changes_port (hp.escalations raise hraise _ _ _)
      · exact .pure _
    refine .bind (.lift (hraise _)) fun raised => ?_
    cases raised with
    | ok id =>
      exact .stopWith ((changes_uses _).bind fun _ => (changes_record hp _ _).bind fun _ =>
        (changes_pushNote _).bind fun _ => (changes_setStatus _).bind fun _ => .pure _)
    | error refused =>
      cases refused with
      | noDesk => exact .lift (changes_pushNote _)
      | _ => exact .lift ((changes_record hp _ _).bind fun _ => changes_pushNote _)

theorem changes_memoryWrite (hp : Hearing said ports) (claim : ClaimRequest) :
    Changes sys said judging (memoryWrite ports claim) := by
  refine .read fun m => ?_
  split
  · exact changes_pushNote _
  · have hremember : Changes sys said judging (rememberIn ports claim) := by
      refine .read fun _ => (changes_port hp.nowMs).bind fun _ => ?_
      split
      · rename_i remember hmemory
        exact changes_port (hp.memory remember hmemory _ _ _ _ _)
      · exact .pure _
    refine hremember.bind fun answer => ?_
    cases answer with
    | ok receipt => exact (changes_uses _).bind fun _ => changes_pushNote _
    | error why => exact (changes_record hp _ _).bind fun _ => changes_pushNote _

/-- Acting on the model's answer. -/
theorem stageChanges_takeStep (hsys : sys.Remembers said) (hsub : SubChanges sys said sub)
    (hp : Hearing said ports) (view : ContextView) (streamed : Bool) (step : ModelStep) :
    StageChanges sys said True (takeStep sys ports sub view streamed step) := by
  refine .bind (.lift (changes_takes step)) fun _ => ?_
  cases step with
  | say text => exact stageChanges_say hp view streamed text
  | ask question => exact stageChanges_ask hp question
  | escalate req => exact stageChanges_escalate hp req
  | toolCall calls =>
    exact .lift (.read fun _ => changes_toolBatch hsys hsub hp view calls _)
  | memoryWrite claim => exact .lift (changes_memoryWrite hp claim)
  | spawn req => exact .lift (changes_spawn hsub hp req)

/-! ## The loop -/

theorem changes_checkpointIteration (hp : Hearing said ports) :
    Changes sys said judging (checkpointIteration ports) :=
  .read fun _ => (changes_writeCheckpoint hp _ _).bind fun _ => changes_note _ rfl

theorem stageChanges_answerTurn (hsys : sys.Remembers said) (hsub : SubChanges sys said sub)
    (hp : Hearing said ports)
    (called : ContextView × Bool × String × Except ProviderError ModelCall) :
    StageChanges sys said True (answerTurn sys ports sub called) := by
  obtain ⟨view, streamed, reasoning, answer⟩ := called
  exact .bind (stageChanges_takeAnswer hp answer) fun step =>
    .bind (stageChanges_takeInterrupt hp) fun _ => .bind (.lift (changes_setLocals _)) fun _ =>
      .bind (stageChanges_retryEmptyTurn hp step) fun _ =>
        .bind (.lift (changes_countToolTurn step)) fun _ =>
          .bind (stageChanges_takeStep hsys hsub hp view streamed step) fun _ =>
            .lift (changes_checkpointIteration hp)

theorem stageChanges_turn (hsys : sys.Remembers said) (hsub : SubChanges sys said sub)
    (hp : Hearing said ports) : StageChanges sys said True (turn sys ports sub) := by
  rw [turn_eq]
  exact .bind (stageChanges_checkCancelled hp) fun _ => .bind (.lift (changes_takeSteer hp))
    fun _ => .bind (stageChanges_assembleView hp) fun view =>
      .bind (.lift (changes_callWith hp view)) fun called =>
        stageChanges_answerTurn hsys hsub hp called

theorem changes_iterate (hsys : sys.Remembers said) (hsub : SubChanges sys said sub)
    (hp : Hearing said ports) : Changes sys said True (iterate sys ports sub) := by
  have hstops : StageChanges sys said True (hardStops ports) := by
    refine .read fun m => ?_
    split
    · exact .stopWith (changes_pause hp _)
    · split
      · exact .pure _
      · exact .stopWith (changes_pause hp _)
  have hbegin : StageChanges sys said True (beginIteration ports) := by
    refine .read fun m => ?_
    split
    · exact .stopWith (changes_pause hp _)
    · exact .lift ((changes_setLocals _).bind fun _ => changes_note _ rfl)
  have hbody : StageChanges sys said True (iterationBody sys ports sub) :=
    .bind hstops fun _ => .bind hbegin fun _ => stageChanges_turn hsys hsub hp
  refine Changes.bind hbody fun ending => ?_
  split <;> exact .pure _

/-- Settling the children of a run that ended. -/
theorem changes_settleChildren (hp : Hearing said ports) :
    Changes sys said judging (settleChildren ports) := by
  refine .read fun m => (changes_setEngine _ (by intro _; rfl) (by intro _; rfl)).bind fun _ =>
    .each (fun child => .read fun m' => ?_) _
  split
  · exact (changes_record hp _ _).bind fun _ => .pure _
  · split
    · exact .pure _
    · exact (changes_record hp _ _).bind fun _ => (changes_record hp _ _).bind fun _ =>
        changes_setEngine _ (by intro _; rfl) (by intro _; rfl)

theorem changes_drive (hsys : sys.Remembers said) (hsub : SubChanges sys said sub)
    (hp : Hearing said ports) (resumedSteps resumedRetries : Nat) :
    Changes sys said True (drive sys sub resumedSteps resumedRetries ports) := by
  have hinner : Changes sys said True (driveInner sys sub ports resumedSteps resumedRetries) :=
    (changes_setStatus _).bind fun _ => (changes_setLocals _).bind fun _ =>
      Stateful.Within.repeatUntil goes_trans (changes_iterate hsys hsub hp)
        ((changes_note _ rfl).bind fun _ => .pure _) _
  exact hinner.bind fun _ => .read fun _ => (changes_writeCheckpoint hp _ _).bind fun _ =>
    (changes_settleChildren hp).bind fun _ => .pure _

/-- **A drive changes nothing else**, to any depth of nested runs. -/
theorem nested_changes (hsys : sys.Remembers said) (n : Nat) :
    SubChanges sys said (nested sys n) := by
  refine ⟨⟨n, rfl⟩, ?_⟩
  induction n with
  | zero => exact fun ports _ => (changes_note _ rfl).bind fun _ => .pure _
  | succ n ih => exact fun ports hp => changes_drive hsys ⟨⟨n, rfl⟩, ih⟩ hp 0 0

theorem continueFrom_changes (hsys : sys.Remembers said) (hp : Hearing said ports)
    (resumedSteps resumedRetries : Nat) :
    Changes sys said True (continueFrom sys ports resumedSteps resumedRetries) :=
  .read fun _ => changes_drive hsys (nested_changes hsys _) hp _ _

end MarloweAgent.Loop
