import MarloweAgent.Loop.Transitions

/-! The engine takes no step the transition system does not have: every function of
the loop, from whatever machine it is started on, is an execution of it. A nested
run is a call, and the depth a run was given bounds how far calls nest. -/

namespace MarloweAgent.Loop
open Contract Library Tools Permission EventLog

variable {σ α : Type} {sys : Outside σ}

/-! ## What every execution keeps -/

/-- Two profiles that differ in egress at most. -/
structure SameRights (p p' : CapabilityProfile) : Prop where
  exposedTools : p'.exposedTools = p.exposedTools
  interrupt : p'.interrupt = p.interrupt
  modelRoute : p'.modelRoute = p.modelRoute
  level : p'.level = p.level
  mayWriteMemory : p'.mayWriteMemory = p.mayWriteMemory
  readsUntrusted : p'.readsUntrusted = p.readsUntrusted

theorem SameRights.refl (p : CapabilityProfile) : SameRights p p := ⟨rfl, rfl, rfl, rfl, rfl, rfl⟩

theorem SameRights.trans {p p' p'' : CapabilityProfile} (h : SameRights p p')
    (h' : SameRights p' p'') : SameRights p p'' :=
  ⟨h'.1.trans h.1, h'.2.trans h.2, h'.3.trans h.3, h'.4.trans h.4, h'.5.trans h.5, h'.6.trans h.6⟩

theorem sameRights_widen (reasons : List Reason) (p : CapabilityProfile) :
    SameRights p (widen reasons p).1 := by
  induction reasons generalizing p with
  | nil => exact .refl p
  | cons reason rest ih =>
    simp only [widen]
    cases askedHost reason with
    | none => exact ih p
    | some host =>
      dsimp only
      split
      · exact ih p
      · have hgrant : SameRights p (p.grantEgressHost host) := ⟨rfl, rfl, rfl, rfl, rfl, rfl⟩
        exact hgrant.trans (ih _)

/-- Whose run it is, what it was given, and that the trace only grows. -/
structure Kept (m m' : Machine σ) : Prop where
  id : m'.run.id = m.run.id
  parent : m'.run.parent = m.run.parent
  budget : m'.run.budget = m.run.budget
  rights : SameRights m.run.profile m'.run.profile
  floor : m'.run.trustFloor ≤ m.run.trustFloor
  ancestors : m'.frame.ancestors = m.frame.ancestors
  fresh : m.fresh ≤ m'.fresh
  registry : m'.engine.registry = m.engine.registry
  trace : m.trace <+: m'.trace

theorem Kept.refl (m : Machine σ) : Kept m m :=
  ⟨rfl, rfl, rfl, .refl _, le_refl _, rfl, Nat.le_refl _, rfl, List.prefix_refl _⟩

theorem Kept.trans {m m' m'' : Machine σ} (h : Kept m m') (h' : Kept m' m'') : Kept m m'' :=
  ⟨h'.id.trans h.id, h'.parent.trans h.parent, h'.budget.trans h.budget, h.rights.trans h'.rights,
    h'.floor.trans h.floor, h'.ancestors.trans h.ancestors, h.fresh.trans h'.fresh,
    h'.registry.trans h.registry, h.trace.trans h'.trace⟩

/-- A step that leaves the run as it is, and adds to the trace. -/
theorem Kept.of_run {m m' : Machine σ} (run : m'.run = m.run)
    (ancestors : m'.frame.ancestors = m.frame.ancestors) (fresh : m.fresh ≤ m'.fresh)
    (registry : m'.engine.registry = m.engine.registry) (trace : m.trace <+: m'.trace) :
    Kept m m' := by
  refine ⟨?_, ?_, ?_, ?_, ?_, ancestors, fresh, registry, trace⟩ <;> rw [run]
  exact .refl _

/-- A step that moves nothing but what `Unmoved` allows, and adds to the trace. -/
theorem Unmoved.kept {m m' : Machine σ} (h : Unmoved m m') (htrace : m.trace <+: m'.trace) :
    Kept m m' := by
  obtain ⟨⟨status, session, seq, hrun⟩, hanc, hfresh, hreg⟩ := h
  refine ⟨?_, ?_, ?_, ?_, ?_, hanc, hfresh, hreg, htrace⟩ <;> rw [hrun]
  exact .refl _

theorem Kept.note (m : Machine σ) (e : Effect) : Kept m (m.note e) :=
  .of_run rfl rfl (Nat.le_refl _) rfl (List.prefix_append _ _)

theorem Kept.charged (m : Machine σ) (amount : Budget) : Kept m (m.charged amount) :=
  ⟨rfl, rfl, rfl, .refl _, le_refl _, rfl, Nat.le_refl _, rfl, List.prefix_append _ _⟩

theorem Act.kept {m m' : Machine σ} (h : Act sys m m') : Kept m m' := by
  cases h with
  | tell es h => exact h.toUnmoved.kept (h.trace ▸ List.prefix_append _ _)
  | «begin» | violation | call | took | used | adjudicated | groupStart | checkpoint =>
    exact .of_run rfl rfl (Nat.le_refl _) rfl (List.prefix_append _ _)
  | push | clear | enlist =>
    exact .of_run rfl rfl (Nat.le_refl _) rfl (List.prefix_refl _)
  | compaction child summary p q first second fn sn h hf hs seen offered answer locals children cps state trace =>
    exact h.kept (trace ▸ List.prefix_append _ _)
  | latch observed =>
    rw [Run.latchTrustFloor_eq]
    exact ⟨rfl, rfl, rfl, .refl _, min_le_left _ _, rfl, Nat.le_refl _, rfl, List.prefix_refl _⟩
  | answer usage => exact (Kept.note m _).trans (.charged _ _)
  | asked decision granted =>
    refine (Kept.note m (.asked m.run.id decision granted)).trans ?_
    cases granted with
    | false => exact .of_run rfl rfl (Nat.le_refl _) rfl (List.prefix_refl _)
    | true =>
      exact ⟨rfl, rfl, rfl, sameRights_widen _ _, le_refl _, rfl, Nat.le_refl _, rfl,
        List.prefix_refl _⟩
  | host items wallMs =>
    refine Kept.trans ?_ (.charged _ _)
    split
    · exact .refl m
    · exact .note m _

/-- What a step adds to the trace is its own run's doing. -/
theorem Act.own {m m' : Machine σ} (h : Act sys m m') :
    ∃ es, m'.trace = m.trace ++ es ∧ ∀ e ∈ es, e.actor = m.run.id := by
  cases h with
  | tell es h => exact ⟨es, h.trace, fun e he => (h.plain e he).actor⟩
  | push | clear | latch | enlist => exact ⟨[], (List.append_nil _).symm, by simp⟩
  | «begin» | violation | call | took | used | adjudicated | groupStart | checkpoint | asked =>
    exact ⟨[_], rfl, by simp [Effect.actor]⟩
  | answer usage => exact ⟨[_, _], List.append_assoc _ _ _, by simp [Effect.actor, Machine.note]⟩
  | compaction child summary p q first second fn sn h hf hs seen offered answer locals children cps
      state trace =>
    exact ⟨_, trace,
      forall_compactionEffects hf hs (fun e he => he.actor) (fun _ _ _ => rfl) rfl⟩
  | host items wallMs h =>
    cases items with
    | nil => exact ⟨[_], rfl, by simp [Effect.actor]⟩
    | cons item rest =>
      exact ⟨[_, _], List.append_assoc _ _ _, by simp [Effect.actor, Machine.note]⟩

/-- **What no execution changes**, nested runs included. -/
theorem Runs.kept {m m' : Machine σ} (h : Runs sys m m') : Kept m m' := by
  refine Calls.relates Kept.refl (fun _ _ _ => Kept.trans) (fun _ _ => Act.kept) ?_ h
  rintro m c d m' ⟨child, state, _, rfl⟩ hbody ⟨fin, outcome, hfin, rfl⟩
  obtain ⟨es, hes, _⟩ := hfin.trace
  -- the caller's frame comes back as it was; the callee only drew identifiers and added to the trace
  have hback : Kept m ({ fin with frame := m.frame } : Machine σ) :=
    .of_run rfl rfl (hbody.fresh.trans hfin.fresh) (hfin.registry.trans hbody.registry)
      (((List.prefix_append _ _).trans hbody.trace).trans (hes ▸ List.prefix_append _ _))
  exact ((hback.trans (.note _ _)).trans (.charged _ _)).trans (.charged _ _)

/-- The same run, and nothing added that an earlier run did. -/
structure Later (m m' : Machine σ) : Prop where
  id : m'.run.id = m.run.id
  trace : ∃ es, m'.trace = m.trace ++ es ∧ ∀ e ∈ es, m.run.id ≤ e.actor

namespace Later

theorem refl (m : Machine σ) : Later m m := ⟨rfl, [], (List.append_nil _).symm, by simp⟩

theorem trans {m m' m'' : Machine σ} (h : Later m m') (h' : Later m' m'') : Later m m'' := by
  obtain ⟨es, htrace, hes⟩ := h.trace
  obtain ⟨es', htrace', hes'⟩ := h'.trace
  refine ⟨h'.id.trans h.id, es ++ es', ?_, List.forall_mem_append.mpr ⟨hes, h.id ▸ hes'⟩⟩
  rw [htrace', htrace, List.append_assoc]

theorem note (m : Machine σ) (e : Effect) (he : m.run.id ≤ e.actor) : Later m (m.note e) :=
  ⟨rfl, [e], rfl, by simpa using he⟩

theorem charged (m : Machine σ) (amount : Budget) : Later m (m.charged amount) :=
  ⟨rfl, [_], rfl, by simp [Effect.actor]⟩

end Later

/-- **An execution adds nothing done by an earlier run**: the runs it nests are later. -/
theorem Runs.later {m m' : Machine σ} (h : Runs sys m m') : Later m m' := by
  refine Calls.relates Later.refl (fun _ _ _ => Later.trans) ?_ ?_ h
  · intro s t hst
    obtain ⟨es, htrace, hes⟩ := hst.own
    exact ⟨hst.kept.id, es, htrace, fun e he => (hes e he).ge⟩
  · rintro s c d t ⟨child, state, hborn, rfl⟩ hbody ⟨fin, outcome, hfin, rfl⟩
    obtain ⟨es, htrace, hes⟩ := hbody.trace
    obtain ⟨es', htrace', hes'⟩ := hfin.trace
    have hlater : s.run.id ≤ child.id := Nat.le_of_lt hborn.later
    have hback : Later s ({ fin with frame := s.frame } : Machine σ) := by
      refine ⟨rfl, .spawned s.frame.ancestors s.run child :: es ++ es', ?_, ?_⟩
      · change fin.trace = _
        rw [htrace', htrace]
        simp [Machine.entered]
      · simp only [List.cons_append, List.forall_mem_cons, List.forall_mem_append]
        refine ⟨le_refl _, fun e he => hlater.trans (hes e he), fun e he => ?_⟩
        rw [(hes' e he).actor, hbody.id]
        exact hlater
    exact ((hback.trans (.note _ _ (le_refl _))).trans (.charged _ _)).trans (.charged _ _)

theorem Kept.nesting {m m' : Machine σ} (h : Kept m m') : nesting m'.run = nesting m.run := by
  unfold Loop.nesting
  rw [h.rights.exposedTools, h.budget]

/-! ## Executions under a bound on nesting -/

/-- An execution that begins no iteration, from a machine whose run can nest at most
`n` levels of runs. -/
def Turns (sys : Outside σ) (n : Nat) (m m' : Machine σ) : Prop :=
  nesting m.run ≤ n → Runs sys m m' ∧ m'.frame.locals.steps = m.frame.locals.steps

theorem Turns.trans {n : Nat} (m m' m'' : Machine σ) (h : Turns sys n m m')
    (h' : Turns sys n m' m'') : Turns sys n m m'' := by
  intro hn
  obtain ⟨hm, hsteps⟩ := h hn
  obtain ⟨hm', hsteps'⟩ := h' (hm.kept.nesting ▸ hn)
  exact ⟨hm.trans hm', hsteps'.trans hsteps⟩

/-- The same, and the run has come to no other step of its model. -/
def Reach (sys : Outside σ) (n : Nat) (m m' : Machine σ) : Prop :=
  nesting m.run ≤ n → Runs sys m m' ∧ m'.frame.locals.steps = m.frame.locals.steps ∧
    m'.frame.answer = m.frame.answer

namespace Reach

variable {n : Nat}

theorem refl (m : Machine σ) : Reach sys n m m := fun _ => ⟨.refl m, rfl, rfl⟩

theorem trans (m m' m'' : Machine σ) (h : Reach sys n m m') (h' : Reach sys n m' m'') :
    Reach sys n m m'' := by
  intro hn
  obtain ⟨hm, hsteps, hanswer⟩ := h hn
  obtain ⟨hm', hsteps', hanswer'⟩ := h' (hm.kept.nesting ▸ hn)
  exact ⟨hm.trans hm', hsteps'.trans hsteps, hanswer'.trans hanswer⟩

theorem turns {m m' : Machine σ} (h : Reach sys n m m') : Turns sys n m m' := by
  intro hn
  obtain ⟨hm, hsteps, -⟩ := h hn
  exact ⟨hm, hsteps⟩

theorem of_act {m m' : Machine σ} (h : Act sys m m')
    (steps : m'.frame.locals.steps = m.frame.locals.steps)
    (answer : m'.frame.answer = m.frame.answer) : Reach sys n m m' :=
  fun _ => ⟨.of_step h, steps, answer⟩

theorem of_told {m m' : Machine σ} (h : ∃ es, Told m m' es) : Reach sys n m m' := by
  obtain ⟨es, h⟩ := h
  exact of_act (.tell es h) h.steps h.answer

end Reach

/-- `f` is an execution from every machine whose run can nest at most `n` levels. -/
abbrev Steps (sys : Outside σ) (n : Nat) (f : LoopM σ α) : Prop := Stateful.Within (Reach sys n) f

/-- The same for a stage of the loop, however it ends. -/
abbrev Stages (sys : Outside σ) (n : Nat) (f : StepM σ α) : Prop := Fallible.Within (Reach sys n) f

/-- `f` adds plain effects of the run at most. -/
abbrev Tells (f : LoopM σ α) : Prop := Stateful.Within (fun m m' => ∃ es, Told m m' es) f

namespace Told

theorem refl (m : Machine σ) : Told m m [] :=
  ⟨⟨.refl _, rfl, Nat.le_refl _, rfl⟩, rfl, rfl, rfl, rfl, rfl, rfl, rfl, rfl,
    (List.append_nil _).symm, by simp⟩

/-- The run goes by the same name. -/
theorem id_eq {m m' : Machine σ} {es : List Effect} (h : Told m m' es) : m'.run.id = m.run.id := by
  obtain ⟨status, session, seq, hrun⟩ := h.run
  rw [hrun]

theorem trans {m m' m'' : Machine σ} {es es' : List Effect} (h : Told m m' es)
    (h' : Told m' m'' es') : Told m m'' (es ++ es') := by
  refine ⟨⟨h.run.trans h'.run, h'.ancestors.trans h.ancestors, h.fresh.trans h'.fresh,
    h'.registry.trans h.registry⟩, h'.state.trans h.state, h'.seen.trans h.seen,
    h'.offered.trans h.offered, h'.answer.trans h.answer, h'.steps.trans h.steps,
    h'.retries.trans h.retries, h'.children.trans h.children, h'.checkpoints.trans h.checkpoints,
    ?_, ?_⟩
  · rw [h'.trace, h.trace, List.append_assoc]
  · intro e he
    rcases List.mem_append.mp he with he | he
    · exact h.plain e he
    · exact h.id_eq ▸ h'.plain e he

/-- One plain effect, the machine otherwise as it is. -/
theorem note (m : Machine σ) (e : Effect) (h : e.PlainOf m.run.id) : Told m (m.note e) [e] :=
  ⟨⟨.refl _, rfl, Nat.le_refl _, rfl⟩, rfl, rfl, rfl, rfl, rfl, rfl, rfl, rfl, rfl,
    by simpa using h⟩

theorem withEnv (m : Machine σ) (env : σ) : Told m (m.withEnv env) [] :=
  ⟨⟨.refl _, rfl, Nat.le_refl _, rfl⟩, rfl, rfl, rfl, rfl, rfl, rfl, rfl, rfl,
    (List.append_nil _).symm, by simp⟩

theorem withProvenance (m : Machine σ) (provenance : Provenance) :
    Told m (m.withProvenance provenance) [] :=
  ⟨⟨.refl _, rfl, Nat.le_refl _, rfl⟩, rfl, rfl, rfl, rfl, rfl, rfl, rfl, rfl,
    (List.append_nil _).symm, by simp⟩

theorem withRun (m : Machine σ) (run : Run) (h : m.run.Same run) : Told m (m.withRun run) [] :=
  ⟨⟨h, rfl, Nat.le_refl _, rfl⟩, rfl, rfl, rfl, rfl, rfl, rfl, rfl, rfl, (List.append_nil _).symm,
    by simp⟩

theorem withLocals (m : Machine σ) (locals : Locals) (steps : locals.steps = m.frame.locals.steps)
    (retries : locals.contractRetries = m.frame.locals.contractRetries) :
    Told m (m.withLocals locals) [] :=
  ⟨⟨.refl _, rfl, Nat.le_refl _, rfl⟩, rfl, rfl, rfl, rfl, steps, retries, rfl, rfl,
    (List.append_nil _).symm, by simp⟩

theorem withEngine (m : Machine σ) (engine : Engine) (registry : engine.registry = m.engine.registry)
    (children : engine.children = m.engine.children)
    (checkpoints : engine.lastCheckpoints = m.engine.lastCheckpoints) :
    Told m (m.withEngine engine) [] :=
  ⟨⟨.refl _, rfl, Nat.le_refl _, registry⟩, rfl, rfl, rfl, rfl, rfl, rfl, children, checkpoints,
    (List.append_nil _).symm, by simp⟩

end Told

section Rules

variable {n : Nat} {β : Type}

theorem Tells.steps {f : LoopM σ α} (h : Tells f) : Steps sys n f := fun m => .of_told (h m)

theorem tells_refl (m : Machine σ) : ∃ es, Told m m es := ⟨[], .refl m⟩

theorem tells_trans (m m' m'' : Machine σ) : (∃ es, Told m m' es) → (∃ es, Told m' m'' es) →
    ∃ es, Told m m'' es := by
  rintro ⟨es, h⟩ ⟨es', h'⟩
  exact ⟨es ++ es', h.trans h'⟩

theorem Tells.pure (a : α) : Tells (pure a : LoopM σ α) := Stateful.Within.pure tells_refl a

theorem Tells.bind {f : LoopM σ α} {g : α → LoopM σ β} (hf : Tells f) (hg : ∀ a, Tells (g a)) :
    Tells (f >>= g) :=
  Stateful.Within.bind tells_trans hf hg

theorem Tells.read {g : Machine σ → LoopM σ β} (h : ∀ m, Tells (g m)) :
    Tells (Stateful.read >>= g) :=
  Stateful.Within.read_bind fun m => h m m

theorem Steps.pure (a : α) : Steps sys n (pure a : LoopM σ α) := Stateful.Within.pure Reach.refl a

theorem Steps.bind {f : LoopM σ α} {g : α → LoopM σ β} (hf : Steps sys n f)
    (hg : ∀ a, Steps sys n (g a)) : Steps sys n (f >>= g) :=
  Stateful.Within.bind Reach.trans hf hg

theorem Steps.each {body : α → LoopM σ Unit} (h : ∀ a, Steps sys n (body a)) (items : List α) :
    Steps sys n (Stateful.each body items) :=
  Stateful.Within.each Reach.refl Reach.trans h items

theorem Steps.read {g : Machine σ → LoopM σ β} (h : ∀ m, Steps sys n (g m)) :
    Steps sys n (Stateful.read >>= g) :=
  Stateful.Within.read_bind fun m => h m m

theorem Stages.turns {f : StepM σ α} (h : Stages sys n f) : Fallible.Within (Turns sys n) f :=
  fun m => (h m).turns

theorem Stages.pure (a : α) : Stages sys n (pure a : StepM σ α) := Fallible.Within.pure Reach.refl a

theorem Stages.bind {f : StepM σ α} {g : α → StepM σ β} (hf : Stages sys n f)
    (hg : ∀ a, Stages sys n (g a)) : Stages sys n (f >>= g) :=
  Fallible.Within.bind Reach.trans hf hg

theorem Stages.read {g : Machine σ → StepM σ β} (h : ∀ m, Stages sys n (g m)) :
    Stages sys n (Fallible.read >>= g) :=
  Fallible.Within.read_bind fun m => h m m

theorem Stages.lift {f : LoopM σ α} (h : Steps sys n f) : Stages sys n (Fallible.lift f) :=
  Fallible.Within.lift h

theorem Stages.again : Stages sys n (again : StepM σ α) := Fallible.Within.fail Reach.refl _

theorem Stages.stopWith {f : LoopM σ LoopOutcome} (h : Steps sys n f) :
    Stages sys n (stopWith f : StepM σ α) :=
  .bind (.lift h) fun _ => Fallible.Within.fail Reach.refl _

end Rules

/-! ## The primitive steps -/

section Primitive

variable {n : Nat}

theorem tells_port (f : Stateful σ α) : Tells (port f) := fun m => ⟨[], .withEnv m _⟩

theorem tells_takeCallId : Tells (takeCallId : LoopM σ Nat) := fun m =>
  ⟨[], .withEngine m _ rfl rfl rfl⟩

theorem tells_newId : Tells (newId : LoopM σ Nat) := by
  intro m
  refine ⟨[], ⟨.refl _, rfl, ?_, rfl⟩, rfl, rfl, rfl, rfl, rfl, rfl, rfl, rfl,
    (List.append_nil _).symm, by simp⟩
  change m.fresh ≤ max m.fresh (m.run.id + 1) + 1
  omega

theorem tells_setStatus (status : RunStatus) : Tells (setStatus status : LoopM σ Unit) := fun m =>
  ⟨[], .withRun m _ ⟨status, m.run.session, m.run.lastCheckpoint, rfl⟩⟩

theorem tells_setLocals (f : Locals → Locals) (steps : ∀ l, (f l).steps = l.steps)
    (retries : ∀ l, (f l).contractRetries = l.contractRetries) :
    Tells (setLocals f : LoopM σ Unit) := fun m => ⟨[], .withLocals m _ (steps _) (retries _)⟩

theorem tells_setEngine (f : Engine → Engine) (registry : ∀ e, (f e).registry = e.registry)
    (children : ∀ e, (f e).children = e.children)
    (checkpoints : ∀ e, (f e).lastCheckpoints = e.lastCheckpoints) :
    Tells (setEngine f : LoopM σ Unit) := fun m =>
  ⟨[], .withEngine m _ (registry _) (children _) (checkpoints _)⟩

theorem tells_emit (ports : Ports σ) (event : TurnEvent) : Tells (emit ports event) := fun m =>
  ⟨_, (Told.note m (.shown m.run.id event) ⟨rfl, rfl⟩).trans (.withEnv _ _)⟩

/-- The notice that an append was refused. -/
def Effect.refusedAppend (run : RunId) : Effect := .shown run (.degraded .journalAppendFailed)

theorem plain_of_notice {run : RunId} {notice : List Effect}
    (h : ∀ e ∈ notice, e = Effect.refusedAppend run) : ∀ e ∈ notice, e.PlainOf run := by
  intro e he
  rw [h e he]
  exact ⟨rfl, rfl⟩

/-- A record is one effect, and a notice when it was refused. -/
theorem record_run (ports : Ports σ) (kind : EventKind) (payload : Payload) (m : Machine σ) :
    ∃ env accepted notice,
      ((record ports kind payload).run m).2 =
        { m with
          env
          trace := m.trace ++
            .recorded m.run.id m.state.session kind payload accepted :: notice } ∧
      ∀ e ∈ notice, e = Effect.refusedAppend m.run.id := by
  let clock := ports.nowMs.run m.env
  let answered := (ports.append ⟨clock.1⟩ kind m.run.id m.state.session payload).run clock.2
  unfold record
  rw [Stateful.run_bind, Stateful.run_bind, Stateful.run_bind, Stateful.run_bind]
  split
  · exact ⟨answered.2, answered.1.isOk, [], rfl, by simp⟩
  · refine ⟨((ports.sink (.degraded .journalAppendFailed)).run answered.2).2, answered.1.isOk,
      [.refusedAppend m.run.id], ?_, fun e he => List.mem_singleton.mp he⟩
    change Machine.mk _ _ _ _ ((_ ++ [_]) ++ [_]) = _
    rw [List.append_assoc]
    rfl

theorem tells_record (ports : Ports σ) (kind : EventKind) (payload : Payload)
    (h : kind ≠ .sessionSummarized ∧ kind ≠ .sessionSpawned) :
    Tells (record ports kind payload) := by
  intro m
  obtain ⟨env, accepted, notice, hrun, hnotice⟩ := record_run ports kind payload m
  refine ⟨.recorded m.run.id m.state.session kind payload accepted :: notice, ?_⟩
  rw [hrun]
  refine ⟨⟨.refl _, rfl, Nat.le_refl _, rfl⟩, rfl, rfl, rfl, rfl, rfl, rfl, rfl, rfl, rfl, ?_⟩
  intro e he
  rcases List.mem_cons.mp he with rfl | he
  · exact ⟨by simp [Effect.isPlain, h], rfl⟩
  · exact plain_of_notice hnotice e he

theorem steps_pushBlock (b : Block) (h : b.source.tier = .volatile) :
    Steps sys n (pushBlock b) := fun m => .of_act (.push m b h) rfl rfl

theorem steps_pushNote (text : String) : Steps sys n (pushNote text : LoopM σ Unit) :=
  steps_pushBlock _ rfl

theorem steps_toolError (tool : ToolId) (why callRef : String) :
    Steps sys n (toolError tool why callRef : LoopM σ Unit) :=
  steps_pushBlock _ rfl

theorem tells_pause (ports : Ports σ) (dimension : String) : Tells (pause ports dimension) :=
  .read fun _ => (tells_record _ _ _ (by decide)).bind fun _ => (tells_emit _ _).bind fun _ =>
    (tells_setStatus _).bind fun _ => .pure _

theorem tells_fail (ports : Ports σ) (error : String) : Tells (fail ports error) :=
  (tells_record _ _ _ (by decide)).bind fun _ => (tells_setStatus _).bind fun _ => .pure _

end Primitive

end MarloweAgent.Loop
