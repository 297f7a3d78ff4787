import MarloweAgent.Loop.Refinement

/-! Runs within runs. A reader and a spawned child are born of the run that drives
them, and driving one is a call of the transition system. -/

namespace MarloweAgent.Loop
open Contract Library Tools Permission

variable {σ α : Type} {sys : Outside σ} {n : Nat}

/-- A nested driver that keeps to the transition system, for runs that can nest
fewer than `n` levels and start from their first step. -/
def Nests (sys : Outside σ) (n : Nat) (sub : SubRun σ) : Prop :=
  ∀ (ports : Ports σ) (m : Machine σ), nesting m.run < n → m.frame.locals.steps = 0 →
    m.frame.locals.contractRetries = 0 →
      ∃ done, Runs sys m done ∧ Finished done ((sub ports).run m).2

/-- A run that can nest another, within the bound. -/
def Parent (n : Nat) (m : Machine σ) : Prop := 0 < nesting m.run ∧ nesting m.run ≤ n

theorem Reach.parent (m m' : Machine σ) (h : Reach sys n m m') (hm : Parent n m) : Parent n m' := by
  have hkept := (h hm.2).1.kept
  unfold Parent
  rw [hkept.nesting]
  exact hm

/-! ## The run in the frame, untouched -/

/-- The run is the same one, charged nothing, and `id` was drawn. -/
def Drawn (run : Run) (id : Nat) (m : Machine σ) : Prop := m.run = run ∧ id < m.fresh

/-- Neither the run nor the drawn identifiers have been touched. -/
def Steady (m m' : Machine σ) : Prop := m'.run = m.run ∧ m.fresh ≤ m'.fresh

theorem Steady.drawn {run : Run} {id : Nat} (m m' : Machine σ) (h : Steady m m')
    (hm : Drawn run id m) : Drawn run id m' :=
  ⟨h.1.trans hm.1, Nat.lt_of_lt_of_le hm.2 h.2⟩

theorem steady_record (ports : Ports σ) (kind : EventLog.EventKind) (payload : Payload) :
    Stateful.Within Steady (record ports kind payload) := by
  intro m
  obtain ⟨env, accepted, notice, hrun, _⟩ := record_run ports kind payload m
  rw [hrun]
  exact ⟨rfl, Nat.le_refl _⟩

theorem steady_emit (ports : Ports σ) (event : TurnEvent) :
    Stateful.Within Steady (emit ports event) :=
  fun _ => ⟨rfl, Nat.le_refl _⟩

theorem steady_takeCallId : Stateful.Within Steady (takeCallId : LoopM σ Nat) :=
  fun _ => ⟨rfl, Nat.le_refl _⟩

theorem steady_pushBlock (b : Block) : Stateful.Within Steady (pushBlock b : LoopM σ Unit) :=
  fun _ => ⟨rfl, Nat.le_refl _⟩

theorem steady_setEngine (f : Engine → Engine) :
    Stateful.Within Steady (setEngine f : LoopM σ Unit) :=
  fun _ => ⟨rfl, Nat.le_refl _⟩

section Drawing

variable {β : Type} {run : Run} {id : Nat}

/-- A step that leaves the run untouched, before others. -/
theorem drawn_bind {f : LoopM σ α} {g : α → LoopM σ β} (hf : Steps sys n f)
    (steady : Stateful.Within Steady f)
    (hg : ∀ a, Stateful.Under (Drawn run id) (Reach sys n) (g a)) :
    Stateful.Under (Drawn run id) (Reach sys n) (f >>= g) :=
  .bind Reach.trans hf.under (steady.triple Steady.drawn) hg

/-- Two identifiers drawn for a child and its session. -/
theorem reach_newIds {g : Nat → Nat → LoopM σ α} (m : Machine σ)
    (h : ∀ childId session m', m'.run = m.run → m'.run.id < childId → childId < m'.fresh →
      Reach sys n m' ((g childId session).run m').2) :
    Reach sys n m ((newId >>= fun childId => newId >>= fun session => g childId session).run m).2 := by
  have hdraw : Reach sys n m ((newId >>= fun _ => newId).run m).2 :=
    ((tells_newId.bind fun _ => tells_newId).steps) m
  refine hdraw.trans _ _ _ (h (max m.fresh (m.run.id + 1)) _ _ rfl ?_ ?_)
  · exact Nat.lt_of_lt_of_le (Nat.lt_succ_self _) (Nat.le_max_right m.fresh _)
  · change _ < max (max m.fresh (m.run.id + 1) + 1) (m.run.id + 1) + 1
    omega

end Drawing

/-! ## Driving a child -/

/-- **Driving a child is a call.** -/
theorem runChild_reach {sub : SubRun σ} (hsub : Nests sys n sub) (ports : Ports σ) (child : Run)
    (state : SessionState) (m : Machine σ) (h : Born m child) :
    Reach sys n m ((runChild sub ports child state).run m).2 := by
  intro hn
  obtain ⟨done, hruns, hfin⟩ := hsub ports (m.entered child state)
    (Nat.lt_of_lt_of_le h.nests hn) rfl rfl
  exact ⟨.of_call ⟨child, state, h, rfl⟩ hruns ⟨_, _, hfin, rfl⟩, rfl, rfl⟩

/-- What a child is called with once its budget and profile are settled. -/
theorem born_child {m : Machine σ} {run : Run} {childId : RunId} {session : SessionId}
    {profile : CapabilityProfile} {budget : Budget} {policy : OrphanPolicy}
    {contract : OutputContract} (hm : Drawn run childId m) (hlater : run.id < childId)
    (how : ChildOf run (.child childId run session profile budget policy contract))
    (hnests : nesting (.child childId run session profile budget policy contract) < nesting run) :
    Born m (.child childId run session profile budget policy contract) := by
  obtain ⟨hrun, hdrawn⟩ := hm
  refine ⟨?_, hdrawn, rfl, ?_, ?_, ?_⟩ <;> rw [hrun]
  · exact hlater
  · rfl
  · exact how
  · exact hnests

/-- A reader nests nothing. -/
theorem reader_nests {run : Run} {childId : RunId} {session : SessionId} {budget : Budget}
    {policy : OrphanPolicy} {contract : OutputContract} (h : 0 < nesting run) :
    nesting (.child childId run session .quarantinedReader budget policy contract) < nesting run :=
  h

/-! ## Quarantined reads -/

/-- Blocks of the conversation, pushed in turn. -/
theorem steps_pushBlocks (blocks : List Block) (h : ∀ b ∈ blocks, b.source.tier = .volatile) :
    Steps sys n (Stateful.each pushBlock blocks) := by
  induction blocks with
  | nil => exact .pure ()
  | cons b rest ih =>
    exact (steps_pushBlock b (h b List.mem_cons_self)).bind fun _ =>
      ih fun b' hb => h b' (List.mem_cons_of_mem _ hb)

theorem answeredNotes_volatile (answer : ReaderAnswer) (i k : Nat)
    (hits : List (PendingRead × Option String)) :
    ∀ b ∈ answeredNotes answer i k hits, b.source.tier = .volatile := by
  induction hits generalizing i k with
  | nil => intro b hb; cases hb
  | cons hit rest ih =>
    obtain ⟨p, cached⟩ := hit
    intro b hb
    cases cached with
    | some cached =>
      rcases List.mem_cons.mp hb with rfl | hb
      · rfl
      · exact ih _ _ b hb
    | none =>
      rcases List.mem_cons.mp hb with rfl | hb
      · rfl
      · exact ih _ _ b hb

theorem tells_recordReaderFailure (ports : Ports σ) (child : RunId) (contract : OutputContract)
    (outcome : LoopOutcome) : Tells (recordReaderFailure ports child contract outcome) := by
  cases outcome with
  | completed result =>
    unfold recordReaderFailure
    dsimp only
    split
    · exact .pure _
    · exact (tells_record _ _ _ (by decide)).bind fun _ => .pure _
  | _ => exact (tells_record _ _ _ (by decide)).bind fun _ => .pure _

/-- The reader of a chunk's sources is a child of the run. -/
theorem readSources_reach {sub : SubRun σ} (hsub : Nests sys n sub) (ports : Ports σ)
    (childBudget : Budget) (fresh : List PendingRead) (m : Machine σ)
    (hslice : m.run.budget.sliceForQuarantinedRead m.run.spent = some childBudget)
    (hnest : 0 < nesting m.run) :
    Reach sys n m ((readSources ports sub childBudget fresh).run m).2 := by
  unfold readSources
  refine reach_newIds m fun childId session m' hrun hlater hdrawn => ?_
  rw [Stateful.run_bind, Stateful.run_read]
  refine (drawn_bind (tells_record ports .runSpawned _ (by decide)).steps (steady_record _ _ _)
    fun _ => drawn_bind tells_takeCallId.steps steady_takeCallId fun line =>
      drawn_bind (tells_emit _ _).steps (steady_emit _ _) fun _ => ?_) m' ⟨rfl, hdrawn⟩
  refine .bind (B := fun _ => True) Reach.trans ?_ (fun _ _ => trivial) ?_
  · intro m₁ hm₁
    refine runChild_reach hsub _ _ _ m₁ (born_child hm₁ hlater (.reader rfl ?_) (reader_nests ?_))
    · rw [hrun]
      exact hslice
    · rw [hrun]
      exact hnest
  · rintro ⟨outcome, frame⟩
    exact ((tells_recordReaderFailure _ _ _ _).steps.bind fun _ =>
      (tells_emit _ _).steps.bind fun _ => .pure _).under

theorem condenseChunk_under {sub : SubRun σ} (hsub : Nests sys n sub) (ports : Ports σ)
    (chunk : List PendingRead) :
    Stateful.Under (Parent n) (Reach sys n) (condenseChunk sys ports sub chunk) := by
  intro m hm
  unfold condenseChunk
  rw [Stateful.run_bind, Stateful.run_read, Stateful.run_bind]
  let hits := cacheHits sys m.engine.condensed chunk
  refine Reach.trans m (m.note (.consulted m.run.id (hits.map Prod.snd))) _ ?_ ?_
  · exact .of_told ⟨_, .note m _ ⟨rfl, rfl⟩⟩
  dsimp only
  rw [Stateful.run_ite]
  split
  · exact steps_pushBlocks _ (answeredNotes_volatile _ _ _ _) _
  · cases hslice : m.run.budget.sliceForQuarantinedRead m.run.spent with
    | none =>
      refine steps_pushBlocks _ ?_ _
      intro b hb
      obtain ⟨p, -, rfl⟩ := List.mem_map.mp hb
      rfl
    | some childBudget =>
      dsimp only
      rw [Stateful.run_bind]
      refine Reach.trans _ _ _
        (readSources_reach hsub ports childBudget (freshReads hits) _ hslice hm.1) ?_
      refine Steps.bind (Tells.steps (tells_setEngine _ ?_ ?_ ?_)) (fun _ => ?_) _
      · exact fun _ => rfl
      · exact fun _ => rfl
      · exact fun _ => rfl
      · exact steps_pushBlocks _ (answeredNotes_volatile _ _ _ _)

/-- Reading what waits: a run that has something waiting can nest a reader. -/
theorem condenseBatch_reach {sub : SubRun σ} (hsub : Nests sys n sub) (ports : Ports σ)
    (pending : List PendingRead) (m : Machine σ) (h : pending ≠ [] → 0 < nesting m.run) :
    Reach sys n m ((condenseBatch sys ports sub pending).run m).2 := by
  intro hn
  cases pending with
  | nil => exact Reach.refl m hn
  | cons p rest =>
    exact Stateful.Under.each Reach.refl Reach.trans Reach.parent _
      (fun chunk _ => condenseChunk_under hsub ports chunk) m ⟨h (by simp), hn⟩ hn

/-! ## Spawned children -/

/-- What an admitted spawn was admitted under. -/
theorem admitSpawn_ok {run : Run} {req : SpawnRequest} {budget : Budget}
    {profile : CapabilityProfile} (h : admitSpawn run req = .ok (budget, profile)) :
    run.profile.mayCreateAgents = true ∧
      run.budget.grant run.spent req.share req.grantTokens = .ok budget ∧
      run.spent.subagents < run.budget.subagents ∧
      (∀ t ∈ req.tools, run.profile.exposedTools.contains t = true) ∧
      ∃ level, AgentLevel.childOf run.profile.level req.disposition = .ok level ∧
        childProfile run req level = .ok profile := by
  unfold admitSpawn at h
  split at h
  · cases h
  rename_i hcreate
  split at h
  · cases h
  split at h
  · cases h
  split at h
  · cases h
  split at h
  · cases h
  rename_i granted hgrant
  split at h
  · cases h
  rename_i hagents
  split at h
  · cases h
  rename_i hfind
  split at h
  · cases h
  rename_i level hlevel
  split at h
  · cases h
  rename_i built hbuilt
  cases h
  refine ⟨by simpa using hcreate, hgrant, Nat.lt_of_not_le hagents, ?_, level, hlevel, hbuilt⟩
  intro t ht
  have := List.find?_eq_none.mp hfind t ht
  simpa using this

/-- A run that may create agents holds a tool. -/
theorem nesting_of_create {run : Run} (h : run.profile.mayCreateAgents = true) :
    nesting run = run.budget.depth + 1 := by
  unfold nesting
  rw [if_neg]
  intro hempty
  unfold CapabilityProfile.mayCreateAgents ExposedSet.contains at h
  simp_all [ExposedSet.isEmpty]

theorem spawned_nests {run child : Run} {req : SpawnRequest} {profile : CapabilityProfile}
    (h : admitSpawn run req = .ok (child.budget, profile)) : nesting child < nesting run := by
  obtain ⟨hcreate, hgrant, -⟩ := admitSpawn_ok h
  have hdepth := (Budget.grant_fits hgrant).2
  rw [nesting_of_create hcreate]
  unfold nesting
  split <;> omega

theorem tells_recordChildEnd (ports : Ports σ) (child : RunId) (outcome : LoopOutcome) :
    Tells (recordChildEnd ports child outcome) := by
  cases outcome with
  | escalated | failed => exact (tells_record _ _ _ (by decide)).bind fun _ => .pure _
  | _ => exact .pure _

/-- The reader of a child's report is a child of the run too. -/
theorem validatedHeadline_under {sub : SubRun σ} (hsub : Nests sys n sub) (ports : Ports σ)
    (prose : String) :
    Stateful.Under (Parent n) (Reach sys n) (validatedHeadline ports sub prose) := by
  intro m hm
  unfold validatedHeadline
  rw [Stateful.run_bind, Stateful.run_read]
  dsimp only
  rw [Stateful.run_ite]
  split
  · exact Reach.refl m
  · cases hslice : m.run.budget.sliceForQuarantinedRead m.run.spent with
    | none => exact Reach.refl m
    | some childBudget =>
      refine reach_newIds m fun childId session m' hrun hlater hdrawn => ?_
      refine (?_ : Stateful.Under (Drawn m.run childId) (Reach sys n) _) m' ⟨hrun, hdrawn⟩
      refine drawn_bind (tells_record ports .runSpawned _ (by decide)).steps (steady_record _ _ _)
        fun _ => .bind (B := fun _ => True) Reach.trans ?_ (fun _ _ => trivial) ?_
      · intro m₁ hm₁
        exact runChild_reach hsub _ _ _ m₁
          (born_child hm₁ (hrun ▸ hlater) (.reader rfl hslice) (reader_nests hm.1))
      · rintro ⟨outcome, frame⟩ m₁ -
        cases outcome with
        | completed result =>
          dsimp only
          split <;> exact Reach.refl m₁
        | _ => exact Reach.refl m₁

theorem upwardNote_under {sub : SubRun σ} (hsub : Nests sys n sub) (ports : Ports σ)
    (completed : Bool) (prose : Option String) (typed : String) :
    Stateful.Under (Parent n) (Reach sys n) (upwardNote ports sub completed prose typed) := by
  intro m hm
  unfold upwardNote
  rw [Stateful.run_bind, Stateful.run_read]
  dsimp only
  cases m.engine.upwardShape with
  | typed | freeText => exact Reach.refl m
  | typedPlusValidatedSentence =>
    dsimp only
    cases prose.filter fun _ => completed with
    | none => exact Reach.refl m
    | some prose =>
      refine Stateful.Under.bind (B := fun _ => True) Reach.trans
        (validatedHeadline_under hsub ports prose) (fun _ _ => trivial) ?_ m hm
      intro headline m₁ _
      cases headline <;> exact Reach.refl m₁

/-- An admitted spawn: the child is enlisted, driven and settled with. -/
theorem spawnAdmitted_reach {sub : SubRun σ} (hsub : Nests sys n sub) (ports : Ports σ)
    (req : SpawnRequest) (budget : Budget) (profile : CapabilityProfile) (m : Machine σ)
    (h : admitSpawn m.run req = .ok (budget, profile)) :
    Reach sys n m ((spawnAdmitted sys ports sub req budget profile).run m).2 := by
  intro hn
  have hparent : Parent n m := by
    refine ⟨?_, hn⟩
    rw [nesting_of_create (admitSpawn_ok h).1]
    omega
  refine (?_ : Reach sys n m _) hn
  unfold spawnAdmitted
  refine reach_newIds m fun childId session m' hrun hlater hdrawn => ?_
  rw [Stateful.run_bind, Stateful.run_read]
  have hadmit : admitSpawn m'.run req = .ok (budget, profile) := by rwa [hrun]
  refine (drawn_bind (tells_record ports .runSpawned _ (by decide)).steps (steady_record _ _ _)
    fun _ => .bind (B := Drawn m'.run childId) Reach.trans ?_
      ((steady_setEngine _).triple Steady.drawn) fun _ => ?_) m' ⟨rfl, hdrawn⟩
  · intro m₁ hm₁
    have henlist : Act sys m₁ _ := .enlist m₁ childId req.orphan (by rw [hm₁.1]; exact hlater)
    rw [hm₁.1] at henlist
    exact .of_act henlist rfl rfl
  refine drawn_bind (steps_pushNote _) (steady_pushBlock _) fun _ =>
    drawn_bind tells_takeCallId.steps steady_takeCallId fun line =>
      drawn_bind (steps_pushBlock _ rfl) (steady_pushBlock _) fun _ =>
        drawn_bind (tells_emit _ _).steps (steady_emit _ _) fun _ => ?_
  have hchild : Stateful.Under (Drawn m'.run childId) (Reach sys n)
      (runChild sub ports.forChild (.child childId m'.run session profile budget req.orphan
        req.contract) ((childWindow session m'.state).push
          (.new .brief (childBrief req) .agentInferred))) := by
    intro m₁ hm₁
    exact runChild_reach hsub _ _ _ m₁
      (born_child hm₁ hlater (.spawned req hadmit) (spawned_nests hadmit))
  refine .bind (B := Parent n) Reach.trans hchild
    (hchild.triple fun s t hst hs => hst.parent _ _ ?_) ?_
  · have hs' : s.run = m.run := hs.1.trans hrun
    unfold Parent
    rw [hs']
    exact hparent
  · rintro ⟨outcome, frame⟩
    have hend : Steps sys n (recordChildEnd ports childId outcome) :=
      (tells_recordChildEnd _ _ _).steps
    refine .bind (B := Parent n) Reach.trans hend.under (hend.triple Reach.parent) fun _ => ?_
    refine .bind (B := fun _ => True) Reach.trans (upwardNote_under hsub _ _ _ _)
      (fun _ _ => trivial) fun note => ?_
    exact ((tells_emit _ _).steps.bind fun _ => steps_pushBlock _ rfl).under

/-- A step of its model is acted on for this run. -/
def Acting (run : Run) (step : ModelStep) (m : Machine σ) : Prop :=
  ∃ offered, m.frame.answer = some ⟨run, offered, step⟩

theorem Told.acting {run : Run} {step : ModelStep} {m m' : Machine σ} {es : List Effect}
    (h : Told m m' es) (hm : Acting run step m) : Acting run step m' :=
  hm.imp fun _ hanswer => h.answer.trans hanswer

/-- What the step permits may take effect. -/
theorem Acting.uses_reach {run : Run} {step : ModelStep} {m : Machine σ} (h : Acting run step m)
    (tool : ToolId) (permits : ∀ offered, Answer.Permits ⟨run, offered, step⟩ tool) :
    Reach sys n m ((uses [tool]).run m).2 := by
  obtain ⟨offered, hanswer⟩ := h
  refine .of_act (.used m [tool] ⟨_, hanswer, fun t ht => ?_⟩) rfl rfl
  rw [List.mem_singleton.mp ht]
  exact permits offered

theorem spawn_reach {sub : SubRun σ} (hsub : Nests sys n sub) (ports : Ports σ)
    (req : SpawnRequest) (m : Machine σ) (hm : Acting m.run (.spawn req) m) :
    Reach sys n m ((spawn sys ports sub req).run m).2 := by
  unfold spawn
  rw [Stateful.run_bind, Stateful.run_read]
  cases h : admitSpawn m.run req with
  | error why =>
    exact (tells_takeCallId.steps.bind fun _ => (tells_emit _ _).steps.bind fun _ =>
      steps_toolError _ _ _) m
  | ok admitted =>
    obtain ⟨budget, profile⟩ := admitted
    have hused : Reach sys n m ((uses [⟨"run"⟩]).run m).2 :=
      hm.uses_reach ⟨"run"⟩ fun _ => ⟨rfl, (budget, profile), h⟩
    exact hused.trans _ _ _ (spawnAdmitted_reach hsub ports req budget profile _ h)

end MarloweAgent.Loop
