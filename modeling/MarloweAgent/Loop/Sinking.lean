import MarloweAgent.Loop.Latch
import MarloweAgent.Loop.Passage

/-! A floor only sinks. A session's floor never rises in a drive, and a session or a run
whose floor blocks composed targets has every call of its drive judged under such a floor,
in the runs nested in it too: nothing is judged before the model is called, and the call
latches the floor. -/

namespace MarloweAgent.Loop
open Contract Library Tools Permission
open Fallible (lift)

variable {σ α : Type} {sys : Outside σ}

theorem blocks_of_le {floor floor' : TrustClass} (h : floor' ≤ floor)
    (hb : blocksComposedTargets floor = true) : blocksComposedTargets floor' = true :=
  decide_eq_true (h.trans (of_decide_eq_true hb))

/-! ## The session -/

/-- Every skill block is of the user's class. -/
def SkillsVouched (blocks : List Block) : Prop :=
  ∀ b ∈ blocks, b.source = .skills → b.trust = .userAsserted

theorem skillsVouched_append {blocks blocks' : List Block} :
    SkillsVouched (blocks ++ blocks') ↔ SkillsVouched blocks ∧ SkillsVouched blocks' :=
  List.forall_mem_append

theorem skillsVouched_maskOldest (n : Nat) {blocks : List Block} (h : SkillsVouched blocks) :
    SkillsVouched (Assembler.maskOldest n blocks).1 := by
  induction blocks generalizing n with
  | nil => exact h
  | cons b rest ih =>
    obtain ⟨hb, hrest⟩ := List.forall_mem_cons.mp h
    simp only [Assembler.maskOldest]
    split
    · split <;> exact List.forall_mem_cons.mpr ⟨hb, ih _ hrest⟩
    · exact List.forall_mem_cons.mpr ⟨hb, ih _ hrest⟩

theorem takeLive_subset (blocks : List Block) : ∀ b ∈ (Assembler.takeLive blocks).2, b ∈ blocks := by
  induction blocks with
  | nil => exact fun b hb => by cases hb
  | cons first rest ih =>
    intro b hb
    simp only [Assembler.takeLive] at hb
    split at hb
    · rename_i others live heq
      rw [heq] at ih
      exact List.mem_cons_of_mem _ (ih b hb)
    · split at hb
      · cases hb
        exact List.mem_cons_self
      · cases hb

theorem SessionState.skillsVouched_apply {state : SessionState} {op : SessionOp}
    (hop : op.Skilless) (h : SkillsVouched state.sources) :
    SkillsVouched (state.apply op).sources := by
  cases op with
  | push b =>
    have hb : SkillsVouched [b] := fun b' hb' hskills => by
      rw [List.mem_singleton.mp hb'] at hskills
      exact absurd hskills hop
    show SkillsVouched (state.push b).sources
    unfold SessionState.push
    split
    · exact h
    · simp only [sources, stableBlocks, skillsVouched_append] at h ⊢
      exact ⟨⟨h.1.1, h.1.2, hb⟩, h.2⟩
    · simp only [sources, stableBlocks, skillsVouched_append] at h ⊢
      exact ⟨h.1, h.2, hb⟩
  | assemble => exact h
  | clearToolResults keep =>
    rw [sources, skillsVouched_append] at h
    exact skillsVouched_append.mpr ⟨h.1, skillsVouched_maskOldest _ h.2⟩
  | compact assembler child summary cache =>
    rw [sources, skillsVouched_append] at h
    refine skillsVouched_append.mpr ⟨h.1, List.forall_mem_cons.mpr ⟨fun hskills => ?_, fun b hb => ?_⟩⟩
    · cases hskills
    · exact h.2 b (takeLive_subset _ b (Option.mem_toList.mp hb))

/-- What an execution does to the floors of a session and its run. -/
structure Sinks (m m' : Machine σ) : Prop where
  run : m'.run.trustFloor ≤ m.run.trustFloor
  state : m'.state.trustFloor ≤ m.state.trustFloor
  skills : SkillsVouched m.state.sources → SkillsVouched m'.state.sources
  /-- The session is no better than anything its model was shown. -/
  seen : (∀ state ∈ m.frame.seen, m.state.trustFloor ≤ state.trustFloor) →
    ∀ state ∈ m'.frame.seen, m'.state.trustFloor ≤ state.trustFloor

section Executions

variable {said : σ → Set String} {judging : Prop} {m m' : Machine σ}

theorem Sinks.trans (m m' m'' : Machine σ) (h : Sinks m m') (h' : Sinks m' m'') : Sinks m m'' :=
  ⟨h'.run.trans h.run, h'.state.trans h.state, fun hs => h'.skills (h.skills hs),
    fun hs => h'.seen (h.seen hs)⟩

theorem Sinks.of_same (run : m'.run.trustFloor ≤ m.run.trustFloor) (state : m'.state = m.state)
    (seen : m'.frame.seen = m.frame.seen) : Sinks m m' := by
  refine ⟨run, ?_, ?_, ?_⟩ <;> rw [state]
  · exact id
  · rw [seen]
    exact id

theorem Change.sinks (h : Change sys said judging m m') : Sinks m m' := by
  cases h with
  | run run h => exact .of_same h rfl rfl
  | state op h =>
    exact ⟨le_refl _, m.state.apply_trustFloor op, SessionState.skillsVouched_apply h,
      fun hseen state hstate => (m.state.apply_trustFloor op).trans (hseen state hstate)⟩
  | shown =>
    refine ⟨le_refl _, le_refl _, id, fun hseen => ?_⟩
    exact List.forall_mem_append.mpr ⟨hseen, by simp⟩
  | env | heard | note | consulted | judged | aside | engine | cached | drawn =>
    exact .of_same (le_refl _) rfl rfl

theorem Goes.sinks (h : Goes sys said judging m m') : Sinks m m' := by
  refine Calls.relates (fun _ => .of_same (le_refl _) rfl rfl) Sinks.trans
    (fun _ _ => Change.sinks) ?_ h
  rintro m c d m' - - rfl
  exact .of_same (le_refl _) rfl rfl

/-! ## Under a floor that blocks -/

def Effect.UnderLatch : Effect → Prop
  | .adjudicated run _ _ _ => blocksComposedTargets run.trustFloor = true
  | _ => True

/-- What is added to the trace was judged under a floor that blocks. -/
def Latching (m m' : Machine σ) : Prop :=
  ∃ es, m'.trace = m.trace ++ es ∧ ∀ e ∈ es, e.UnderLatch

namespace Latching

theorem refl (m : Machine σ) : Latching m m := ⟨[], (List.append_nil _).symm, by simp⟩

theorem trans (m m' m'' : Machine σ) (h : Latching m m') (h' : Latching m' m'') :
    Latching m m'' := by
  obtain ⟨es, htrace, hes⟩ := h
  obtain ⟨es', htrace', hes'⟩ := h'
  exact ⟨es ++ es', by rw [htrace', htrace, List.append_assoc],
    List.forall_mem_append.mpr ⟨hes, hes'⟩⟩

end Latching

theorem Effect.underLatch_of_not {e : Effect} (h : e.isJudgement = false) : e.UnderLatch := by
  cases e with
  | adjudicated => cases h
  | _ => trivial

theorem Effect.PlainOf.underLatch {run : RunId} {e : Effect} (h : e.PlainOf run) : e.UnderLatch := by
  cases e <;> first | trivial | cases h.plain

/-- An execution that judges nothing. -/
theorem Goes.latching (h : Goes sys said False m m') : Latching m m' := by
  refine Calls.relates Latching.refl Latching.trans ?_ ?_ h
  · intro m m' hchange
    cases hchange with
    | note e h =>
      exact ⟨[e], rfl, by simpa using Effect.underLatch_of_not (Bool.or_eq_false_iff.mp h).1⟩
    | consulted chunk => exact ⟨[_], rfl, by simp [Effect.UnderLatch]⟩
    | judged h => exact h.elim
    | env | heard | run | aside | engine | cached | state | shown | drawn => exact .refl _
  · rintro m c d m' ⟨frame, -, -, rfl⟩ hbody rfl
    exact hbody

/-- **A latched floor is inherited**: every call of the run, and of the runs it nests, is
judged under one that blocks. -/
theorem Runs.latching (h : Runs sys m m') (hm : blocksComposedTargets m.run.trustFloor = true) :
    Latching m m' := by
  refine (Calls.relates (R := fun m m' : Machine σ => blocksComposedTargets m.run.trustFloor = true →
    blocksComposedTargets m'.run.trustFloor = true ∧ Latching m m') (fun m hm => ⟨hm, .refl m⟩)
    ?_ ?_ ?_ h hm).2
  · intro m m' m'' h h' hm
    exact ⟨(h' (h hm).1).1, (h hm).2.trans _ _ _ (h' (h hm).1).2⟩
  · intro m m' hact hm
    refine ⟨blocks_of_le hact.kept.floor hm, ?_⟩
    cases hact with
    | tell es h => exact ⟨es, h.trace, fun e he => (h.plain e he).underLatch⟩
    | push | clear | latch | enlist => exact ⟨[], (List.append_nil _).symm, by simp⟩
    | «begin» | violation | call | took | used | groupStart | checkpoint | asked =>
      exact ⟨[_], rfl, by simp [Effect.UnderLatch]⟩
    | adjudicated => exact ⟨[_], rfl, by simpa [Effect.UnderLatch] using hm⟩
    | answer =>
      exact ⟨[_, _], List.append_assoc _ _ _, by simp [Effect.UnderLatch, Machine.note]⟩
    | compaction child summary p q first second fn sn h hf hs seen offered answer locals children
        cps state trace =>
      exact ⟨_, trace, forall_compactionEffects hf hs (fun e he => he.underLatch)
        (fun _ _ _ => trivial) trivial⟩
    | host items wallMs h =>
      cases items with
      | nil => exact ⟨[_], rfl, by simp [Effect.UnderLatch]⟩
      | cons item rest =>
        exact ⟨[_, _], List.append_assoc _ _ _, by simp [Effect.UnderLatch, Machine.note]⟩
  · rintro m c d m' ⟨child, state, hborn, rfl⟩ hbody ⟨fin, outcome, hfin, rfl⟩ hm
    refine ⟨hm, ?_⟩
    obtain ⟨-, es, htrace, hes⟩ := hbody (hborn.floor ▸ hm)
    obtain ⟨es', htrace', hes'⟩ := hfin.trace
    let back : List Effect := [.returned m.run fin.run outcome,
      .charged { m.run with spent := m.run.spent.add fin.run.spent }, .charged (fin.backIn m outcome).run]
    refine ⟨.spawned m.frame.ancestors m.run child :: es ++ es' ++ back, ?_, ?_⟩
    · have hentered : (m.entered child state).trace =
          m.trace ++ [.spawned m.frame.ancestors m.run child] := rfl
      have hback : (fin.backIn m outcome).trace = fin.trace ++ back := by
        rw [Machine.backIn]
        simp only [Machine.charged, Machine.note, Machine.withRun, List.append_assoc]
        rfl
      rw [hback, htrace', htrace, hentered]
      simp only [List.append_assoc, List.cons_append, List.nil_append]
    · refine List.forall_mem_append.mpr ⟨List.forall_mem_append.mpr
        ⟨List.forall_mem_cons.mpr ⟨trivial, hes⟩, fun e he => (hes' e he).underLatch⟩, ?_⟩
      simp [back, Effect.UnderLatch]

/-! ## Under a session that blocks -/

/-- From a session whose floor blocks, calls are judged under such a floor only, and the
session keeps its own. -/
def Latches (sys : Outside σ) (n : Nat) (m m' : Machine σ) : Prop :=
  nesting m.run ≤ n → blocksComposedTargets m.state.trustFloor = true →
    Runs sys m m' ∧ blocksComposedTargets m'.state.trustFloor = true ∧ Latching m m'

theorem Latches.trans {n : Nat} (m m' m'' : Machine σ) (h : Latches sys n m m')
    (h' : Latches sys n m' m'') : Latches sys n m m'' := by
  intro hn hm
  obtain ⟨hruns, hm', hlatching⟩ := h hn hm
  obtain ⟨hruns', hm'', hlatching'⟩ := h' (hruns.kept.nesting ▸ hn) hm'
  exact ⟨hruns.trans hruns', hm'', hlatching.trans _ _ _ hlatching'⟩

/-- What judges nothing. -/
theorem Latches.of_goes {n : Nat} (hgoes : Goes sys said False m m') (hturns : Turns sys n m m') :
    Latches sys n m m' :=
  fun hn hm => ⟨(hturns hn).1, blocks_of_le hgoes.sinks.state hm, hgoes.latching⟩

end Executions

section Loops

variable {m : Machine σ} {n : Nat} {sub : SubRun σ}

/-- Calling the model latches the floor of the view it is called with. -/
theorem callWith_floor (sys : Outside σ) (ports : Ports σ) (view : ContextView) (m : Machine σ)
    (hstable : view.stable ≠ []) :
    ((callWith ports view).run m).2.run.trustFloor ≤ view.trustFloor := by
  let sent := sentView view m.frame.locals.pendingNudge m.frame.locals.lastReasoning
  let quieted := m.withLocals { m.frame.locals with pendingNudge := "" }
  let latched := ((latchFloor ports sent).run quieted).2
  have hlatched : latched.run.trustFloor ≤ sent.trustFloor := by
    obtain ⟨es, htold⟩ := latchFloor_told ports sent quieted
    obtain ⟨_, _, _, hrun⟩ := htold.run
    rw [hrun]
    show (quieted.run.latchTrustFloor sent.trustFloor).1.trustFloor ≤ _
    rw [Run.latchTrustFloor_floor]
    exact min_le_right _ _
  have hcalled : Goes sys (fun _ => Set.univ) False latched ((callWith ports view).run m).2 :=
    changes_callLatched (hearing_univ ports) sent latched
  exact hcalled.sinks.run.trans (hlatched.trans (sentView_trustFloor view _ _ hstable))

/-- A turn of such a session judges what its model asks for, after the call. -/
theorem turn_latches (hsub : Nests sys n sub) (hchanges : SubChanges sys (fun _ => Set.univ) sub)
    (ports : Ports σ) : Fallible.Within (Latches sys n) (turn sys ports sub) := by
  have hp := hearing_univ ports
  rw [turn_eq]
  refine .bind Latches.trans (fun m => .of_goes (stageChanges_checkCancelled hp m)
    ((stages_checkCancelled ports).turns m)) fun _ => ?_
  refine .bind Latches.trans (fun m => .of_goes (changes_takeSteer hp m)
    ((Stages.lift (steps_takeSteer ports)).turns m)) fun _ m => ?_
  have hassembled : Latches sys n m ((assembleView sys ports).run m).2 :=
    .of_goes (stageChanges_assembleView hp m) ((stages_assembleView ports).turns m)
  refine Fallible.bind_at hassembled fun view m₁ hview hlatches => hlatches.trans _ _ _ ?_
  obtain ⟨hstable, hbounds⟩ := assembleView_bounds ports m m₁ view hview
  rw [Fallible.lift_bind_run]
  intro hn hm₁
  let called := (callWith ports view).run m₁
  have hruns : Runs sys m₁ called.2 := (callWith_reach ports view m₁ hstable hbounds hn).1
  have hgoes : Goes sys (fun _ => Set.univ) False m₁ called.2 := changes_callWith hp view m₁
  have hlow : view.trustFloor ≤ m₁.state.trustFloor :=
    (le_floorOf_iff m₁.state.sources_ne_nil).mpr hbounds
  have hfloor : blocksComposedTargets called.2.run.trustFloor = true :=
    blocks_of_le ((callWith_floor sys ports view m₁ hstable).trans hlow) hm₁
  have hrest := (answerTurn_turns hsub ports called.1 called.2 (hruns.kept.nesting ▸ hn)).1
  have hanswered := stageChanges_answerTurn (fun _ _ _ _ _ => Set.subset_univ _) hchanges hp called.1
    called.2
  exact ⟨hruns.trans hrest, blocks_of_le (hgoes.sinks.trans _ _ _ hanswered.sinks).state hm₁,
    hgoes.latching.trans _ _ _ (hrest.latching hfloor)⟩

theorem iterate_latches (hsub : Nests sys n sub)
    (hchanges : SubChanges sys (fun _ => Set.univ) sub) (ports : Ports σ) :
    Stateful.Within (Latches sys n) (iterate sys ports sub) := by
  intro m
  rw [iterate_state]
  rcases @iterationBody_cases σ sys ports sub m with ⟨dimension, hstop⟩ | ⟨hbound, hgo⟩
  · rw [hstop]
    exact .of_goes (StageChanges.stopWith (changes_pause (hearing_univ ports) dimension) m)
      ((Stages.stopWith (tells_pause ports dimension).steps).turns m)
  · rw [hgo]
    intro hn hm
    obtain ⟨hruns, hm', hlatching⟩ := turn_latches hsub hchanges ports m.begun hn hm
    have hbegun : Latching m m.begun := ⟨[.iteration m.run.id], rfl, by simp [Effect.UnderLatch]⟩
    exact ⟨.trans (.of_step (.begin m hbound)) hruns, hm', hbegun.trans _ _ _ hlatching⟩

/-- A loop in a session that blocks judges nothing but under a floor that does. -/
theorem driveInner_latches (hsub : Nests sys n sub)
    (hchanges : SubChanges sys (fun _ => Set.univ) sub) (ports : Ports σ)
    (resumedSteps resumedRetries : Nat) (m : Machine σ) (hn : nesting m.run ≤ n)
    (hm : blocksComposedTargets m.state.trustFloor = true) :
    Latching m ((driveInner sys sub ports resumedSteps resumedRetries).run m).2 := by
  let started := (m.withRun { m.run with status := .running }).withLocals
    { steps := resumedSteps, contractRetries := resumedRetries }
  show Latching started ((Stateful.repeatUntil (iterate sys ports sub) stuck
    (maxSteps - resumedSteps + 1)).run started).2
  have hless : maxSteps - started.frame.locals.steps < maxSteps - resumedSteps + 1 := by
    show maxSteps - resumedSteps < maxSteps - resumedSteps + 1
    omega
  refine (Stateful.repeatUntil_at (R := fun s t : Machine σ => Runs sys s t ∧
      t.state.trustFloor ≤ s.state.trustFloor ∧ Latching s t)
    (P := fun m => nesting m.run ≤ n ∧ blocksComposedTargets m.state.trustFloor = true)
    (f := fun m => maxSteps - m.frame.locals.steps) ?_ ?_ ?_ ?_ _ started ⟨hn, hm⟩ hless).2.2
  · exact fun s t u h h' => ⟨h.1.trans h'.1, h'.2.1.trans h.2.1, h.2.2.trans _ _ _ h'.2.2⟩
  · exact fun s t h hs => ⟨h.1.kept.nesting ▸ hs.1, blocks_of_le h.2.1 hs.2⟩
  · intro s hs
    obtain ⟨hruns, -, hlatching⟩ := iterate_latches hsub hchanges ports s hs.1 hs.2
    have hgoes := changes_iterate (fun _ _ _ _ _ => Set.subset_univ _) hchanges
      (hearing_univ ports) s
    exact ⟨hruns, hgoes.sinks.state, hlatching⟩
  · exact fun s hs => iterate_goes_round hsub ports s hs.1

theorem Finished.latching {m m' : Machine σ} (h : Finished m m') : Latching m m' := by
  obtain ⟨es, htrace, hes⟩ := h.trace
  exact ⟨es, htrace, fun e he => (hes e he).underLatch⟩

/-- **In a session whose floor blocks**, a drive judges every call under a floor that does. -/
theorem continueFrom_latching (ports : Ports σ) (resumedSteps resumedRetries : Nat) (m : Machine σ)
    (hm : blocksComposedTargets m.state.trustFloor = true) :
    Latching m ((continueFrom sys ports resumedSteps resumedRetries).run m).2 := by
  let sub := nested sys (nesting m.run)
  show Latching m ((drive sys sub resumedSteps resumedRetries ports).run m).2
  rw [drive_run]
  have hinner := driveInner_latches (nested_nests sys (nesting m.run))
    (nested_changes (fun _ _ _ _ _ => Set.subset_univ _) _) ports resumedSteps resumedRetries m
    (Nat.le_refl _) hm
  exact hinner.trans _ _ _ (finish_finished ports _ _ _).latching

/-- A drive judges every call under a floor that bounds all the run's model was shown. -/
theorem continueFrom_underFloor (ports : Ports σ) {m : Machine σ} (hm : Latched m) :
    ∀ e ∈ ((continueFrom sys ports m.frame.locals.steps m.frame.locals.contractRetries).run
      m).2.trace, e.UnderFloor := by
  let sub := nested sys (nesting m.run)
  show ∀ e ∈ ((drive sys sub m.frame.locals.steps m.frame.locals.contractRetries ports).run
    m).2.trace, e.UnderFloor
  rw [drive_run]
  obtain ⟨es, htrace, hes⟩ := (finish_finished ports _ _ _).trace
  rw [htrace]
  have hruns : Runs sys m ((driveInner sys sub ports m.frame.locals.steps
      m.frame.locals.contractRetries).run m).2 := runDriveInner_runs ports m
  have hinner := (hruns.latched hm).trace
  exact List.forall_mem_append.mpr ⟨hinner, fun e he => (hes e he).underFloor⟩

end Loops

end MarloweAgent.Loop
