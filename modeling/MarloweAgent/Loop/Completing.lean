import MarloweAgent.Loop.Execution

/-! How a run completes. No stage of an iteration ends a run with a result but the reply, so
a result is made of the text of an answer the run took, under the contract it was given. -/

namespace MarloweAgent.Loop
open Contract Library Tools Permission
open Fallible (lift)

variable {σ α β : Type} {sys : Outside σ} {n : Nat}

/-! ## Stages that give no result -/

/-- `f` does not end a run with a result. -/
def Resultless (f : StepM σ α) : Prop :=
  ∀ m result, (f.run m).1 ≠ .error (.stop (.completed result))

namespace Resultless

theorem pure (a : α) : Resultless (pure a : StepM σ α) := fun _ _ => nofun

theorem lift (f : LoopM σ α) : Resultless (Fallible.lift f : StepM σ α) := fun _ _ => nofun

theorem again : Resultless (again : StepM σ α) := fun _ _ => nofun

theorem bind {f : StepM σ α} {g : α → StepM σ β} (hf : Resultless f) (hg : ∀ a, Resultless (g a)) :
    Resultless (f >>= g) := by
  intro m result h
  rcases hrun : f.run m with ⟨e | a, m'⟩
  · rw [Fallible.bind_error hrun] at h
    have he : e = .stop (.completed result) := Except.error.inj h
    exact hf m result (by rw [hrun, he])
  · rw [Fallible.bind_ok hrun] at h
    exact hg a m' result h

theorem read {g : Machine σ → StepM σ β} (h : ∀ m, Resultless (g m)) :
    Resultless (Fallible.read >>= g) := fun m => h m m

theorem stopWith {f : LoopM σ LoopOutcome} (h : ∀ m result, (f.run m).1 ≠ .completed result) :
    Resultless (stopWith f : StepM σ α) := by
  intro m result heq
  injection heq with heq
  injection heq with heq
  exact h m result heq

/-- What ends with a result after a stage that gives none, went on from it. -/
theorem bind_inv {f : StepM σ α} {g : α → StepM σ β} (hf : Resultless f)
    (hturns : Fallible.Within (Turns sys n) f) {m m' : Machine σ} {result : CondensedResult}
    (h : (f >>= g).run m = (.error (.stop (.completed result)), m')) :
    ∃ a m₁, f.run m = (.ok a, m₁) ∧ Turns sys n m m₁ ∧
      (g a).run m₁ = (.error (.stop (.completed result)), m') := by
  have hm := hturns m
  rcases hrun : f.run m with ⟨e | a, m₁⟩
  · rw [Fallible.bind_error hrun] at h
    have he : e = .stop (.completed result) := Except.error.inj (congrArg Prod.fst h)
    exact absurd (by rw [hrun, he]) (hf m result)
  · rw [hrun] at hm
    rw [Fallible.bind_ok hrun] at h
    exact ⟨a, m₁, rfl, hm, h⟩

/-- What ends with a result before a stage that gives none, ended there. -/
theorem before_inv {f : StepM σ α} {g : α → StepM σ β} (hg : ∀ a, Resultless (g a))
    {m m' : Machine σ} {result : CondensedResult}
    (h : (f >>= g).run m = (.error (.stop (.completed result)), m')) :
    f.run m = (.error (.stop (.completed result)), m') := by
  rcases hrun : f.run m with ⟨e | a, m₁⟩
  · rw [Fallible.bind_error hrun] at h
    obtain ⟨he, rfl⟩ := Prod.mk.inj h
    rw [Except.error.inj he]
  · rw [Fallible.bind_ok hrun] at h
    exact absurd (congrArg Prod.fst h) (hg a m₁ result)

end Resultless

section Stages

variable (ports : Ports σ)

theorem resultless_checkCancelled : Resultless (checkCancelled ports) := by
  refine .read fun m => ?_
  split
  · exact .stopWith fun _ _ => nofun
  · exact .pure ()

theorem resultless_assembleView : Resultless (assembleView sys ports) := by
  refine .read fun m => ?_
  dsimp only
  split
  · refine .bind (.lift _) fun _ => .read fun m' => ?_
    split
    · exact .stopWith fun _ _ => nofun
    · exact .again
  split
  · refine .bind (.lift _) fun _ => ?_
    split
    · exact .again
    · exact .pure _
  · exact .pure _

theorem resultless_takeAnswer (answer : Except ProviderError ModelCall) :
    Resultless (takeAnswer ports answer) := by
  cases answer with
  | ok call => exact .lift _
  | error e =>
    refine .bind (.lift _) fun failedOver => ?_
    split
    · exact .bind (.lift _) fun _ => .bind (.lift _) fun _ => .again
    · exact .stopWith fun _ _ => nofun

theorem resultless_takeInterrupt : Resultless (takeInterrupt ports) := by
  refine .read fun m => ?_
  split
  · refine .bind (.lift _) fun spoken => ?_
    cases spoken with
    | none => exact .pure ()
    | some text => exact .bind (.lift _) fun _ => .bind (.lift _) fun _ => .again
  · exact .pure ()

theorem resultless_retryEmptyTurn (step : ModelStep) : Resultless (retryEmptyTurn ports step) := by
  refine .read fun m => ?_
  split
  · split
    · exact .bind (.lift _) fun _ => .again
    · exact .stopWith fun _ _ => nofun
  · exact .lift _

theorem resultless_retryContract (violation : ContractViolation) :
    Resultless (retryContract ports violation) := by
  refine .read fun m => ?_
  dsimp only
  split
  · exact .stopWith fun _ _ => nofun
  · exact .bind (.lift _) fun _ => .again

theorem resultless_ask (question : String) : Resultless (ask ports question) := by
  refine .read fun m => ?_
  split
  · exact .bind (.lift _) fun _ => .again
  · exact .stopWith fun _ _ => nofun

theorem resultless_escalate (req : EscalationRequest) : Resultless (escalate ports req) := by
  refine .read fun m => ?_
  split
  · exact .lift _
  · refine .bind (.lift _) fun raised => ?_
    cases raised with
    | ok id => exact .stopWith fun _ _ => nofun
    | error refused => exact .lift _

end Stages

/-! ## The contract of a run -/

theorem Act.outputContract {m m' : Machine σ} (h : Act sys m m') :
    m'.run.outputContract = m.run.outputContract := by
  have hsame {m m' : Machine σ} (h : m.run.Same m'.run) :
      m'.run.outputContract = m.run.outputContract := by
    obtain ⟨_, _, _, hrun⟩ := h
    rw [hrun]
  cases h with
  | tell es h => exact hsame h.run
  | compaction child summary p q first second fn sn h => exact hsame h.run
  | latch observed =>
    rw [Run.latchTrustFloor_eq]
    rfl
  | asked decision granted => cases granted <;> rfl
  | host items wallMs => split <;> rfl
  | _ => rfl

theorem Runs.outputContract {m m' : Machine σ} (h : Runs sys m m') :
    m'.run.outputContract = m.run.outputContract := by
  refine Calls.relates
    (R := fun m m' : Machine σ => m'.run.outputContract = m.run.outputContract)
    (fun _ => rfl) (fun _ _ _ h h' => h'.trans h) (fun _ _ => Act.outputContract) ?_ h
  rintro m c d m' - - ⟨fin, outcome, -, rfl⟩
  rfl

/-! ## The reply -/

/-- From `m` the run came to take this text, and the result is what its contract makes of it. -/
def CompletedBy (sys : Outside σ) (m m' : Machine σ) (text : String) (result : CondensedResult) :
    Prop :=
  ∃ mid : Machine σ, Runs sys m mid ∧ (mid.taking (.say text)).trace <+: m'.trace ∧
    result = resultOf mid.run.outputContract text ∧
    mid.run.outputContract.validate result = .ok ()

theorem CompletedBy.after {m m₁ m' : Machine σ} {text : String} {result : CondensedResult}
    (hruns : Runs sys m m₁) (h : CompletedBy sys m₁ m' text result) :
    CompletedBy sys m m' text result := by
  obtain ⟨mid, hmid, hrest⟩ := h
  exact ⟨mid, hruns.trans hmid, hrest⟩

theorem CompletedBy.before {m m₁ m' : Machine σ} {text : String} {result : CondensedResult}
    (h : CompletedBy sys m m₁ text result) (hle : m₁.trace <+: m'.trace) :
    CompletedBy sys m m' text result := by
  obtain ⟨mid, hmid, htrace, hrest⟩ := h
  exact ⟨mid, hmid, htrace.trans hle, hrest⟩

theorem say_completes (ports : Ports σ) (view : ContextView) (streamed : Bool) {text : String}
    {m m' : Machine σ} {result : CondensedResult}
    (h : (say ports view streamed text).run m = (.error (.stop (.completed result)), m')) :
    result = resultOf m.run.outputContract text ∧ m.run.outputContract.validate result = .ok () := by
  let replied := (reply ports view streamed text).run m
  have hresult : replied.1 = resultOf m.run.outputContract text := by cases streamed <;> rfl
  have hcontract : replied.2.run.outputContract = m.run.outputContract := by cases streamed <;> rfl
  unfold say at h
  rw [Fallible.lift_bind_run, Fallible.read_bind_run] at h
  split at h
  · rename_i violation _
    exact absurd (congrArg Prod.fst h) (resultless_retryContract ports violation _ result)
  · rename_i hvalid
    change replied.2.run.outputContract.validate replied.1 = .ok () at hvalid
    rw [hcontract, hresult] at hvalid
    have hreturned : LoopOutcome.completed replied.1 = .completed result :=
      Exit.stop.inj (Except.error.inj (congrArg Prod.fst h))
    rw [hresult] at hreturned
    obtain rfl := LoopOutcome.completed.inj hreturned
    exact ⟨rfl, hvalid⟩

/-- A run ends with a result where it says one. -/
theorem takeStep_completes (sub : SubRun σ) (ports : Ports σ) (view : ContextView)
    (streamed : Bool) {step : ModelStep} {m m' : Machine σ} {result : CondensedResult}
    (hn : nesting m.run ≤ n)
    (h : (takeStep sys ports sub view streamed step).run m =
      (.error (.stop (.completed result)), m')) :
    ∃ text, CompletedBy sys m m' text result := by
  unfold takeStep at h
  rw [Fallible.lift_bind_run] at h
  cases step with
  | say text =>
    have hsay : (say ports view streamed text).run (m.taking (.say text)) =
        (.error (.stop (.completed result)), m') := h
    have hruns : Runs sys (m.taking (.say text))
        ((say ports view streamed text).run (m.taking (.say text))).2 :=
      (stages_say ports view streamed text (m.taking (.say text)) hn).1
    rw [hsay] at hruns
    have hsaid := say_completes ports view streamed hsay
    exact ⟨text, m, .refl m, hruns.kept.trace, hsaid⟩
  | ask question => exact absurd (congrArg Prod.fst h) (resultless_ask ports question _ result)
  | escalate req => exact absurd (congrArg Prod.fst h) (resultless_escalate ports req _ result)
  | toolCall calls => exact absurd (congrArg Prod.fst h) (Resultless.lift _ _ result)
  | memoryWrite claim => exact absurd (congrArg Prod.fst h) (Resultless.lift _ _ result)
  | spawn req => exact absurd (congrArg Prod.fst h) (Resultless.lift _ _ result)

/-! ## The loop -/

theorem answerTurn_completes (sub : SubRun σ) (ports : Ports σ)
    (called : ContextView × Bool × String × Except ProviderError ModelCall) {m m' : Machine σ}
    {result : CondensedResult} (hn : nesting m.run ≤ n)
    (h : (answerTurn sys ports sub called).run m = (.error (.stop (.completed result)), m')) :
    ∃ text, CompletedBy sys m m' text result := by
  obtain ⟨view, streamed, reasoning, answer⟩ := called
  have hkeep : Stages sys n (lift (setLocals fun locals =>
      { locals with lastReasoning := reasoning }) : StepM σ Unit) :=
    .lift (tells_setLocals _ (by intro _; rfl) (by intro _; rfl)).steps
  obtain ⟨step, m₁, -, h₁, h⟩ :=
    (resultless_takeAnswer ports answer).bind_inv (stages_takeAnswer ports answer).turns h
  obtain ⟨-, m₂, -, h₂, h⟩ :=
    (resultless_takeInterrupt ports).bind_inv (stages_takeInterrupt ports).turns h
  obtain ⟨-, m₃, -, h₃, h⟩ := (Resultless.lift _).bind_inv hkeep.turns h
  obtain ⟨-, m₄, -, h₄, h⟩ :=
    (resultless_retryEmptyTurn ports step).bind_inv (stages_retryEmptyTurn ports step).turns h
  obtain ⟨-, m₅, -, h₅, h⟩ :=
    (Resultless.lift _).bind_inv (Stages.lift (steps_countToolTurn step)).turns h
  have hturns : Turns sys n m m₅ :=
    h₁.trans _ _ _ (h₂.trans _ _ _ (h₃.trans _ _ _ (h₄.trans _ _ _ h₅)))
  obtain ⟨hruns, -⟩ := hturns hn
  obtain ⟨text, hcompleted⟩ := takeStep_completes sub ports view streamed
    (hruns.kept.nesting ▸ hn) (Resultless.before_inv (fun _ => .lift _) h)
  exact ⟨text, hcompleted.after hruns⟩

theorem turn_completes (sub : SubRun σ) (ports : Ports σ) {m m' : Machine σ}
    {result : CondensedResult} (hn : nesting m.run ≤ n)
    (h : (turn sys ports sub).run m = (.error (.stop (.completed result)), m')) :
    ∃ text, CompletedBy sys m m' text result := by
  rw [turn_eq] at h
  obtain ⟨-, m₁, -, h₁, h⟩ :=
    (resultless_checkCancelled ports).bind_inv (stages_checkCancelled ports).turns h
  obtain ⟨-, m₂, -, h₂, h⟩ :=
    (Resultless.lift _).bind_inv (Stages.lift (steps_takeSteer ports)).turns h
  obtain ⟨view, m₃, hview, h₃, h⟩ :=
    (resultless_assembleView ports).bind_inv (stages_assembleView ports).turns h
  obtain ⟨hstable, hbounds⟩ := assembleView_bounds ports m₂ m₃ view hview
  rw [Fallible.lift_bind_run] at h
  have hturns : Turns sys n m ((callWith ports view).run m₃).2 :=
    h₁.trans _ _ _ (h₂.trans _ _ _ (h₃.trans _ _ _ (callWith_reach ports view m₃ hstable hbounds).turns))
  obtain ⟨hruns, -⟩ := hturns hn
  obtain ⟨text, hcompleted⟩ := answerTurn_completes sub ports _ (hruns.kept.nesting ▸ hn) h
  exact ⟨text, hcompleted.after hruns⟩

theorem iterate_stop {sub : SubRun σ} {ports : Ports σ} {m : Machine σ} {outcome : LoopOutcome}
    (h : ((iterate sys ports sub).run m).1 = some outcome) :
    (iterationBody sys ports sub).run m =
      (.error (.stop outcome), ((iterate sys ports sub).run m).2) := by
  rw [iterate_state]
  unfold iterate at h
  rw [Stateful.run_bind] at h
  unfold Stateful.outcome at h
  rcases hbody : (iterationBody sys ports sub).run m with ⟨exit | done, m'⟩
  · simp only [hbody] at h
    cases exit with
    | again => cases h
    | stop ended => rw [Option.some.inj h]
  · simp only [hbody] at h
    cases h

theorem iterate_completes (sub : SubRun σ) (ports : Ports σ) {m : Machine σ}
    {result : CondensedResult} (hn : nesting m.run ≤ n)
    (h : ((iterate sys ports sub).run m).1 = some (.completed result)) :
    ∃ text, CompletedBy sys m ((iterate sys ports sub).run m).2 text result := by
  have hbody := iterate_stop h
  rcases @iterationBody_cases σ sys ports sub m with ⟨dimension, hstop⟩ | ⟨hbound, hgo⟩
  · rw [hstop] at hbody
    have hpause : Resultless (stopWith (pause ports dimension) : StepM σ Unit) :=
      .stopWith fun _ _ => nofun
    exact absurd (congrArg Prod.fst hbody) (hpause m result)
  · rw [hgo] at hbody
    obtain ⟨text, hcompleted⟩ := turn_completes (m := m.begun) sub ports hn hbody
    exact ⟨text, hcompleted.after (.of_step (.begin m hbound))⟩

theorem driveInner_completes {sub : SubRun σ} (hsub : Nests sys n sub) (ports : Ports σ)
    {m : Machine σ} {result : CondensedResult} (hn : nesting m.run ≤ n)
    (hsteps : m.frame.locals.steps = 0) (hretries : m.frame.locals.contractRetries = 0)
    (h : ((driveInner sys sub ports 0 0).run m).1 = .completed result) :
    ∃ text, CompletedBy sys m ((driveInner sys sub ports 0 0).run m).2 text result := by
  let started := (m.withRun { m.run with status := .running }).withLocals
    { steps := 0, contractRetries := 0 }
  have hstart : Told m started ([] ++ []) :=
    (Told.withRun m _ ⟨.running, m.run.session, m.run.lastCheckpoint, rfl⟩).trans
      (.withLocals _ _ hsteps.symm hretries.symm)
  let ended := (Stateful.repeatUntil (iterate sys ports sub) stuck (maxSteps - 0 + 1)).run started
  have hended : ended.1 = .completed result := h
  show ∃ text, CompletedBy sys m ended.2 text result
  obtain ⟨last, hruns, hlast, ⟨hreturned, hstate⟩ | hstuck⟩ := Stateful.repeatUntil_returns
    (R := Runs sys) (P := fun m => nesting m.run ≤ n) .refl (fun _ _ _ => .trans)
    (fun _ _ hst hs => hst.kept.nesting ▸ hs) (iterate_runs hsub ports) (maxSteps - 0 + 1) started hn
  · obtain ⟨text, hcompleted⟩ := iterate_completes sub ports hlast (hreturned.trans (congrArg some hended))
    exact ⟨text, (hstate ▸ hcompleted).after (.trans (.of_step (.tell _ hstart)) hruns)⟩
  · -- the bound of the model gives no result either
    exact absurd (hended ▸ congrArg Prod.fst hstuck) nofun

/-- **A nested run with nothing to nest that ends with a result** took a text, and the result is
what its contract makes of the text. -/
theorem nested_completes (ports : Ports σ) {m : Machine σ} {result : CondensedResult}
    (hnesting : nesting m.run = 0) (hsteps : m.frame.locals.steps = 0)
    (hretries : m.frame.locals.contractRetries = 0)
    (h : ((nested sys n ports).run m).1 = .completed result) :
    ∃ text, CompletedBy sys m ((nested sys n ports).run m).2 text result := by
  cases n with
  | zero => exact absurd h nofun
  | succ n =>
    obtain ⟨text, hcompleted⟩ := driveInner_completes (nested_nests sys n) ports
      (hnesting ▸ Nat.zero_le n) hsteps hretries h
    refine ⟨text, hcompleted.before ?_⟩
    change _ <+: ((drive sys (nested sys n) 0 0 ports).run m).2.trace
    rw [drive_run]
    obtain ⟨es, htrace, -⟩ := (finish_finished ports _ _ _).trace
    exact htrace ▸ List.prefix_append _ _

end MarloweAgent.Loop
