import MarloweAgent.Loop.Execution
import MarloweAgent.Loop.Script

/-! A run that is paused and resumed. The steps and retries a resume starts from are
those of the last checkpoint, and what a drive did after it last saved is not among
them; a run whose every drive saved all it did keeps its bounds over any number of
pauses. -/

namespace MarloweAgent.Loop
open Contract Library Tools Permission

variable {σ : Type} {sys : Outside σ}

/-! ## What a run counts -/

def Effect.begins (id : RunId) : Effect → Bool
  | .iteration run => run = id
  | _ => false

def Effect.tolerates (id : RunId) : Effect → Bool
  | .violated run => run = id
  | _ => false

def Effect.saves (id : RunId) : Effect → Bool
  | .saved run => run = id
  | _ => false

/-- Each iteration the run began, and each violation it tolerated, is followed by a
checkpoint it saved. -/
def allSaved (id : RunId) : List Effect → Bool
  | [] => true
  | e :: rest =>
    (!(e.begins id || e.tolerates id) || rest.any (Effect.saves id)) && allSaved id rest

/-- The steps and retries of a run, as its loop counts them and as its last
checkpoint has them. -/
structure Tally where
  steps : Nat
  retries : Nat
  savedSteps : Nat
  savedRetries : Nat

namespace Tally

/-- The last checkpoint has all there is. -/
def Even (t : Tally) : Prop := t.savedSteps = t.steps ∧ t.savedRetries = t.retries

def after (id : RunId) (t : Tally) (e : Effect) : Tally :=
  if e.begins id then { t with steps := t.steps + 1 }
  else if e.tolerates id then { t with retries := t.retries + 1 }
  else if e.saves id then { t with savedSteps := t.steps, savedRetries := t.retries }
  else t

def afterAll (id : RunId) (t : Tally) (es : List Effect) : Tally := es.foldl (after id) t

variable {id : RunId}

theorem afterAll_append (t : Tally) (es es' : List Effect) :
    t.afterAll id (es ++ es') = (t.afterAll id es).afterAll id es' := List.foldl_append

theorem afterAll_cons (t : Tally) (e : Effect) (es : List Effect) :
    t.afterAll id (e :: es) = (t.after id e).afterAll id es := rfl

theorem after_begins (t : Tally) {e : Effect} (h : e.begins id = true) :
    t.after id e = { t with steps := t.steps + 1 } := if_pos h

theorem after_tolerates (t : Tally) {e : Effect} (h : e.tolerates id = true) :
    t.after id e = { t with retries := t.retries + 1 } := by
  have hbegins : ¬ e.begins id = true := by
    cases e <;> first | (intro hbegins; cases hbegins) | cases h
  rw [after, if_neg hbegins, if_pos h]

theorem after_of_other (t : Tally) {e : Effect} (h : e.actor ≠ id) : t.after id e = t := by
  cases e <;> simp_all [after, Effect.begins, Effect.tolerates, Effect.saves, Effect.actor]

theorem afterAll_of_others (t : Tally) {es : List Effect} (h : ∀ e ∈ es, t.after id e = t) :
    t.afterAll id es = t := by
  induction es with
  | nil => rfl
  | cons e rest ih =>
    obtain ⟨he, hrest⟩ := List.forall_mem_cons.mp h
    rw [afterAll_cons, he, ih hrest]

theorem afterAll_steps (t : Tally) (es : List Effect) :
    (t.afterAll id es).steps = t.steps + es.countP (Effect.begins id) := by
  induction es generalizing t with
  | nil => rfl
  | cons e rest ih =>
    rw [afterAll_cons, ih, List.countP_cons]
    have hone : (t.after id e).steps = t.steps + if e.begins id then 1 else 0 := by
      by_cases hbegins : e.begins id = true
      · rw [after_begins t hbegins, if_pos hbegins]
      · rw [if_neg hbegins, after, if_neg hbegins]
        split
        · rfl
        · split <;> rfl
    omega

theorem afterAll_retries (t : Tally) (es : List Effect) :
    (t.afterAll id es).retries = t.retries + es.countP (Effect.tolerates id) := by
  induction es generalizing t with
  | nil => rfl
  | cons e rest ih =>
    rw [afterAll_cons, ih, List.countP_cons]
    have hone : (t.after id e).retries = t.retries + if e.tolerates id then 1 else 0 := by
      by_cases htolerates : e.tolerates id = true
      · rw [after_tolerates t htolerates, if_pos htolerates]
      · rw [if_neg htolerates, after]
        split
        · rfl
        · split <;> rfl
    omega

/-- What was saved is all there is once everything counted is followed by a save. -/
theorem even_of_allSaved (t : Tally) (es : List Effect) (h : allSaved id es = true)
    (ht : t.Even ∨ es.any (Effect.saves id) = true) : (t.afterAll id es).Even := by
  induction es generalizing t with
  | nil =>
    rcases ht with heven | hany
    · exact heven
    · cases hany
  | cons e rest ih =>
    rw [allSaved, Bool.and_eq_true] at h
    obtain ⟨hlater, hrest⟩ := h
    rw [afterAll_cons]
    refine ih _ hrest ?_
    by_cases hcounts : (e.begins id || e.tolerates id) = true
    · exact .inr (by simpa [hcounts] using hlater)
    · simp only [Bool.or_eq_true, not_or] at hcounts
      obtain ⟨hbegins, htolerates⟩ := hcounts
      by_cases hsaves : e.saves id = true
      · exact .inl (by simp [after, hbegins, htolerates, hsaves, Even])
      · rcases ht with heven | hany
        · exact .inl (by simpa [after, hbegins, htolerates, hsaves] using heven)
        · exact .inr (by simpa [hsaves] using hany)

end Tally

/-! ## The counts along an execution -/

/-- The children a run has enlisted come after it. -/
def Enlisted (engine : Engine) : Prop :=
  ∀ parent kids, (parent, kids) ∈ engine.children.bindings → ∀ kid ∈ kids, parent < kid.1

theorem enlisted_new (registry : ToolRegistry) (windowTokens reserveTokens : Nat)
    (workspace : String) (tier : Tier) :
    Enlisted (.new registry windowTokens reserveTokens workspace tier) := by
  intro parent kids hmem
  cases hmem

/-- The kids of a run, if it has any, come after it. -/
theorem Enlisted.kids {engine : Engine} (h : Enlisted engine) (parent : RunId) :
    ∀ kid ∈ (engine.children.get? parent).getD [], parent < kid.1 := by
  intro kid hkid
  cases hkids : engine.children.get? parent with
  | none =>
    rw [hkids] at hkid
    cases hkid
  | some kids =>
    rw [hkids] at hkid
    exact h parent kids (OrderedMap.mem_bindings_of_get? _ hkids) kid hkid

/-- The counts of the run in the frame, for a drive resumed from `steps` and `retries`. -/
def Machine.tally (m : Machine σ) (steps retries : Nat) : Tally :=
  { steps := m.frame.locals.steps, retries := m.frame.locals.contractRetries
    savedSteps := (countedSteps m steps retries).1
    savedRetries := (countedSteps m steps retries).2 }

/-- The counts of the run follow what it did, within the bounds, and the checkpoints
of earlier runs are as they were. -/
structure Counted (m m' : Machine σ) : Prop where
  id : m'.run.id = m.run.id
  enlisted : Enlisted m'.engine
  earlier : ∀ run < m.run.id,
    m'.engine.lastCheckpoints.get? run = m.engine.lastCheckpoints.get? run
  steps : m'.frame.locals.steps ≤ max m.frame.locals.steps maxSteps
  retries : m'.frame.locals.contractRetries ≤ max m.frame.locals.contractRetries maxContractRetries
  tally : ∃ es, m'.trace = m.trace ++ es ∧
    ∀ steps retries, m'.tally steps retries = (m.tally steps retries).afterAll m.run.id es

namespace Counted

theorem refl {m : Machine σ} (h : Enlisted m.engine) : Counted m m :=
  ⟨rfl, h, fun _ _ => rfl, Nat.le_max_left _ _, Nat.le_max_left _ _, [],
    (List.append_nil _).symm, fun _ _ => rfl⟩

theorem trans {m m' m'' : Machine σ} (h : Counted m m') (h' : Counted m' m'') : Counted m m'' := by
  obtain ⟨es, htrace, htally⟩ := h.tally
  obtain ⟨es', htrace', htally'⟩ := h'.tally
  have hearlier := h'.earlier
  rw [h.id] at hearlier htally'
  refine ⟨h'.id.trans h.id, h'.enlisted, ?_, ?_, ?_, es ++ es', ?_, ?_⟩
  · intro run hrun
    rw [hearlier run hrun, h.earlier run hrun]
  · have := h.steps
    have := h'.steps
    omega
  · have := h.retries
    have := h'.retries
    omega
  · rw [htrace', htrace, List.append_assoc]
  · intro steps retries
    rw [htally', htally, Tally.afterAll_append]

/-- A step that counts nothing. -/
theorem quiet {m m' : Machine σ} {es : List Effect} (hm : Enlisted m.engine)
    (id : m'.run.id = m.run.id) (children : m'.engine.children = m.engine.children)
    (checkpoints : m'.engine.lastCheckpoints = m.engine.lastCheckpoints)
    (steps : m'.frame.locals.steps = m.frame.locals.steps)
    (retries : m'.frame.locals.contractRetries = m.frame.locals.contractRetries)
    (trace : m'.trace = m.trace ++ es)
    (others : ∀ e ∈ es, ∀ t : Tally, t.after m.run.id e = t) : Counted m m' := by
  refine ⟨id, ?_, fun _ _ => by rw [checkpoints], by omega, by omega, es, trace, ?_⟩
  · unfold Enlisted
    rw [children]
    exact hm
  · intro steps' retries'
    rw [Tally.afterAll_of_others _ fun e he => others e he _]
    unfold Machine.tally countedSteps
    rw [id, checkpoints, steps, retries]

theorem note (m : Machine σ) (e : Effect) (hm : Enlisted m.engine)
    (h : ∀ t : Tally, t.after m.run.id e = t) : Counted m (m.note e) :=
  quiet hm rfl rfl rfl rfl rfl rfl fun _ he => List.mem_singleton.mp he ▸ h

theorem charged (m : Machine σ) (amount : Budget) (hm : Enlisted m.engine) :
    Counted m (m.charged amount) :=
  quiet hm rfl rfl rfl rfl rfl rfl fun e he t => by cases List.mem_singleton.mp he; rfl

end Counted

theorem Effect.PlainOf.after {run id : RunId} {e : Effect} (h : e.PlainOf run) (t : Tally) :
    t.after id e = t := by
  cases e <;> first | rfl | cases h.plain

theorem Act.counted {m m' : Machine σ} (h : Act sys m m') (hm : Enlisted m.engine) :
    Counted m m' := by
  cases h with
  | tell es h =>
    exact .quiet hm h.id_eq h.children h.checkpoints h.steps h.retries h.trace
      fun e he => (h.plain e he).after
  | begin h =>
    refine ⟨rfl, hm, fun _ _ => rfl, ?_, Nat.le_max_left _ _, [_], rfl, fun _ _ => ?_⟩
    · change m.frame.locals.steps + 1 ≤ _
      omega
    · simp [Tally.afterAll, Tally.after, Effect.begins, Machine.tally, countedSteps,
        Machine.withLocals, Machine.note]
  | violation h =>
    refine ⟨rfl, hm, fun _ _ => rfl, Nat.le_max_left _ _, ?_, [_], rfl, fun _ _ => ?_⟩
    · change m.frame.locals.contractRetries + 1 ≤ _
      omega
    · simp [Tally.afterAll, Tally.after, Effect.begins, Effect.tolerates, Machine.tally,
        countedSteps, Machine.withLocals, Machine.note]
  | compaction child summary p q first second firstNotice secondNotice h hfirst hsecond seen offered
      answer locals children checkpoints state trace =>
    refine .quiet hm ?_ children checkpoints (by rw [locals]) (by rw [locals]) trace
      (forall_compactionEffects hfirst hsecond (fun e he => he.after) (fun _ _ _ _ => rfl)
        fun _ => rfl)
    obtain ⟨_, _, _, hrun⟩ := h.run
    rw [hrun]
  | checkpoint =>
    refine ⟨rfl, hm, ?_, Nat.le_max_left _ _, Nat.le_max_left _ _, [_], rfl, fun _ _ => ?_⟩
    · intro run hrun
      change (m.engine.lastCheckpoints.insert m.run.id _).get? run = _
      rw [OrderedMap.get?_insert, if_neg (Nat.ne_of_gt hrun)]
    · simp [Tally.afterAll, Tally.after, Effect.begins, Effect.tolerates, Effect.saves,
        Machine.tally, countedSteps, Machine.withEngine, Machine.note, Checkpoint.capture]
  | enlist child policy h =>
    refine ⟨rfl, ?_, fun _ _ => rfl, Nat.le_max_left _ _, Nat.le_max_left _ _, [],
      (List.append_nil _).symm, fun _ _ => rfl⟩
    intro parent kids hmem kid hkid
    rcases OrderedMap.mem_insertIn hmem with heq | hmem
    · cases heq
      rcases List.mem_append.mp hkid with hkid | hkid
      · exact hm.kids m.run.id kid hkid
      · cases List.mem_singleton.mp hkid
        exact h
    · exact hm parent kids hmem kid hkid
  | latch observed =>
    refine .quiet hm ?_ rfl rfl rfl rfl (List.append_nil _).symm fun e he => by cases he
    rw [Run.latchTrustFloor_eq]
    rfl
  | push | clear =>
    exact .quiet hm rfl rfl rfl rfl rfl (List.append_nil _).symm fun e he => by cases he
  | call | took | used | adjudicated | groupStart =>
    exact .quiet hm rfl rfl rfl rfl rfl rfl fun e he t => by cases List.mem_singleton.mp he; rfl
  | asked decision granted =>
    refine .quiet hm ?_ rfl rfl rfl rfl rfl fun e he t => by cases List.mem_singleton.mp he; rfl
    cases granted <;> rfl
  | answer usage =>
    exact .quiet hm rfl rfl rfl rfl rfl (List.append_assoc _ _ _)
      (by simp [Tally.after, Effect.begins, Effect.tolerates, Effect.saves])
  | host items wallMs h =>
    cases items with
    | nil =>
      exact .quiet hm rfl rfl rfl rfl rfl rfl fun e he t => by cases List.mem_singleton.mp he; rfl
    | cons item rest =>
      exact .quiet hm rfl rfl rfl rfl rfl (List.append_assoc _ _ _)
        (by simp [Tally.after, Effect.begins, Effect.tolerates, Effect.saves])

theorem Finished.enlisted {done fin : Machine σ} (h : Finished done fin) (hdone : Enlisted done.engine) :
    Enlisted fin.engine := by
  intro parent kids hmem
  rw [h.children] at hmem
  exact hdone parent kids (List.mem_filter.mp hmem).1

/-- A nested run that ends counts nothing for the run that called it. -/
theorem Finished.counted {caller done fin : Machine σ} {child : Run} {state : SessionState}
    (hborn : Born caller child) (hbody : Counted (caller.entered child state) done)
    (hlater : Later (caller.entered child state) done) (hfin : Finished done fin)
    (outcome : LoopOutcome) : Counted caller (fin.backIn caller outcome) := by
  obtain ⟨es, htrace, hes⟩ := hlater.trace
  obtain ⟨es', htrace', hes'⟩ := hfin.trace
  have hid : done.run.id = child.id := hbody.id
  have hearlier : ∀ run ≤ caller.run.id,
      fin.engine.lastCheckpoints.get? run = caller.engine.lastCheckpoints.get? run := by
    intro run hrun
    have hlt : run < child.id := Nat.lt_of_le_of_lt hrun hborn.later
    rw [hfin.checkpoints run (hid ▸ Nat.ne_of_lt hlt), hbody.earlier run hlt]
    · rfl
    · intro kid hkid
      have hkid : done.run.id < kid.1 := hbody.enlisted.kids done.run.id kid hkid
      exact Nat.ne_of_lt (hlt.trans (hid ▸ hkid))
  have henlisted : Enlisted fin.engine := hfin.enlisted hbody.enlisted
  let back : Machine σ := { fin with frame := caller.frame }
  have hback : Counted caller back := by
    refine ⟨rfl, henlisted, fun run hrun => hearlier run (Nat.le_of_lt hrun), Nat.le_max_left _ _,
      Nat.le_max_left _ _, .spawned caller.frame.ancestors caller.run child :: es ++ es', ?_, ?_⟩
    · change fin.trace = _
      rw [htrace', htrace]
      simp [Machine.entered]
    · intro steps retries
      rw [Tally.afterAll_of_others]
      · unfold Machine.tally countedSteps
        rw [show back.engine.lastCheckpoints.get? back.run.id = _ from hearlier _ (Nat.le_refl _)]
        rfl
      · -- the nested run is a later one, and so is every run it nests
        intro e he
        simp only [List.cons_append, List.mem_cons, List.mem_append] at he
        rcases he with rfl | he | he
        · rfl
        · exact Tally.after_of_other _ (Nat.ne_of_gt (Nat.lt_of_lt_of_le hborn.later (hes e he)))
        · refine Tally.after_of_other _ (Nat.ne_of_gt ?_)
          rw [(hes' e he).actor, hid]
          exact hborn.later
  let returned := back.note (.returned caller.run fin.run outcome)
  have hreturned : Counted back returned := .note _ _ henlisted fun _ => rfl
  have hspent : Counted returned (returned.charged fin.run.spent) := .charged _ _ henlisted
  have hagent : Counted (returned.charged fin.run.spent) (fin.backIn caller outcome) :=
    .charged (returned.charged fin.run.spent) { subagents := 1 } henlisted
  exact ((hback.trans hreturned).trans hspent).trans hagent

theorem Runs.counted {m m' : Machine σ} (h : Runs sys m m') (hm : Enlisted m.engine) :
    Counted m m' := by
  induction h with
  | refl => exact .refl hm
  | step before hact ih => exact (ih hm).trans (hact.counted (ih hm).enlisted)
  | call before into body back ih ihbody =>
    obtain ⟨child, state, hborn, rfl⟩ := into
    obtain ⟨fin, outcome, hfin, rfl⟩ := back
    have hbefore := ih hm
    exact hbefore.trans (hfin.counted hborn (ihbody hbefore.enlisted) (Runs.later body) outcome)

/-! ## Drives, one after another -/

/-- The machine after the run in the frame was driven from the counts its frame has. -/
def driveFrom (sys : Outside σ) (ports : Ports σ) (m : Machine σ) : Machine σ :=
  ((continueFrom sys ports m.frame.locals.steps m.frame.locals.contractRetries).run m).2

/-- About to drive the run, with nothing done yet. -/
structure Starts (id : RunId) (m : Machine σ) : Prop where
  run : m.run.id = id
  enlisted : Enlisted m.engine
  trace : m.trace = []

/-- A run driven, and each time it paused driven again from the last checkpoint: the
machine after the last drive, and what each drive did. Between two drives the
process may have ended and anything else have happened, as long as no other
checkpoint of the run was put in the engine. -/
inductive Driven (sys : Outside σ) (id : RunId) : Machine σ → List (List Effect) → Prop
  | first (ports : Ports σ) (m : Machine σ) (starts : Starts id m)
      (steps : m.frame.locals.steps = 0) (retries : m.frame.locals.contractRetries = 0)
      (new : m.engine.lastCheckpoints.get? id = none) :
    Driven sys id (driveFrom sys ports m) [(driveFrom sys ports m).trace]
  | resume {paused : Machine σ} {drives : List (List Effect)} (before : Driven sys id paused drives)
      (cp : Checkpoint) (last : paused.engine.lastCheckpoints.get? id = some cp)
      (pause : ∃ reason, cp.status = .paused reason)
      (ports : Ports σ) (m : Machine σ) (starts : Starts id m)
      (steps : m.frame.locals.steps = cp.step)
      (retries : m.frame.locals.contractRetries = cp.contractRetries)
      (known : m.engine.lastCheckpoints.get? id = none ∨
        m.engine.lastCheckpoints.get? id = some cp) :
    Driven sys id (driveFrom sys ports m) (drives ++ [(driveFrom sys ports m).trace])

/-- The last checkpoint of the run, and its counts. -/
def Machine.saved (m : Machine σ) (id : RunId) (steps retries : Nat) : Prop :=
  ∃ cp, m.engine.lastCheckpoints.get? id = some cp ∧ cp.run = id ∧ cp.step = steps ∧
    cp.contractRetries = retries

/-- The last checkpoint of a drive has the counts the loop had saved. -/
theorem finish_saved (ports : Ports σ) (step contractRetries : Nat) (m : Machine σ)
    (hm : Enlisted m.engine) :
    ((finish ports step contractRetries).run m).2.saved m.run.id step contractRetries := by
  let cp := Checkpoint.capture m.run m.state step contractRetries
  let recorded := (record ports .checkpointed (.checkpoint cp)).run m
  obtain ⟨es, htold⟩ := tells_record ports .checkpointed (.checkpoint cp) (by decide) m
  let written := (recorded.2.withEngine
    { recorded.2.engine with
      lastCheckpoints := recorded.2.engine.lastCheckpoints.insert m.run.id cp }).withRun
        { recorded.2.run with lastCheckpoint := recorded.1 }
  let kids := (written.engine.children.get? written.run.id).getD []
  let released := written.withEngine
    { written.engine with children := written.engine.children.erase written.run.id }
  have hsettled : Settled kids released ((finish ports step contractRetries).run m).2 :=
    settled_each ports kids kids (fun _ h => h) released
  have hkids : ∀ kid ∈ kids, m.run.id ≠ kid.1 := by
    intro kid hkid
    have hid : written.run.id = m.run.id := htold.id_eq
    have hchildren : written.engine.children = m.engine.children := htold.children
    rw [show kids = (m.engine.children.get? m.run.id).getD [] by rw [← hchildren, ← hid]] at hkid
    exact Nat.ne_of_lt (hm.kids m.run.id kid hkid)
  refine ⟨cp, ?_, rfl, rfl, rfl⟩
  rw [hsettled.checkpoints m.run.id hkids]
  exact OrderedMap.get?_insert_self _ _ _

/-- A drive is an execution, and then its end under the counts saved in it. -/
theorem driveFrom_cases (ports : Ports σ) (m : Machine σ) (hm : Enlisted m.engine) :
    ∃ driven : Machine σ, Runs sys m driven ∧ Finished driven (driveFrom sys ports m) ∧
      (driveFrom sys ports m).saved driven.run.id
        (driven.tally m.frame.locals.steps m.frame.locals.contractRetries).savedSteps
        (driven.tally m.frame.locals.steps m.frame.locals.contractRetries).savedRetries := by
  let steps := m.frame.locals.steps
  let retries := m.frame.locals.contractRetries
  have hruns := @runDriveInner_runs _ sys ports m
  have hrun := @drive_run _ sys (nested sys (nesting m.run)) ports steps retries m
  refine ⟨_, hruns, ?_, ?_⟩
  · change Finished _ ((drive sys (nested sys (nesting m.run)) steps retries ports).run m).2
    rw [hrun]
    exact finish_finished ports _ _ _
  · change Machine.saved ((drive sys (nested sys (nesting m.run)) steps retries ports).run m).2 _ _ _
    rw [hrun]
    exact finish_saved ports _ _ _ (Runs.counted hruns hm).enlisted

/-- **What one drive leaves**: the counts it began with and what it did, as far as
it had saved that. -/
theorem driveFrom_counted {id : RunId} (ports : Ports σ) (m : Machine σ) (h : Starts id m) :
    let counts := (m.tally m.frame.locals.steps m.frame.locals.contractRetries).afterAll id
      (driveFrom sys ports m).trace
    (driveFrom sys ports m).saved id counts.savedSteps counts.savedRetries ∧
      counts.steps ≤ max m.frame.locals.steps maxSteps ∧
      counts.retries ≤ max m.frame.locals.contractRetries maxContractRetries := by
  intro counts
  obtain ⟨driven, hruns, hfin, hsaved⟩ := driveFrom_cases ports m h.enlisted
  have hcounted := Runs.counted hruns h.enlisted
  obtain ⟨es, htrace, htally⟩ := hcounted.tally
  obtain ⟨es', htrace', hes'⟩ := hfin.trace
  -- the end of the drive is told, and counts nothing
  have hcounts : counts = driven.tally m.frame.locals.steps m.frame.locals.contractRetries := by
    show Tally.afterAll id _ (driveFrom sys ports m).trace = _
    rw [htrace', htrace, h.trace, List.nil_append, Tally.afterAll_append, ← h.run, ← htally]
    exact Tally.afterAll_of_others _ fun e he => (hes' e he).after _
  rw [hcounts]
  rw [hcounted.id, h.run] at hsaved
  exact ⟨hsaved, hcounted.steps, hcounted.retries⟩

/-- A drive from the counts of the last checkpoint keeps to the bounds, and when it
saved all it did its own last checkpoint has all of it. -/
theorem driveFrom_bounded {id : RunId} (ports : Ports σ) (m : Machine σ) (h : Starts id m)
    (known : countedSteps m m.frame.locals.steps m.frame.locals.contractRetries =
      (m.frame.locals.steps, m.frame.locals.contractRetries)) :
    let done := driveFrom sys ports m
    let steps := m.frame.locals.steps + done.trace.countP (Effect.begins id)
    let retries := m.frame.locals.contractRetries + done.trace.countP (Effect.tolerates id)
    (allSaved id done.trace = true → done.saved id steps retries) ∧
      steps ≤ max m.frame.locals.steps maxSteps ∧
      retries ≤ max m.frame.locals.contractRetries maxContractRetries := by
  intro done steps retries
  obtain ⟨hsaved, hsteps, hretries⟩ := driveFrom_counted ports m h
  rw [Tally.afterAll_steps] at hsteps
  rw [Tally.afterAll_retries] at hretries
  refine ⟨fun hall => ?_, hsteps, hretries⟩
  have heven : (m.tally m.frame.locals.steps m.frame.locals.contractRetries).Even := by
    unfold Machine.tally
    rw [known]
    exact ⟨rfl, rfl⟩
  obtain ⟨hevenSteps, hevenRetries⟩ := Tally.even_of_allSaved _ _ hall (.inl heven)
  rw [hevenSteps, hevenRetries, Tally.afterAll_steps, Tally.afterAll_retries] at hsaved
  exact hsaved

/-- With every drive's counts saved, the last checkpoint has the counts of them all;
and the last drive, saved or not, keeps to the bounds. -/
theorem Driven.counted {id : RunId} {m : Machine σ} {drives : List (List Effect)}
    (h : Driven sys id m drives) :
    ((∀ drive ∈ drives, allSaved id drive = true) →
      m.saved id (drives.flatten.countP (Effect.begins id))
        (drives.flatten.countP (Effect.tolerates id))) ∧
      ((∀ drive ∈ drives.dropLast, allSaved id drive = true) →
        drives.flatten.countP (Effect.begins id) ≤ maxSteps ∧
          drives.flatten.countP (Effect.tolerates id) ≤ maxContractRetries) := by
  induction h with
  | first ports m starts steps retries new =>
    have hknown : countedSteps m m.frame.locals.steps m.frame.locals.contractRetries =
        (m.frame.locals.steps, m.frame.locals.contractRetries) := by
      rw [countedSteps, starts.run, new]
    obtain ⟨hsaved, hsteps, hretries⟩ := driveFrom_bounded ports m starts hknown
    rw [steps, retries] at hsaved
    rw [steps] at hsteps
    rw [retries] at hretries
    simp only [Nat.zero_add, Nat.zero_max] at hsaved hsteps hretries
    refine ⟨fun hall => ?_, fun _ => ?_⟩
    · simpa using hsaved (hall _ List.mem_cons_self)
    · simpa using And.intro hsteps hretries
  | @resume paused drives before cp last pause ports m starts steps retries known ih =>
    obtain ⟨ihsaved, ihbounded⟩ := ih
    have hknown : countedSteps m m.frame.locals.steps m.frame.locals.contractRetries =
        (m.frame.locals.steps, m.frame.locals.contractRetries) := by
      rw [countedSteps, starts.run]
      rcases known with hnone | hsome
      · rw [hnone]
      · rw [hsome, steps, retries]
    obtain ⟨hsaved, hsteps, hretries⟩ := driveFrom_bounded ports m starts hknown
    -- what the drives so far counted is where this one begins
    have hbegan : (∀ drive ∈ drives, allSaved id drive = true) →
        m.frame.locals.steps = drives.flatten.countP (Effect.begins id) ∧
          m.frame.locals.contractRetries = drives.flatten.countP (Effect.tolerates id) := by
      intro hall
      obtain ⟨cp', hcp', -, hstep, hretry⟩ := ihsaved hall
      rw [last] at hcp'
      cases hcp'
      exact ⟨steps.trans hstep, retries.trans hretry⟩
    simp only [List.flatten_append, List.flatten_cons, List.flatten_nil, List.append_nil,
      List.countP_append, List.dropLast_concat]
    constructor
    · intro hall
      obtain ⟨hdrives, hlast⟩ := List.forall_mem_append.mp hall
      obtain ⟨hbeganSteps, hbeganRetries⟩ := hbegan hdrives
      rw [← hbeganSteps, ← hbeganRetries]
      exact hsaved (hlast _ List.mem_cons_self)
    · intro hall
      obtain ⟨hbeganSteps, hbeganRetries⟩ := hbegan hall
      have hbounds := ihbounded fun drive hdrive => hall drive (List.dropLast_subset _ hdrive)
      omega

/-- **The bounds of a run survive its pauses** when every drive but the last had
saved each iteration it began and each violation it tolerated by the time it paused. -/
theorem bounds_survive_pausing (sys : Outside σ) (id : RunId) (m : Machine σ)
    (drives : List (List Effect)) (h : Driven sys id m drives)
    (saved : ∀ drive ∈ drives.dropLast, allSaved id drive = true) :
    drives.flatten.countP (Effect.begins id) ≤ maxSteps ∧
      drives.flatten.countP (Effect.tolerates id) ≤ maxContractRetries :=
  h.counted.2 saved

namespace Script

/-- A root run driven through one script, and if it paused driven on from its last
checkpoint, in the same engine, through a second. -/
def resumed (budget : Budget) (script later : Script) : Machine Script × List (List Effect) :=
  let paused := driveFrom outside ports (start 100000 looks budget script)
  match paused.engine.lastCheckpoints.get? 1 with
  | some cp =>
    match cp.status with
    | .paused _ =>
      let again : Machine Script := { paused with frame := .restored cp, env := later, trace := [] }
      (driveFrom outside ports again, [paused.trace, (driveFrom outside ports again).trace])
    | _ => (paused, [paused.trace])
  | none => (paused, [paused.trace])

theorem driven_resumed (budget : Budget) (script later : Script) :
    Driven outside 1 (resumed budget script later).1 (resumed budget script later).2 := by
  let first := start 100000 looks budget script
  have hstarts : Starts 1 first := ⟨rfl, enlisted_new _ _ _ _ _, rfl⟩
  have hfirst := @Driven.first _ outside _ ports first hstarts rfl rfl rfl
  unfold resumed
  dsimp only
  split
  · rename_i cp hcp
    split
    · rename_i reason hpaused
      obtain ⟨driven, hruns, hfin, cp', hcp', hid, -⟩ :=
        driveFrom_cases ports first hstarts.enlisted
      have hcounted := Runs.counted hruns hstarts.enlisted
      have hrun : driven.run.id = 1 := hcounted.id
      rw [hrun, hcp, Option.some.injEq] at hcp'
      subst hcp'
      exact hfirst.resume cp hcp ⟨reason, hpaused⟩ ports _
        ⟨hid.trans hrun, hfin.enlisted hcounted.enlisted, rfl⟩ rfl rfl (.inr hcp)
    · exact hfirst
  · exact hfirst

/-- A turn of one call, its budget spent, and a resume that pauses at once. -/
def spentUp : Machine Script × List (List Effect) :=
  resumed { ample with toolCalls := 1 }
    { answers := [call [⟨"a", look, .empty⟩]], outcomes := [[result .agentObserved "ok"]] }
    { answers := [] }

/-- Two replies that miss the contract and a question, and when it is answered another
such reply and another question. -/
def garbled : Machine Script × List (List Effect) :=
  resumed ample
    { answers := [say "\x1b[0m", say "\x1b[0m", { usage := ⟨0, 0, 0, 0⟩, step := .ask "which?" }] }
    { answers := [say "\x1b[0m", { usage := ⟨0, 0, 0, 0⟩, step := .ask "which?" }] }

end Script

theorem bounds_survive_pausing_spentUp :
    Script.spentUp.2.flatten.countP (Effect.begins 1) ≤ maxSteps ∧
      Script.spentUp.2.flatten.countP (Effect.tolerates 1) ≤ maxContractRetries := by
  have hsaved : Script.spentUp.2.dropLast.all (allSaved 1) = true := by decide
  have hdriven : Driven Script.outside 1 Script.spentUp.1 Script.spentUp.2 :=
    Script.driven_resumed _ _ _
  exact bounds_survive_pausing Script.outside 1 Script.spentUp.1 Script.spentUp.2 hdriven
    (List.all_eq_true.mp hsaved)

set_option maxRecDepth 20000 in
/-- The replies that missed the contract before the question are not in the last
checkpoint, and the run is allowed as many again. -/
theorem retries_forgotten : ¬ ∀ (m : Machine Script) (drives : List (List Effect)),
    Driven Script.outside 1 m drives →
      drives.flatten.countP (Effect.begins 1) ≤ maxSteps ∧
        drives.flatten.countP (Effect.tolerates 1) ≤ maxContractRetries := by
  intro hall
  have hdriven : Driven Script.outside 1 Script.garbled.1 Script.garbled.2 :=
    Script.driven_resumed _ _ _
  have hthree : Script.garbled.2.flatten.countP (Effect.tolerates 1) = 3 := by decide
  have hbounds := hall _ _ hdriven
  rw [hthree] at hbounds
  exact absurd hbounds.2 (by decide)

end MarloweAgent.Loop
