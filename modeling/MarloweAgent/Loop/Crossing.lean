import MarloweAgent.Loop.Passage
import MarloweAgent.Loop.Refinement
import MarloweAgent.Loop.Script

/-! What crosses from a child to the run that spawned it. Under the typed upward shape the
session of the parent grows by three blocks, and they are a function of the request, of the
spend and of what the child's contract leaves of its outcome: two children that agree on
those leave the same parent, whatever else they did. -/

namespace MarloweAgent.Loop
open Contract Library Tools Permission
open Stateful (read)

variable {σ τ α : Type} {sys : Outside σ}

/-! ## What a contract leaves of an outcome -/

/-- The field a violation names. -/
def ContractViolation.field : ContractViolation → Option String
  | .unknownField field | .missingField field | .fieldTooLong field _ _
  | .disallowedCharacter field _ => some field
  | .tooLong _ _ => none

/-- The numbers a violation names. -/
def ContractViolation.numbers : ContractViolation → List Nat
  | .unknownField _ | .missingField _ => []
  | .tooLong chars max | .fieldTooLong _ chars max => [chars, max]
  | .disallowedCharacter _ codepoint => [codepoint]

/-- The violation of a contract with this field and these numbers. -/
def OutputContract.violation (contract : OutputContract) : Option String → List Nat → ContractViolation
  | some field, [chars, max] => .fieldTooLong field chars max
  | some field, [codepoint] => .disallowedCharacter field codepoint
  | some field, _ =>
    if contract.fields.any (·.name == field) then .missingField field else .unknownField field
  | none, numbers => .tooLong (numbers.headD 0) (numbers.tail.headD 0)

/-- The kind of an outcome, with what of it may cross. -/
inductive Crossing
  | result (result : CondensedResult)
  | violation (field : Option String) (numbers : List Nat)
  | paused (reason : PauseReason)
  | asked
  | raised
  | cancelled
  | failed (error : String)

namespace Crossing

def of (contract : OutputContract) : LoopOutcome → Crossing
  | .completed fields =>
    match contract.validate fields with
    | .ok () => .result fields
    | .error v => .violation v.field v.numbers
  | .paused reason => .paused reason
  | .escalated _ => .asked
  | .raised _ => .raised
  | .cancelled => .cancelled
  | .failed error => .failed error

/-- The note it leaves in the parent. -/
def note (contract : OutputContract) (spent granted : Budget) : Crossing → String
  | .result fields => fields.render
  | .violation field numbers =>
    "[child returned an invalid result] " ++ (contract.violation field numbers).render
  | .paused reason => pausedNote spent granted reason
  | .asked => typedNote contract spent granted (.escalated "")
  | .raised => typedNote contract spent granted (.raised 0)
  | .cancelled => typedNote contract spent granted .cancelled
  | .failed error => typedNote contract spent granted (.failed error)

end Crossing

/-- A missing field is one of the contract's. -/
theorem validateFields_violation {result : CondensedResult} {fields : List FieldSpec}
    {v : ContractViolation} (h : OutputContract.validateFields result fields = .error v) :
    (∃ spec ∈ fields, v = .missingField spec.name) ∨
      ∃ spec ∈ fields, ∃ value, spec.validateValue value = .error v := by
  induction fields with
  | nil => cases h
  | cons spec rest ih =>
    simp only [OutputContract.validateFields] at h
    split at h
    · cases h
      exact .inl ⟨spec, List.mem_cons_self, rfl⟩
    · rename_i value _
      cases hvalue : spec.validateValue value with
      | error v' =>
        rw [hvalue] at h
        cases h
        exact .inr ⟨spec, List.mem_cons_self, value, hvalue⟩
      | ok _ =>
        rw [hvalue] at h
        rcases ih h with ⟨later, hlater, hv⟩ | ⟨later, hlater, hv⟩
        · exact .inl ⟨later, List.mem_cons_of_mem _ hlater, hv⟩
        · exact .inr ⟨later, List.mem_cons_of_mem _ hlater, hv⟩

/-- **A violation is what its field and its numbers say**, under the contract violated. -/
theorem validate_violation {contract : OutputContract} {result : CondensedResult}
    {v : ContractViolation} (h : contract.validate result = .error v) :
    contract.violation v.field v.numbers = v := by
  unfold OutputContract.validate at h
  split at h
  · rename_i name hfound
    cases h
    have hname := List.find?_some hfound
    simp only [ContractViolation.field, ContractViolation.numbers, OutputContract.violation]
    rw [if_neg (by simpa using hname)]
  · split at h
    · rename_i v' hfields
      cases h
      rcases validateFields_violation hfields with ⟨spec, hspec, rfl⟩ | ⟨spec, -, value, hvalue⟩
      · simp only [ContractViolation.field, ContractViolation.numbers, OutputContract.violation]
        exact if_pos (List.any_eq_true.mpr ⟨spec, hspec, beq_self_eq_true spec.name⟩)
      · unfold FieldSpec.validateValue at hvalue
        dsimp only at hvalue
        split at hvalue
        · cases hvalue
          rfl
        · split at hvalue
          · cases hvalue
            rfl
          · cases hvalue
    · dsimp only at h
      split at h
      · cases h
        rfl
      · cases h

/-- **The note a child leaves is a function of what crosses.** -/
theorem typedNote_eq (contract : OutputContract) (spent granted : Budget) (outcome : LoopOutcome) :
    typedNote contract spent granted outcome =
      (Crossing.of contract outcome).note contract spent granted := by
  cases outcome with
  | completed result =>
    cases hvalid : contract.validate result with
    | ok _ =>
      have hof : Crossing.of contract (.completed result) = .result result := by
        simp only [Crossing.of, hvalid]
      rw [hof]
      delta typedNote
      dsimp only
      rw [hvalid]
      rfl
    | error v =>
      have hof : Crossing.of contract (.completed result) = .violation v.field v.numbers := by
        simp only [Crossing.of, hvalid]
      rw [hof]
      show _ = "[child returned an invalid result] " ++
        (contract.violation v.field v.numbers).render
      rw [validate_violation hvalid]
      delta typedNote
      dsimp only
      rw [hvalid]
  | _ => rfl

/-! ## An admitted spawn in three parts -/

/-- What a spawn has settled before its child runs. -/
structure Outset where
  childId : RunId
  line : Nat
  shape : UpwardShape
  child : Run
  window : SessionState

/-- A child is drawn, recorded and enlisted: its ids, and the machine it was drawn on. -/
def enlist (ports : Ports σ) (req : SpawnRequest) (budget : Budget) (profile : CapabilityProfile) :
    LoopM σ (RunId × SessionId × Machine σ) := do
  let childId ← newId
  let session ← newId
  let m ← read
  let _ ← record ports .runSpawned (.childSpawned childId req.orphan budget.tokens budget.depth
    req.readsUntrusted req.role profile.level m.engine.upwardShape.word)
  setEngine fun engine =>
    { engine with
      children := engine.children.insert m.run.id
        ((engine.children.get? m.run.id).getD [] ++ [(childId, req.orphan)]) }
  pure (childId, session, m)

/-- The parent has its receipt and its announced call, and the screen its line. -/
def announce (sys : Outside σ) (ports : Ports σ) (req : SpawnRequest) (budget : Budget)
    (childId : RunId) : LoopM σ Nat := do
  pushNote (spawnReceipt req budget)
  let line ← takeCallId
  pushBlock (spawnAnnouncement req budget s!"spawn-{line}")
  emit ports (.toolLine line "spawn" (sys.sayable childId) (.running 0))
  pure line

/-- An admitted spawn up to the run of its child. -/
def setOut (sys : Outside σ) (ports : Ports σ) (req : SpawnRequest) (budget : Budget)
    (profile : CapabilityProfile) : LoopM σ Outset := do
  let (childId, session, m) ← enlist ports req budget profile
  let line ← announce sys ports req budget childId
  pure
    { childId, line, shape := m.engine.upwardShape
      child := Run.child childId m.run session profile budget req.orphan req.contract
      window := (childWindow session m.state).push (.new .brief (childBrief req) .agentInferred) }

/-- And through it: what was settled, and the child's outcome and frame. -/
def throughChild (sys : Outside σ) (ports : Ports σ) (sub : SubRun σ) (req : SpawnRequest)
    (budget : Budget) (profile : CapabilityProfile) : LoopM σ (Outset × LoopOutcome × Frame) := do
  let outset ← setOut sys ports req budget profile
  let ended ← runChild sub ports.forChild outset.child outset.window
  pure (outset, ended)

/-- What the parent makes of it. -/
def takeBack (sys : Outside σ) (ports : Ports σ) (sub : SubRun σ) (req : SpawnRequest)
    (budget : Budget) (ended : Outset × LoopOutcome × Frame) : LoopM σ Unit := do
  let (outset, outcome, frame) := ended
  recordChildEnd ports outset.childId outcome
  let prose := match outset.shape with
    | .typed => none
    | _ => lastAssistantText frame.state
  let note ← upwardNote ports sub outcome.isCompleted prose
    (typedNote req.contract frame.run.spent budget outcome)
  let failed := Text.startsWith note "["
  let summary : ResultSummary := .withDetail
    [.count frame.run.spent.tokens "tokens", .state (if failed then "no result" else "returned")] note
  emit ports (.toolLine outset.line "spawn" (sys.sayable outset.childId)
    (if failed then .failed summary else .ok summary))
  pushBlock (returnedBlock note summary.render s!"spawn-{outset.line}" failed)

theorem spawnAdmitted_eq (sys : Outside σ) (ports : Ports σ) (sub : SubRun σ) (req : SpawnRequest)
    (budget : Budget) (profile : CapabilityProfile) :
    spawnAdmitted sys ports sub req budget profile =
      throughChild sys ports sub req budget profile >>= takeBack sys ports sub req budget := rfl

/-! ## The blocks a spawn leaves -/

/-- The block that carries a note back. -/
def noteBlock (note : String) (spent : Budget) (line : Nat) : Block :=
  let failed := Text.startsWith note "["
  let summary : ResultSummary := .withDetail
    [.count spent.tokens "tokens", .state (if failed then "no result" else "returned")] note
  returnedBlock note summary.render s!"spawn-{line}" failed

/-- The receipt, the announced call, and its result. -/
def spawnBlocks (req : SpawnRequest) (budget spent : Budget) (line : Nat) (crossing : Crossing) :
    List Block :=
  [.new .history (spawnReceipt req budget) .agentObserved,
    spawnAnnouncement req budget s!"spawn-{line}",
    noteBlock (crossing.note req.contract spent budget) spent line]

/-- The calls some blocks announce. -/
def announcedIn (blocks : List Block) : List String :=
  blocks.flatMap fun b => ((b.wire.map WireTurn.toolCalls).getD []).map WireToolCall.id

/-- The calls some blocks answer. -/
def answeredIn (blocks : List Block) : List String := blocks.filterMap Block.callId

/-- One call is announced and one is answered, the same one. -/
theorem spawnBlocks_paired (req : SpawnRequest) (budget spent : Budget) (line : Nat)
    (crossing : Crossing) :
    announcedIn (spawnBlocks req budget spent line crossing) = [s!"spawn-{line}"] ∧
      answeredIn (spawnBlocks req budget spent line crossing) = [s!"spawn-{line}"] := ⟨rfl, rfl⟩

/-! ## The parent -/

/-- The same frame, and the same engine but for its accounts of children. -/
structure Untouched (m m' : Machine σ) : Prop where
  frame : m'.frame = m.frame
  line : m'.engine.nextCallId = m.engine.nextCallId
  shape : m'.engine.upwardShape = m.engine.upwardShape

theorem Untouched.trans (m m' m'' : Machine σ) (h : Untouched m m') (h' : Untouched m' m'') :
    Untouched m m'' :=
  ⟨h'.frame.trans h.frame, h'.line.trans h.line, h'.shape.trans h.shape⟩

theorem untouched_record (ports : Ports σ) (kind : EventLog.EventKind) (payload : Payload) :
    Stateful.Within Untouched (record ports kind payload) := by
  intro m
  obtain ⟨env, accepted, notice, hrun, -⟩ := record_run ports kind payload m
  rw [hrun]
  exact ⟨rfl, rfl, rfl⟩

theorem untouched_enlist (ports : Ports σ) (req : SpawnRequest) (budget : Budget)
    (profile : CapabilityProfile) : Stateful.Within Untouched (enlist ports req budget profile) :=
  .bind Untouched.trans (fun _ => ⟨rfl, rfl, rfl⟩) fun _ =>
    .bind Untouched.trans (fun _ => ⟨rfl, rfl, rfl⟩) fun _ => .read_bind fun m =>
      Stateful.Within.bind Untouched.trans (untouched_record ports _ _)
        (fun _ _ => ⟨rfl, rfl, rfl⟩) m

/-- Setting out pushes the receipt and the announcement. -/
theorem setOut_run (ports : Ports σ) (req : SpawnRequest) (budget : Budget)
    (profile : CapabilityProfile) (m : Machine σ) :
    let outset := (setOut sys ports req budget profile).run m
    outset.1.line = m.engine.nextCallId ∧
      outset.2.engine.upwardShape = m.engine.upwardShape ∧
      outset.2.state =
        (m.state.push (.new .history (spawnReceipt req budget) .agentObserved)).push
          (spawnAnnouncement req budget s!"spawn-{m.engine.nextCallId}") ∧
      outset.2.frame.provenance = m.frame.provenance := by
  let enlisted := (enlist ports req budget profile).run m
  obtain ⟨hframe, hline, hshape⟩ : Untouched m enlisted.2 := untouched_enlist ports _ _ _ m
  refine ⟨hline, hshape, ?_, ?_⟩
  · show (enlisted.2.frame.state.push
      (.new .history (spawnReceipt req budget) .agentObserved)).push
        (spawnAnnouncement req budget s!"spawn-{enlisted.2.engine.nextCallId}") = _
    rw [hframe, hline]
    rfl
  · show enlisted.2.frame.provenance = _
    rw [hframe]

theorem Goes.shape {said : σ → Set String} {judging : Prop} {m m' : Machine σ}
    (h : Goes sys said judging m m') : m'.engine.upwardShape = m.engine.upwardShape := by
  refine Calls.relates (R := fun m m' : Machine σ => m'.engine.upwardShape = m.engine.upwardShape)
    (fun _ => rfl) (fun _ _ _ h h' => h'.trans h) ?_ ?_ h
  · intro m m' hchange
    cases hchange with
    | engine engine h => exact h
    | _ => rfl
  · rintro m c d m' ⟨frame, -, -, rfl⟩ hbody rfl
    exact hbody

/-- Running a child leaves the parent's frame, its spend apart, and the upward shape. -/
theorem runChild_parent (ports : Ports σ) (n : Nat) (child : Run) (window : SessionState)
    (m : Machine σ) :
    let ended := (runChild (nested sys n) ports child window).run m
    ended.2.frame.state = m.frame.state ∧ ended.2.frame.provenance = m.frame.provenance ∧
      ended.2.engine.upwardShape = m.engine.upwardShape := by
  have hgoes : Changes sys (fun _ => Set.univ) True
      (runChild (nested sys n) ports child window) :=
    changes_runChild (nested_changes (fun _ _ _ _ _ => Set.subset_univ _) n) (hearing_univ ports) _ _
  exact ⟨rfl, rfl, (hgoes m).shape⟩

/-- Under the typed shape taking the child back pushes its note and nothing else. -/
theorem takeBack_run (ports : Ports σ) (sub : SubRun σ) (req : SpawnRequest) (budget : Budget)
    (outset : Outset) (outcome : LoopOutcome) (frame : Frame) (m : Machine σ)
    (typed : m.engine.upwardShape = .typed) :
    let after := ((takeBack sys ports sub req budget (outset, outcome, frame)).run m).2
    after.state = m.state.push (noteBlock (typedNote req.contract frame.run.spent budget outcome)
        frame.run.spent outset.line) ∧
      after.frame.provenance = m.frame.provenance := by
  have hend : Stateful.Within Untouched (recordChildEnd ports outset.childId outcome) := by
    cases outcome with
    | escalated | failed => exact untouched_record _ _ _
    | _ => exact fun m => ⟨rfl, rfl, rfl⟩
  let recorded := ((recordChildEnd ports outset.childId outcome).run m).2
  obtain ⟨hframe, -, hshape⟩ : Untouched m recorded := hend m
  have hnote : ∀ completed prose note, (upwardNote ports sub completed prose note).run recorded =
      (note, recorded) := by
    intro completed prose note
    unfold upwardNote
    rw [Stateful.run_bind, Stateful.run_read, hshape, typed]
    rfl
  dsimp only
  unfold takeBack
  rw [Stateful.run_bind]
  show (Stateful.run _ recorded).2.state = _ ∧ (Stateful.run _ recorded).2.frame.provenance = _
  rw [Stateful.run_bind, hnote, Machine.state, Machine.state, ← hframe]
  exact ⟨rfl, rfl⟩

/-- How the child of a spawn from `m` ended, and the frame it left. -/
def childEnd (sys : Outside σ) (ports : Ports σ) (n : Nat) (req : SpawnRequest) (budget : Budget)
    (profile : CapabilityProfile) (m : Machine σ) : LoopOutcome × Frame :=
  ((throughChild sys ports (nested sys n) req budget profile).run ((uses [⟨"run"⟩]).run m).2).1.2

/-- **A spawn leaves its three blocks**, and the parent otherwise as it was. -/
theorem spawn_run (ports : Ports σ) (n : Nat) (req : SpawnRequest) (budget : Budget)
    (profile : CapabilityProfile) (m : Machine σ) (typed : m.engine.upwardShape = .typed)
    (admitted : admitSpawn m.run req = .ok (budget, profile)) :
    let ended := childEnd sys ports n req budget profile m
    let after := ((spawn sys ports (nested sys n) req).run m).2
    after.state = { m.state with
        volatile := m.state.volatile ++ spawnBlocks req budget ended.2.run.spent
          m.engine.nextCallId (.of req.contract ended.1) } ∧
      after.frame.provenance = m.frame.provenance := by
  let used := ((uses [⟨"run"⟩]).run m).2
  let begun := (setOut sys ports req budget profile).run used
  obtain ⟨hline, hshape, hstart, hbegun⟩ := @setOut_run σ sys ports req budget profile used
  let ran := (runChild (nested sys n) ports.forChild begun.1.child begun.1.window).run begun.2
  obtain ⟨hstate, hran, hkept⟩ := @runChild_parent σ sys ports.forChild n begun.1.child
    begun.1.window begun.2
  obtain ⟨hback, hprovenance⟩ := @takeBack_run σ sys ports (nested sys n) req budget begun.1
    ran.1.1 ran.1.2 ran.2 ((hkept.trans hshape).trans typed)
  have hrun : ((spawn sys ports (nested sys n) req).run m).2 =
      ((takeBack sys ports (nested sys n) req budget (begun.1, ran.1.1, ran.1.2)).run ran.2).2 := by
    unfold spawn
    rw [Stateful.run_bind, Stateful.run_read]
    simp only [admitted]
    rw [Stateful.run_bind, spawnAdmitted_eq]
    rfl
  have hended : childEnd sys ports n req budget profile m = ran.1 := rfl
  dsimp only
  rw [hended, hrun]
  refine ⟨hback.trans ?_, hprovenance.trans (hran.trans hbegun)⟩
  rw [typedNote_eq, hline, show ran.2.state = _ from hstate.trans hstart]
  show SessionState.mk _ _ _ _ _ _ _ = _
  congr 1
  exact List.append_assoc (m.state.volatile ++ [_]) [_] [_] |>.trans (List.append_assoc _ _ _)

/-- **Only the result crosses.** Two spawns of one request from the same parent, over any
ports and environments: if their children, whatever they did, agree on what crosses and on
what they spent, they leave the parent the same session and the same provenance. What the
session has gained is the receipt, one announced call and its one result, made from the
request, the spend and what crossed. -/
theorem only_the_result_crosses (sys : Outside σ) (sys' : Outside τ) (ports : Ports σ)
    (ports' : Ports τ) (n n' : Nat) (req : SpawnRequest) (budget : Budget)
    (profile : CapabilityProfile) (m : Machine σ) (m' : Machine τ) (engine : m'.engine = m.engine)
    (frame : m'.frame = m.frame) (typed : m.engine.upwardShape = .typed)
    (admitted : admitSpawn m.run req = .ok (budget, profile))
    (crossing : Crossing.of req.contract (childEnd sys' ports' n' req budget profile m').1 =
      .of req.contract (childEnd sys ports n req budget profile m).1)
    (spent : (childEnd sys' ports' n' req budget profile m').2.run.spent =
      (childEnd sys ports n req budget profile m).2.run.spent) :
    let after := ((spawn sys ports (nested sys n) req).run m).2
    let after' := ((spawn sys' ports' (nested sys' n') req).run m').2
    let blocks := spawnBlocks req budget (childEnd sys ports n req budget profile m).2.run.spent
      m.engine.nextCallId (.of req.contract (childEnd sys ports n req budget profile m).1)
    (after'.state = after.state ∧ after'.frame.provenance = after.frame.provenance) ∧
      after.state = { m.state with volatile := m.state.volatile ++ blocks } ∧
      after.frame.provenance = m.frame.provenance ∧
      ∃ id, announcedIn blocks = [id] ∧ answeredIn blocks = [id] := by
  obtain ⟨hstate, hprovenance⟩ := @spawn_run σ sys ports n req budget profile m typed admitted
  have typed' : m'.engine.upwardShape = .typed := by rw [engine, typed]
  have admitted' : admitSpawn m'.run req = .ok (budget, profile) := by
    rw [Machine.run, frame]
    exact admitted
  obtain ⟨hstate', hprovenance'⟩ :=
    @spawn_run τ sys' ports' n' req budget profile m' typed' admitted'
  have hsame : m'.state = m.state := congrArg Frame.state frame
  refine ⟨⟨?_, ?_⟩, hstate, hprovenance, _, spawnBlocks_paired _ _ _ _ _⟩
  · rw [hstate, hstate', crossing, spent, engine, hsame]
  · rw [hprovenance, hprovenance', frame]

namespace Script

/-- A run that may create agents, before a model that follows the script. -/
def creating (script : Script) : Machine Script :=
  start 100000 (secretary ⟨[⟨"run"⟩, look], by decide, by decide⟩ .denyAll) { ample with depth := 1 }
    script

def errand : SpawnRequest :=
  { task := "look", contract := .answer, orphan := .terminate, share := .large, grantTokens := none
    tools := [look], toolsDeclared := true, readsUntrusted := false, role := .worker
    disposition := .work }

/-- The model answers the child at once. -/
def direct : Machine Script := creating { answers := [say "42"] }

/-- The child calls a tool there is not before it answers. -/
def roundabout : Machine Script :=
  creating { answers := [call [⟨"a", ⟨"nope"⟩, .empty⟩], say "42"] }

/-- What the errand is granted. -/
def granted : Budget × CapabilityProfile :=
  (admitSpawn direct.run errand).toOption.get (by decide)

set_option maxRecDepth 20000 in
theorem roundabout_crosses_alike :
    ((spawn outside ports (nested outside 1) errand).run roundabout).2.state =
      ((spawn outside ports (nested outside 1) errand).run direct).2.state := by
  have hspent : (childEnd outside ports 1 errand granted.1 granted.2 roundabout).2.run.spent =
      (childEnd outside ports 1 errand granted.1 granted.2 direct).2.run.spent := by decide
  exact (only_the_result_crosses outside outside ports ports 1 1 errand granted.1 granted.2 direct
    roundabout rfl rfl rfl rfl rfl hspent).1.1

end Script

end MarloweAgent.Loop
