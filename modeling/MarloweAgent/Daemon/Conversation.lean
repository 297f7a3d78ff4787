import MarloweAgent.Daemon.Steering

/-! What a turn of a conversation starts from. The store keeps what each turn left under the
name the turn was asked by; a resumed run has no such name, and its turn is kept under the
text of its session's id. A turn continues its conversation when the two never get in each
other's way. -/

namespace MarloweAgent.Daemon
open Contract EventLog Library Loop

/-! ## One turn -/

/-- Everything a conversation carries from one turn to the next. -/
structure SessionMemory where
  state : SessionState
  provenance : Provenance

/-- What retrieval injects for a message. -/
structure Retrieved where
  text : String
  count : Nat
  floor : TrustClass

def Retrieved.nothingWasAsked : Retrieved := { text := "", count := 0, floor := .userAsserted }

/-- What a turn reads of the daemon around it: the prompt's texts, the workspace, the profile
and budget of a root run, the belief store and the skill registry as they are then. -/
structure Surroundings where
  identity : String
  workspaceRule : String
  governancePrompt : String
  workspaceMap : Option String
  profile : CapabilityProfile
  budget : Budget
  retrieve : String → String → Retrieved
  surface : String → Option String
  hitsFor : String → Option String

/-- The memory of a conversation that starts. -/
def SessionMemory.opened (around : Surroundings) (session : SessionId) : SessionMemory :=
  let state := ((SessionState.new session around.identity).assertGovernance
    ⟨around.workspaceRule⟩).assertGovernance ⟨around.governancePrompt⟩
  { state := match around.workspaceMap with
      | some map => state.push (.new .projectFiles map .agentObserved)
      | none => state
    provenance := .new }

/-- The blocks of a tier that no skill surfaced. -/
def spoken (blocks : List Block) : List Block := blocks.filter (·.source ≠ .skills)

/-- The block of what retrieval injects, if anything. -/
def injected (retrieved : Retrieved) : List Block :=
  if retrieved.count = 0 then [] else [.new .injectedMemory retrieved.text retrieved.floor]

def pushRetrieved (state : SessionState) (retrieved : Retrieved) : SessionState :=
  (injected retrieved).foldl SessionState.push state

/-- The constant half of the skills replaces the one before it, at the tail of its tier. -/
def pushSurfaced (state : SessionState) : Option String → SessionState
  | some text =>
    { state with contextBlocks := spoken state.contextBlocks }.push (.new .skills text .userAsserted)
  | none => state

/-- So does the half for this message, at the tail of the history. -/
def pushHits (state : SessionState) (hits : Option String) : SessionState :=
  { state with
    volatile := spoken state.volatile ++
      hits.toList.map fun hits => .new .skills hits .userAsserted }

/-- Where `turn` enters the loop: from the store, or from the checkpoint in its place. A turn
is taken for a resume by the steps it was restored with. -/
def enterTurn (around : Surroundings) (idOf : String → SessionId)
    (sessions : OrderedMap String SessionMemory) (session message : String)
    (resumed : Option Checkpoint) (fresh : RunId) : Restored :=
  let sessionId := match resumed with
    | some cp => cp.session
    | none => idOf session
  let memory := (sessions.get? session).getD (.opened around sessionId)
  let start : Restored := match resumed with
    | some cp => cp.restore
    | none =>
      { run := .root fresh sessionId around.profile around.budget .answer
        state := memory.state.push (.new .history message .userAsserted)
        provenance := memory.provenance.attributeUserMessage message
        steps := 0
        contractRetries := 0 }
  let isResume := start.steps > 0
  let retrieved := if isResume then .nothingWasAsked else around.retrieve session message
  let state := pushRetrieved start.state retrieved
  let state := pushSurfaced state (if isResume then none else around.surface message)
  { start with state := if isResume then state else pushHits state (around.hitsFor message) }

/-! ## A sequence of turns -/

/-- What a turn is: a message under a session's name, with the id of its run, or a resume. -/
inductive TurnRequest
  | ask (session message : String) (run : RunId)
  | resume (run : RunId)

/-- A turn: what is asked, what it reads, what the loop leaves of the conversation unless the
turn degraded before it, and the plane once the turn is over. -/
structure Turn where
  request : TurnRequest
  around : Surroundings
  left : Option SessionMemory
  plane : ControlPlane

/-- A turn that reached the loop: the key it was stored under, what it entered with and what
it left. -/
structure TakenTurn where
  request : TurnRequest
  around : Surroundings
  resumed : Option Checkpoint
  session : String
  entered : Restored
  left : SessionMemory

structure Conversations where
  sessions : OrderedMap String SessionMemory
  plane : ControlPlane
  taken : List TakenTurn

namespace Conversations

/-- A daemon that was just opened, on a plane with what its journal holds. -/
def opened (plane : ControlPlane) : Conversations := ⟨OrderedMap.empty, plane, []⟩

section Turns

/- `SessionId::from_name`, and how an id prints. -/
variable (idOf : String → SessionId) (shownId : SessionId → String)

/-- `turn`, with its message or the checkpoint its run was resumed from. -/
def take (c : Conversations) (t : Turn) (session message : String) (resumed : Option Checkpoint)
    (fresh : RunId) : Conversations :=
  match t.left with
  | none => { c with plane := t.plane }
  | some left =>
    let entered := enterTurn t.around idOf c.sessions session message resumed fresh
    { sessions := c.sessions.insert session left
      plane := t.plane
      taken := c.taken ++ [⟨t.request, t.around, resumed, session, entered, left⟩] }

/-- `ask_streaming` and `resume_streaming`. -/
def step (c : Conversations) (t : Turn) : Conversations :=
  match t.request with
  | .ask session message run => c.take idOf t session message none run
  | .resume run =>
    match (c.plane.resume run).1 with
    | .ok cp => c.take idOf t (shownId cp.session) "" (some cp) cp.run
    | .error _ => { c with plane := t.plane }

def after (plane : ControlPlane) (turns : List Turn) : Conversations :=
  turns.foldl (step idOf shownId) (opened plane)

end Turns

/-! ### What a conversation owes -/

/-- The turns of a session: those asked by its name, and those of its resumed runs. -/
def belongsTo (idOf : String → SessionId) (session : String) (t : TakenTurn) : Bool :=
  match t.resumed with
  | none => t.session = session
  | some cp => cp.session = idOf session

/-- The last turn there was, of those that `p` holds of. -/
def latest (p : TakenTurn → Bool) (taken : List TakenTurn) : Option TakenTurn :=
  taken.reverse.find? p

/-- A turn starts from what another left, with its own message, memories and skills. The
skills of that turn give way to its own. -/
structure Continues (around : Surroundings) (session message : String) (left : SessionMemory)
    (entered : Restored) : Prop where
  provenance : entered.provenance = left.provenance.attributeUserMessage message
  volatile : entered.state.volatile =
    spoken left.state.volatile ++ .new .history message .userAsserted ::
      injected (around.retrieve session message) ++
      (around.hitsFor message).toList.map fun hits => .new .skills hits .userAsserted
  context : entered.state.contextBlocks =
    match around.surface message with
    | some text => spoken left.state.contextBlocks ++ [.new .skills text .userAsserted]
    | none => left.state.contextBlocks
  others : { entered.state with
      volatile := left.state.volatile, contextBlocks := left.state.contextBlocks } = left.state

/-- An ask continues the latest turn of its session; a resumed run enters as it was restored. -/
def Right (idOf : String → SessionId) (earlier : List TakenTurn) (t : TakenTurn) : Prop :=
  match t.request, t.resumed with
  | .ask session message _, _ =>
    Continues t.around session message
      (((latest (belongsTo idOf session) earlier).map TakenTurn.left).getD
        (.opened t.around (idOf session))) t.entered
  | .resume _, some cp => t.entered = cp.restore
  | .resume _, none => False

section Condition

variable (idOf : String → SessionId) (shownId : SessionId → String)

/-- A run is resumed past its first step, and of the turns stored under the name of an ask
the latest is the latest turn of that session. -/
def Kept (c : Conversations) (t : Turn) : Prop :=
  match t.request with
  | .ask session _ _ =>
    latest (·.session = session) c.taken = latest (belongsTo idOf session) c.taken
  | .resume run => ∀ cp, (c.plane.resume run).1 = .ok cp → 0 < cp.step

def AllKept (c : Conversations) : List Turn → Prop
  | [] => True
  | t :: rest => c.Kept idOf t ∧ AllKept (c.step idOf shownId t) rest

end Condition

/-! ### Entering the loop -/

section Enter

variable (around : Surroundings) (idOf : String → SessionId)
  (sessions : OrderedMap String SessionMemory) (session message : String) (fresh : RunId)

/-- A run resumed past its first step enters as it was restored. -/
theorem enterTurn_resume {cp : Checkpoint} (h : 0 < cp.step) :
    enterTurn around idOf sessions session message (some cp) fresh = cp.restore := by
  have hsteps : cp.restore.steps > 0 := h
  simp only [enterTurn, if_pos hsteps]
  rfl

theorem pushRetrieved_eq (state : SessionState) (retrieved : Retrieved) :
    pushRetrieved state retrieved =
      { state with volatile := state.volatile ++ injected retrieved } := by
  unfold pushRetrieved injected
  split
  · rw [List.append_nil]
    rfl
  · rfl

theorem pushSurfaced_volatile (state : SessionState) (surfaced : Option String) :
    (pushSurfaced state surfaced).volatile = state.volatile := by
  cases surfaced <;> rfl

/-- No skill says a message, and none is retrieved. -/
theorem spoken_told (blocks : List Block) (message : String) (retrieved : Retrieved) :
    spoken (blocks ++ [.new .history message .userAsserted] ++ injected retrieved) =
      spoken blocks ++ .new .history message .userAsserted :: injected retrieved := by
  have hinjected : spoken (injected retrieved) = injected retrieved := by
    unfold injected
    split <;> rfl
  rw [spoken, List.filter_append, List.filter_append]
  rw [spoken] at hinjected
  rw [hinjected, List.append_assoc]
  rfl

/-- An ask continues what the store holds under its name. -/
theorem enterTurn_ask : Continues around session message
    ((sessions.get? session).getD (.opened around (idOf session)))
    (enterTurn around idOf sessions session message none fresh) := by
  generalize hleft : (sessions.get? session).getD (.opened around (idOf session)) = left
  have hentered : enterTurn around idOf sessions session message none fresh =
      { run := .root fresh (idOf session) around.profile around.budget .answer
        state := pushHits (pushSurfaced
          (pushRetrieved (left.state.push (.new .history message .userAsserted))
            (around.retrieve session message)) (around.surface message)) (around.hitsFor message)
        provenance := left.provenance.attributeUserMessage message
        steps := 0
        contractRetries := 0 } := by
    rw [← hleft]
    rfl
  rw [hentered]
  refine ⟨rfl, ?_, ?_, ?_⟩
  · show spoken (pushSurfaced _ _).volatile ++ _ = _
    rw [pushSurfaced_volatile, pushRetrieved_eq, ← spoken_told]
    rfl
  · show (pushSurfaced _ _).contextBlocks = _
    rw [pushRetrieved_eq]
    cases around.surface message <;> rfl
  · rw [pushRetrieved_eq]
    cases around.surface message <;> rfl

end Enter

/-! ### Whole sequences -/

/-- The store holds, under each name, what the last turn stored there left; and every turn
that was taken was right. -/
structure Continuing (idOf : String → SessionId) (c : Conversations) : Prop where
  stored : ∀ session, c.sessions.get? session =
    (latest (·.session = session) c.taken).map TakenTurn.left
  right : ∀ earlier t later, c.taken = earlier ++ t :: later → Right idOf earlier t

theorem latest_concat (p : TakenTurn → Bool) (taken : List TakenTurn) (t : TakenTurn) :
    latest p (taken ++ [t]) = if p t then some t else latest p taken := by
  simp only [latest, List.reverse_append, List.reverse_singleton, List.singleton_append,
    List.find?_cons]
  cases p t <;> rfl

section Runs

variable {idOf : String → SessionId} {shownId : SessionId → String} {c : Conversations} {t : Turn}

/-- A turn that was right is stored where its own name finds it. -/
theorem Continuing.take (h : Continuing idOf c) {session message : String}
    {resumed : Option Checkpoint} {fresh : RunId}
    (hright : ∀ left, Right idOf c.taken ⟨t.request, t.around, resumed, session,
      enterTurn t.around idOf c.sessions session message resumed fresh, left⟩) :
    Continuing idOf (c.take idOf t session message resumed fresh) := by
  unfold Conversations.take
  cases t.left with
  | none => exact ⟨h.stored, h.right⟩
  | some left =>
    refine ⟨fun other => ?_, fun earlier taken later hsplit => ?_⟩
    · simp only [OrderedMap.get?_insert, latest_concat, decide_eq_true_eq]
      by_cases hname : session = other
      · rw [if_pos hname, if_pos hname]
        rfl
      · rw [if_neg hname, if_neg hname]
        exact h.stored other
    · rcases List.eq_nil_or_concat later with rfl | ⟨init, last, rfl⟩
      · obtain ⟨rfl, heq⟩ := List.append_inj' hsplit rfl
        cases heq
        exact hright left
      · rw [List.concat_eq_append, ← List.cons_append, ← List.append_assoc] at hsplit
        exact h.right earlier taken init (List.append_inj' hsplit rfl).1

theorem Continuing.step (h : Continuing idOf c) (hkept : c.Kept idOf t) :
    Continuing idOf (c.step idOf shownId t) := by
  unfold Conversations.step
  cases hrequest : t.request with
  | ask session message run =>
    refine h.take fun left => ?_
    rw [Kept, hrequest] at hkept
    rw [hrequest]
    show Continues _ _ _ (((latest (belongsTo idOf session) c.taken).map _).getD _) _
    rw [← hkept, ← h.stored]
    exact enterTurn_ask _ _ _ _ _ _
  | resume run =>
    rw [Kept, hrequest] at hkept
    cases hresume : (c.plane.resume run).1 with
    | error why =>
      simp only [hresume]
      exact ⟨h.stored, h.right⟩
    | ok cp =>
      simp only [hresume]
      refine h.take fun left => ?_
      rw [hrequest]
      exact enterTurn_resume t.around idOf c.sessions _ "" cp.run (hkept cp hresume)

theorem Continuing.run {turns : List Turn} (h : Continuing idOf c)
    (hkept : AllKept idOf shownId c turns) :
    Continuing idOf (turns.foldl (Conversations.step idOf shownId) c) := by
  induction turns generalizing c with
  | nil => exact h
  | cons t rest ih => exact ih (h.step hkept.1) hkept.2

end Runs

/-- **Every turn continues its conversation**, and every resumed run enters as it was restored,
in a sequence of turns that keeps the names apart and resumes no run at its first step. -/
theorem turns_right (idOf : String → SessionId) (shownId : SessionId → String)
    (plane : ControlPlane) (turns : List Turn)
    (hkept : AllKept idOf shownId (opened plane) turns) (earlier later : List TakenTurn)
    (t : TakenTurn) (hsplit : (after idOf shownId plane turns).taken = earlier ++ t :: later) :
    Right idOf earlier t := by
  have hopened : Continuing idOf (opened plane) :=
    ⟨fun _ => rfl, fun earlier t later h => by simp [opened] at h⟩
  exact (hopened.run hkept).right earlier t later hsplit

/-! ### A run that is resumed -/

def quiet : Surroundings :=
  { identity := "M", workspaceRule := "w", governancePrompt := "g", workspaceMap := none
    profile := Script.looks, budget := Script.ample
    retrieve := fun _ _ => .nothingWasAsked, surface := fun _ => none, hitsFor := fun _ => none }

def firstLeft : SessionMemory :=
  { state := ((SessionMemory.opened quiet 1).state.push (.new .history "plan" .userAsserted)).push
      (.new .history "which one?" .agentInferred)
    provenance := .attributeUserMessage .new "plan" }

def secondLeft : SessionMemory :=
  { firstLeft with state := firstLeft.state.push (.new .history "done" .agentInferred) }

/-- The first turn pauses after a step. -/
def pausedFirst : Checkpoint :=
  .capture { Run.root 1 1 quiet.profile quiet.budget .answer with status := .paused .awaitingAnswer }
    firstLeft.state 1 0

def pausedPlane : ControlPlane :=
  { ControlPlane.new with log := [⟨.checkpointed, 1, .checkpoint pausedFirst⟩] }

def pausedAndResumed : List Turn :=
  [⟨.ask "a" "plan" 1, quiet, some firstLeft, pausedPlane⟩,
    ⟨.resume 1, quiet, some secondLeft, pausedPlane⟩]

def firstTaken : TakenTurn :=
  { request := .ask "a" "plan" 1, around := quiet, resumed := none, session := "a"
    entered := enterTurn quiet (fun _ => 1) OrderedMap.empty "a" "plan" none 1, left := firstLeft }

def resumedTaken : TakenTurn :=
  { request := .resume 1, around := quiet, resumed := some pausedFirst, session := "#1"
    entered := pausedFirst.restore, left := secondLeft }

theorem resumed_turn_right : Right (fun _ => 1) [firstTaken] resumedTaken :=
  turns_right (fun _ => 1) (fun _ => "#1") .new pausedAndResumed
    ⟨rfl, fun cp hcp => by cases hcp; decide, trivial⟩ [firstTaken] [] resumedTaken rfl

/-- A run that paused in its first step is taken for a new turn, with nothing asked. -/
example :
    let around := { quiet with retrieve := fun _ _ => ⟨"a note", 1, .untrustedContent⟩ }
    (enterTurn around (fun _ => 1) OrderedMap.empty "#1" "" (some { pausedFirst with step := 0 })
      1).state.volatile.length = pausedFirst.state.volatile.length + 1 := rfl

/-- The next ask under the session's name misses what the resumed run said. -/
theorem resumed_turn_forgotten : ¬ ∀ (idOf : String → SessionId) (shownId : SessionId → String)
    (plane : ControlPlane) (turns : List Turn) (earlier later : List TakenTurn) (t : TakenTurn),
    (after idOf shownId plane turns).taken = earlier ++ t :: later → Right idOf earlier t := by
  intro hall
  have hright := hall (fun _ => 1) (fun _ => "#1") .new
    (pausedAndResumed ++ [⟨.ask "a" "go on" 2, quiet, some secondLeft, pausedPlane⟩])
    [_, _] [] _ rfl
  exact absurd (congrArg List.length hright.volatile) (by decide)

end Conversations

end MarloweAgent.Daemon
