import MarloweAgent.Daemon.Conversation
import MarloweAgent.Loop.Restoring
import MarloweAgent.Loop.Sinking
import MarloweAgent.Loop.Words

/-! Whose words the targets of a session are, once a block that blocks composed targets has been
in view. The turns of one session are run by the engine, one after the other, on an
environment that writes down what the user is heard to say; turns of other sessions come in
between. A resumed run reads the user's words back from its checkpoint, where those said to it
while it ran stand under the harness's own tags. -/

namespace MarloweAgent.Daemon
open Contract Library Loop Permission Tools

variable {σ α : Type}

/-! ## Listening -/

/-- `f`, with what it hands over of the user's words written down. -/
def overheard (words : α → List String) (f : Stateful σ α) : Stateful (σ × List String) α :=
  ⟨fun s => ((f.run s.1).1, (f.run s.1).2, s.2 ++ words (f.run s.1).1)⟩

/-- `f`, in which nobody speaks. -/
def unheard (f : Stateful σ α) : Stateful (σ × List String) α := overheard (fun _ => []) f

/-- The ports of a turn: the user is heard in a steer and in an interruption, and nowhere else. -/
def listening (ports : Ports σ) : Ports (σ × List String) :=
  { driver :=
      { callStreamingSplit := fun view offered limits =>
          unheard (ports.driver.callStreamingSplit view offered limits)
        streams := fun s => ports.driver.streams s.1
        failover := fun e => unheard (ports.driver.failover e) }
    summarize := fun view => unheard (ports.summarize view)
    executeBatch := fun items => unheard (ports.executeBatch items)
    memory := ports.memory.map fun remember run session claim floor now =>
      unheard (remember run session claim floor now)
    escalations := ports.escalations.map fun raise run route req => unheard (raise run route req)
    approvals :=
      { isInteractive := fun s => ports.approvals.isInteractive s.1
        declineReason := fun s => ports.approvals.declineReason s.1
        awaitApproval := fun radius => unheard (ports.approvals.awaitApproval radius) }
    sink := fun event => unheard (ports.sink event)
    control :=
      { cancelled := fun s run => ports.control.cancelled s.1 run
        takeSteer := fun run =>
          overheard (fun steer => (steer.map SteerMessage.text).toList) (ports.control.takeSteer run)
        takeInterrupt := overheard Option.toList ports.control.takeInterrupt }
    nowMs := unheard ports.nowMs
    append := fun now kind run session payload =>
      unheard (ports.append now kind run session payload) }

def listeningOutside (sys : Outside σ) : Outside (σ × List String) :=
  { scope :=
      { openPath := fun globs workspace value access =>
          unheard (sys.scope.openPath globs workspace value access) }
    contentKey := sys.contentKey
    sayable := sys.sayable
    reachesTrigger := sys.reachesTrigger
    showFill := sys.showFill }

/-- What was heard, as a set. -/
def heardIn (s : σ × List String) : Set String := {text | text ∈ s.2}

theorem remembers_overheard (words : α → List String) (f : Stateful σ α) :
    Remembers heardIn (overheard words f) :=
  fun _ _ htext => List.mem_append_left _ htext

theorem remembers_unheard (f : Stateful σ α) : Remembers heardIn (unheard f) :=
  remembers_overheard _ f

theorem hearing_listening (ports : Ports σ) : Hearing heardIn (listening ports) where
  call _ _ _ := remembers_unheard _
  failover _ := remembers_unheard _
  summarize _ := remembers_unheard _
  executeBatch _ := remembers_unheard _
  memory remember h run session claim floor now := by
    obtain ⟨inner, -, rfl⟩ := Option.map_eq_some_iff.mp h
    exact remembers_unheard _
  escalations raise h run route req := by
    obtain ⟨inner, -, rfl⟩ := Option.map_eq_some_iff.mp h
    exact remembers_unheard _
  awaitApproval _ := remembers_unheard _
  sink _ := remembers_unheard _
  nowMs := remembers_unheard _
  append _ _ _ _ _ := remembers_unheard _
  takeSteer _ :=
    remembers_overheard (fun steer : Option SteerMessage => (steer.map SteerMessage.text).toList) _
  steer run env steer h := by
    have htaken : ((ports.control.takeSteer run).run env.1).1 = some steer := h
    refine List.mem_append_right _ ?_
    show steer.text ∈ (((ports.control.takeSteer run).run env.1).1.map SteerMessage.text).toList
    rw [htaken]
    exact List.mem_singleton_self _
  takeInterrupt := remembers_overheard _ _
  interrupt env text h := by
    have htaken : (ports.control.takeInterrupt.run env.1).1 = some text := h
    refine List.mem_append_right _ ?_
    show text ∈ (ports.control.takeInterrupt.run env.1).1.toList
    rw [htaken]
    exact List.mem_singleton_self _

theorem remembers_listeningOutside (sys : Outside σ) :
    (listeningOutside sys).Remembers heardIn :=
  fun _ _ _ _ => remembers_unheard _

/-! ## A session -/

/-- How a turn of a session opens: with a message under its name, or with a checkpoint of it. -/
inductive Opening
  | ask (message : String) (run : RunId)
  | resume (cp : Checkpoint)

/-- A turn of a session: how it opens, and what the daemon makes the engine of for it. -/
structure SessionTurn (σ : Type) where
  opening : Opening
  around : Surroundings
  engine : Engine
  outside : Outside σ
  ports : Ports σ
  fresh : Nat

inductive SessionStep (σ : Type)
  | turn (t : SessionTurn σ)
  /-- A turn of another session leaves its memory under another key. -/
  | elsewhere (key : String) (left : SessionMemory)

/-- What a turn did: what the session's model had been shown before, what the user had said by
its end, the engine's trace of it and the memory it left. -/
structure SessionTaken where
  shown : List SessionState
  said : List String
  trace : List Effect
  left : SessionMemory

structure SessionRun (σ : Type) where
  sessions : OrderedMap String SessionMemory
  /-- What the session's last turn left. -/
  latest : Option SessionMemory
  env : σ
  said : List String
  shown : List SessionState
  taken : List SessionTaken

namespace SessionRun

def opened (env : σ) : SessionRun σ := ⟨OrderedMap.empty, none, env, [], [], []⟩

section Turns

/- The session's name, `SessionId::from_name`, and how an id prints. -/
variable (session : String) (idOf : String → SessionId) (shownId : SessionId → String)

/-- Where a turn enters the loop. -/
def entered (s : SessionRun σ) (t : SessionTurn σ) : Restored :=
  match t.opening with
  | .ask message run => enterTurn t.around idOf s.sessions session message none run
  | .resume cp => enterTurn t.around idOf s.sessions (shownId cp.session) "" (some cp) cp.run

def saidBefore (s : SessionRun σ) (t : SessionTurn σ) : List String :=
  match t.opening with
  | .ask message _ => s.said ++ [message]
  | .resume _ => s.said

/-- The machine a turn enters the loop with. -/
def starting (s : SessionRun σ) (t : SessionTurn σ) : Machine (σ × List String) :=
  let entry := s.entered session idOf shownId t
  .start t.engine entry.run entry.state entry.provenance (s.env, s.saidBefore t) t.fresh entry.steps
    entry.contractRetries

def driven (s : SessionRun σ) (t : SessionTurn σ) : Machine (σ × List String) :=
  let m := s.starting session idOf shownId t
  ((continueFrom (listeningOutside t.outside) (listening t.ports) m.frame.locals.steps
    m.frame.locals.contractRetries).run m).2

/-- The key a turn is kept under. -/
def keyOf (t : SessionTurn σ) : String :=
  match t.opening with
  | .ask _ _ => session
  | .resume cp => shownId cp.session

def step (s : SessionRun σ) : SessionStep σ → SessionRun σ
  | .turn t =>
    let m := s.driven session idOf shownId t
    let left : SessionMemory := ⟨m.state, m.frame.provenance⟩
    { sessions := s.sessions.insert (keyOf session shownId t) left
      latest := some left
      env := m.env.1
      said := m.env.2
      shown := s.shown ++ m.frame.seen
      taken := s.taken ++ [⟨s.shown, m.env.2, m.trace, left⟩] }
  | .elsewhere key left => { s with sessions := s.sessions.insert key left }

def after (env : σ) (steps : List (SessionStep σ)) : SessionRun σ :=
  steps.foldl (step session idOf shownId) (opened env)

end Turns

end SessionRun

/-! ## What a session owes -/

/-- A block that blocks composed targets was in one of these states. -/
def Exposed (shown : List SessionState) : Prop :=
  ∃ state ∈ shown, ∃ b ∈ state.sources, blocksComposedTargets b.trust = true

/-- Once such a block was in view, in an earlier turn or in the run itself, the targets of a
call that is let through above `inert` are the user's words. -/
def UsersTargets (shown : List SessionState) (said : Set String) : Effect → Prop
  | .adjudicated _ seen req adjudication =>
    Exposed (shown ++ seen) → TargetsSaid said req adjudication
  | _ => True

/-- Nothing a turn attributes is anyone else's, and no call of it takes a target from elsewhere. -/
structure SessionTaken.Faultless (t : SessionTaken) : Prop where
  targets : ∀ e ∈ t.trace, UsersTargets t.shown {text | text ∈ t.said} e
  attributed : t.left.provenance.Faithful {text | text ∈ t.said}

section Condition

variable (session : String) (idOf : String → SessionId) (shownId : SessionId → String)

/-- The user turns of a resumed checkpoint stand as the user said them; once the session was
exposed an ask continues what its last turn left, and a checkpoint blocks composed targets
still. No other session is kept under this one's name. -/
def Careful (s : SessionRun σ) : SessionStep σ → Prop
  | .turn t =>
    match t.opening with
    | .ask _ _ => Exposed s.shown → s.sessions.get? session = s.latest
    | .resume cp => (∀ b ∈ cp.state.turns, b.text ∈ s.said) ∧ SkillsVouched cp.state.sources ∧
        (Exposed s.shown → blocksComposedTargets cp.state.trustFloor = true)
  | .elsewhere key _ => key ≠ session

def AllCareful (s : SessionRun σ) : List (SessionStep σ) → Prop
  | [] => True
  | step :: rest =>
    Careful session s step ∧ AllCareful (s.step session idOf shownId step) rest

end Condition

/-! ## Entering the loop -/

/-- All but skills is carried over, and no skill is put in but in the user's class. -/
structure Carries (state state' : SessionState) : Prop where
  kept : ∀ b ∈ state.sources, b.source ≠ .skills → b ∈ state'.sources
  skills : SkillsVouched state.sources → SkillsVouched state'.sources

namespace Carries

variable {state state' state'' : SessionState}

theorem trans (h : Carries state state') (h' : Carries state' state'') : Carries state state'' :=
  ⟨fun b hb hsource => h'.kept b (h.kept b hb hsource) hsource, fun hs => h'.skills (h.skills hs)⟩

/-- A skill is no worse than anything, so the floor does not rise. -/
theorem floor (h : Carries state state') (hs : SkillsVouched state.sources) :
    state'.trustFloor ≤ state.trustFloor := by
  obtain ⟨b, hb, hfloor⟩ := floorOf_attained state.sources_ne_nil
  show state'.trustFloor ≤ floorOf state.sources
  rw [← hfloor]
  by_cases hsource : b.source = .skills
  · rw [hs b hb hsource]
    exact TrustClass.le_userAsserted _
  · exact state'.trustFloor_le b (h.kept b hb hsource)

/-- The stable tier is the same, and the others lose skills at most. -/
theorem of_tiers (stable : state'.stableBlocks = state.stableBlocks)
    (context : ∀ b ∈ spoken state.contextBlocks, b ∈ state'.contextBlocks)
    (volatile : ∀ b ∈ spoken state.volatile, b ∈ state'.volatile)
    (skills : ∀ b ∈ state'.contextBlocks ++ state'.volatile, b.source = .skills →
      b ∈ state.contextBlocks ++ state.volatile ∨ b.trust = .userAsserted) :
    Carries state state' := by
  have hspoken : ∀ {b : Block} {blocks : List Block}, b ∈ blocks → b.source ≠ .skills →
      b ∈ spoken blocks := fun hb hsource => List.mem_filter.mpr ⟨hb, decide_eq_true hsource⟩
  refine ⟨fun b hb hsource => ?_, fun hs b hb hsource => ?_⟩
  · rw [SessionState.sources, List.append_assoc, List.mem_append, List.mem_append] at hb ⊢
    rw [stable]
    rcases hb with hb | hb | hb
    · exact .inl hb
    · exact .inr (.inl (context b (hspoken hb hsource)))
    · exact .inr (.inr (volatile b (hspoken hb hsource)))
  · rw [SessionState.sources, List.append_assoc, List.mem_append, stable] at hb
    rw [SessionState.sources, List.append_assoc, skillsVouched_append] at hs
    rcases hb with hb | hb
    · exact hs.1 b hb hsource
    · rcases skills b hb hsource with hold | hclass
      · exact hs.2 b hold hsource
      · exact hclass

end Carries

theorem spoken_subset {blocks : List Block} : ∀ b ∈ spoken blocks, b ∈ blocks :=
  fun _ hb => (List.mem_filter.mp hb).1

/-- What is appended to the volatile tier, and is no skill. -/
theorem carries_append (state : SessionState) {blocks : List Block}
    (h : ∀ b ∈ blocks, b.source ≠ .skills) :
    Carries state { state with volatile := state.volatile ++ blocks } := by
  refine .of_tiers rfl spoken_subset (fun b hb => List.mem_append_left _ (spoken_subset b hb))
    fun b hb hsource => .inl ?_
  have hsplit : b ∈ (state.contextBlocks ++ state.volatile) ++ blocks := by
    rwa [List.append_assoc]
  exact (List.mem_append.mp hsplit).elim id fun hnew => absurd hsource (h b hnew)

theorem carries_push (state : SessionState) (message : String) :
    Carries state (state.push (.new .history message .userAsserted)) :=
  carries_append state fun b hb => by
    rw [List.mem_singleton.mp hb]
    exact nofun

theorem carries_pushRetrieved (state : SessionState) (retrieved : Retrieved) :
    Carries state (pushRetrieved state retrieved) := by
  rw [Conversations.pushRetrieved_eq]
  refine carries_append state fun b hb => ?_
  unfold injected at hb
  split at hb
  · cases hb
  · rw [List.mem_singleton.mp hb]
    exact nofun

theorem carries_pushSurfaced (state : SessionState) (surfaced : Option String) :
    Carries state (pushSurfaced state surfaced) := by
  cases surfaced with
  | none => exact .of_tiers rfl spoken_subset spoken_subset fun b hb _ => .inl hb
  | some text =>
    refine .of_tiers rfl (fun b hb => List.mem_append_left _ hb) spoken_subset
      fun b hb hsource => ?_
    have hcases : b ∈ spoken state.contextBlocks ∨ b = .new .skills text .userAsserted ∨
        b ∈ state.volatile := by
      simpa [pushSurfaced, SessionState.push, Block.new, SourceKind.tier] using hb
    rcases hcases with hb | rfl | hb
    · exact .inl (List.mem_append_left _ (spoken_subset b hb))
    · exact .inr rfl
    · exact .inl (List.mem_append_right _ hb)

theorem carries_pushHits (state : SessionState) (hits : Option String) :
    Carries state (pushHits state hits) := by
  refine .of_tiers rfl spoken_subset (fun b hb => List.mem_append_left _ hb) fun b hb _ => ?_
  rcases List.mem_append.mp hb with hb | hb
  · exact .inl (List.mem_append_left _ hb)
  · rcases List.mem_append.mp hb with hb | hb
    · exact .inl (List.mem_append_right _ (spoken_subset b hb))
    · obtain ⟨text, -, rfl⟩ := List.mem_map.mp hb
      exact .inr rfl

section Enter

variable (around : Surroundings) (idOf : String → SessionId)
  (sessions : OrderedMap String SessionMemory) (session message : String) (fresh : RunId)

/-- What an ask enters with carries what the store holds under its name. -/
theorem enterTurn_ask_carries :
    Carries ((sessions.get? session).getD (.opened around (idOf session))).state
      (enterTurn around idOf sessions session message none fresh).state :=
  (((carries_push _ _).trans (carries_pushRetrieved _ _)).trans (carries_pushSurfaced _ _)).trans
    (carries_pushHits _ _)

/-- A resumed run carries its checkpoint, also when it is taken for a new turn. -/
theorem enterTurn_resume_carries (cp : Checkpoint) :
    Carries cp.state (enterTurn around idOf sessions session message (some cp) fresh).state := by
  rcases Nat.eq_zero_or_pos cp.step with hzero | hpos
  · have hnew : ¬ cp.restore.steps > 0 := by
      show ¬ cp.step > 0
      omega
    simp only [enterTurn, if_neg hnew]
    exact ((carries_pushRetrieved _ _).trans (carries_pushSurfaced _ _)).trans (carries_pushHits _ _)
  · rw [Conversations.enterTurn_resume around idOf sessions session message fresh hpos]
    exact .of_tiers rfl spoken_subset spoken_subset fun b hb _ => .inl hb

/-- What a conversation opens with: nothing attributed, and no skill. -/
theorem opened_vouched (around : Surroundings) (id : SessionId) :
    SkillsVouched (SessionMemory.opened around id).state.sources := by
  intro b hb hsource
  cases hmap : around.workspaceMap <;>
    simp [SessionMemory.opened, hmap, SessionState.sources, SessionState.stableBlocks,
      SessionState.new, SessionState.assertGovernance, SessionState.push, SourceKind.tier,
      Block.new] at hb <;>
    rcases hb with rfl | rfl | rfl | rfl <;> cases hsource

end Enter

/-- What a checkpoint is restored with is faithful when its user turns are. -/
theorem faithful_restore {said : Set String} {cp : Checkpoint}
    (h : ∀ b ∈ cp.state.turns, b.text ∈ said) : cp.restore.provenance.Faithful said := by
  have hfold : ∀ (turns : List Block) (p : Provenance), p.Faithful said →
      (∀ b ∈ turns, b.text ∈ said) →
        (turns.foldl (fun p b => p.attributeUserMessage b.text) p).Faithful said := by
    intro turns
    induction turns with
    | nil => exact fun p hp _ => hp
    | cons b rest ih =>
      intro p hp hall
      exact ih _ (hp.attributeUserMessage (hall b List.mem_cons_self))
        fun b' hb' => hall b' (List.mem_cons_of_mem _ hb')
  exact hfold cp.state.turns .new Provenance.faithful_new h

/-! ## One turn -/

theorem exposed_append {shown shown' : List SessionState} :
    Exposed (shown ++ shown') ↔ Exposed shown ∨ Exposed shown' := by
  simp only [Exposed, List.mem_append, or_and_right, exists_or]

/-- A state whose floor blocks has a block that does. -/
theorem exposed_of_floor {shown : List SessionState} {state : SessionState} (h : state ∈ shown)
    (hfloor : blocksComposedTargets state.trustFloor = true) : Exposed shown := by
  obtain ⟨b, hb, hattained⟩ := floorOf_attained state.sources_ne_nil
  refine ⟨state, h, b, hb, ?_⟩
  rw [hattained]
  exact hfloor

/-- Where a turn of a session may enter the loop, given what was said and shown in it. -/
structure Entered (said : Set String) (shown : List SessionState) (provenance : Provenance)
    (state : SessionState) : Prop where
  attributed : provenance.Faithful said
  skills : SkillsVouched state.sources
  blocks : Exposed shown → blocksComposedTargets state.trustFloor = true

section Drive

variable {sys : Outside (σ × List String)} {ports : Ports (σ × List String)}
  {m : Machine (σ × List String)} {shown : List SessionState}

/-- The calls of a drive that enters so take their targets from the user's words. -/
theorem drive_targets (hsys : sys.Remembers heardIn) (hp : Hearing heardIn ports)
    (hm : Entered (heardIn m.env) shown m.frame.provenance m.state) (htrace : m.trace = [])
    (hseen : m.frame.seen = []) :
    let m' := ((continueFrom sys ports m.frame.locals.steps m.frame.locals.contractRetries).run m).2
    ∀ e ∈ m'.trace, UsersTargets shown (heardIn m'.env) e := by
  intro m' e he
  have hgoes : Goes sys heardIn True m m' := continueFrom_changes hsys hp _ _ m
  obtain ⟨es, hes, hwords⟩ := hgoes.words.judged hm.attributed
  rw [htrace, List.nil_append] at hes
  cases e with
  | adjudicated run seen req adjudication =>
    intro hexposed
    have hlatch : (Effect.adjudicated run seen req adjudication).LatchedTargets (heardIn m'.env) :=
      hwords _ (hes ▸ he)
    refine hlatch ?_
    rcases exposed_append.mp hexposed with hbefore | ⟨state, hstate, b, hb, hclass⟩
    · -- the session blocks from the start of the drive
      obtain ⟨judged, hjudged, hunder⟩ :=
        @continueFrom_latching _ sys ports m.frame.locals.steps
          m.frame.locals.contractRetries m (hm.blocks hbefore)
      rw [htrace, List.nil_append] at hjudged
      exact hunder _ (hjudged ▸ he)
    · have hlatched : Latched m := by
        constructor
        · simp [hseen]
        · simp [htrace]
      have hfloor := @continueFrom_underFloor _ sys ports m hlatched _ he state hstate b hb
      exact blocks_of_le hfloor hclass
  | _ => trivial

/-- And it leaves a session the next turn may enter from. -/
theorem drive_entered (hsys : sys.Remembers heardIn) (hp : Hearing heardIn ports)
    (hm : Entered (heardIn m.env) shown m.frame.provenance m.state) (hseen : m.frame.seen = []) :
    let m' := ((continueFrom sys ports m.frame.locals.steps m.frame.locals.contractRetries).run m).2
    Entered (heardIn m'.env) (shown ++ m'.frame.seen) m'.frame.provenance m'.state := by
  intro m'
  have hgoes : Goes sys heardIn True m m' := continueFrom_changes hsys hp _ _ m
  refine ⟨hgoes.words.faithful hm.attributed, hgoes.sinks.skills hm.skills, fun hexposed => ?_⟩
  rcases exposed_append.mp hexposed with hbefore | ⟨state, hstate, b, hb, hclass⟩
  · exact blocks_of_le hgoes.sinks.state (hm.blocks hbefore)
  · have hfloor := hgoes.sinks.seen (by simp [hseen]) state hstate
    exact blocks_of_le (hfloor.trans (state.trustFloor_le b hb)) hclass

end Drive

/-! ## Whole sessions -/

namespace SessionRun

/-- What the store holds under the session's name is of its user's words only, and what its
last turn left blocks if the session was exposed. -/
structure Keeps (session : String) (s : SessionRun σ) : Prop where
  stored : ∀ memory, s.sessions.get? session = some memory →
    memory.provenance.Faithful {text | text ∈ s.said} ∧ SkillsVouched memory.state.sources
  exposed : Exposed s.shown →
    ∃ memory, s.latest = some memory ∧ blocksComposedTargets memory.state.trustFloor = true
  faultless : ∀ t ∈ s.taken, t.Faultless

variable {session : String} {idOf : String → SessionId} {shownId : SessionId → String}
  {s : SessionRun σ}

theorem keeps_opened (env : σ) : (opened env : SessionRun σ).Keeps session :=
  { stored := fun memory hmemory => by cases hmemory
    exposed := fun hexposed => by
      obtain ⟨_, h, -⟩ := hexposed
      exact (List.not_mem_nil h).elim
    faultless := fun _ h => (List.not_mem_nil h).elim }

theorem mem_saidBefore (t : SessionTurn σ) {text : String} (h : text ∈ s.said) :
    text ∈ s.saidBefore t := by
  unfold saidBefore
  cases t.opening with
  | ask message run => exact List.mem_append_left _ h
  | resume cp => exact h

/-- What an ask goes on from. -/
theorem Keeps.found (h : s.Keeps session) (around : Surroundings) (id : SessionId) :
    ((s.sessions.get? session).getD (.opened around id)).provenance.Faithful
        {text | text ∈ s.said} ∧
      SkillsVouched ((s.sessions.get? session).getD (.opened around id)).state.sources := by
  cases hget : s.sessions.get? session with
  | none => exact ⟨Provenance.faithful_new, opened_vouched around id⟩
  | some memory => exact h.stored memory hget

/-- A careful turn enters with the user's words, and blocks if the session was exposed. -/
theorem Keeps.entered (h : s.Keeps session) {t : SessionTurn σ}
    (hcareful : Careful session s (.turn t)) :
    Entered {text | text ∈ s.saidBefore t} s.shown (s.entered session idOf shownId t).provenance
      (s.entered session idOf shownId t).state := by
  obtain ⟨opening, around, engine, outside, ports, fresh⟩ := t
  cases opening with
  | ask message run =>
    obtain ⟨hfaithful, hskills⟩ := h.found around (idOf session)
    have hcarries := enterTurn_ask_carries around idOf s.sessions session message run
    refine ⟨?_, hcarries.skills hskills, fun hexposed => ?_⟩
    · have hsaid : {text | text ∈ s.said} ⊆ {text | text ∈ s.said ++ [message]} :=
        fun _ => List.mem_append_left _
      exact (hfaithful.mono hsaid).attributeUserMessage (List.mem_append_right _ List.mem_cons_self)
    · obtain ⟨latest, hlatest, hblocks⟩ := h.exposed hexposed
      have hget : s.sessions.get? session = some latest := (hcareful hexposed).trans hlatest
      have hfloor := hcarries.floor hskills
      rw [hget] at hfloor
      exact blocks_of_le hfloor hblocks
  | resume cp =>
    obtain ⟨hturns, hskills, hblocks⟩ := hcareful
    have hcarries := enterTurn_resume_carries around idOf s.sessions (shownId cp.session) "" cp.run cp
    exact ⟨faithful_restore hturns, hcarries.skills hskills,
      fun hexposed => blocks_of_le (hcarries.floor hskills) (hblocks hexposed)⟩

/-- A careful step keeps the session, and its turn is without fault. -/
theorem Keeps.step (h : s.Keeps session) {step : SessionStep σ}
    (hcareful : Careful session s step) : (s.step session idOf shownId step).Keeps session := by
  cases step with
  | elsewhere key left =>
    refine ⟨fun memory hget => h.stored memory ?_, h.exposed, h.faultless⟩
    have hother : (s.sessions.insert key left).get? session = some memory := hget
    rwa [OrderedMap.get?_insert, if_neg hcareful] at hother
  | turn t =>
    let m := s.starting session idOf shownId t
    let m' := s.driven session idOf shownId t
    have hentered : Entered (heardIn m.env) s.shown m.frame.provenance m.state :=
      h.entered hcareful
    have hsys := remembers_listeningOutside t.outside
    have hp := hearing_listening t.ports
    have hleft : Entered (heardIn m'.env) (s.shown ++ m'.frame.seen) m'.frame.provenance m'.state :=
      drive_entered hsys hp hentered rfl
    have htargets := drive_targets hsys hp hentered rfl rfl
    have hremembers : heardIn m.env ⊆ heardIn m'.env :=
      (continueFrom_changes hsys hp m.frame.locals.steps m.frame.locals.contractRetries m).remembers
    have hsaid : {text | text ∈ s.said} ⊆ heardIn m'.env :=
      fun _ htext => hremembers (mem_saidBefore t htext)
    refine ⟨fun memory hget => ?_, fun hexposed => ⟨_, rfl, hleft.blocks hexposed⟩, ?_⟩
    · have hstored : (s.sessions.insert (keyOf session shownId t)
          ⟨m'.state, m'.frame.provenance⟩).get? session = some memory := hget
      rw [OrderedMap.get?_insert] at hstored
      split at hstored
      · cases hstored
        exact ⟨hleft.attributed, hleft.skills⟩
      · obtain ⟨hfaithful, hskills⟩ := h.stored memory hstored
        exact ⟨hfaithful.mono hsaid, hskills⟩
    · exact List.forall_mem_append.mpr ⟨h.faultless, fun taken htaken => by
        rw [List.mem_singleton.mp htaken]
        exact ⟨htargets, hleft.attributed⟩⟩

theorem Keeps.run {steps : List (SessionStep σ)} (h : s.Keeps session)
    (hcareful : AllCareful session idOf shownId s steps) :
    (steps.foldl (SessionRun.step session idOf shownId) s).Keeps session := by
  induction steps generalizing s with
  | nil => exact h
  | cons step rest ih => exact ih (h.step hcareful.1) hcareful.2

/-- No run is resumed, and no other session is kept under this one's name. -/
def Unresumed (session : String) : SessionStep σ → Prop
  | .turn t =>
    match t.opening with
    | .ask _ _ => True
    | .resume _ => False
  | .elsewhere key _ => key ≠ session

/-- Asks go on from one another, so a session in which nothing is resumed is careful. -/
theorem allCareful_of_unresumed {steps : List (SessionStep σ)}
    (hlatest : s.sessions.get? session = s.latest)
    (hsteps : ∀ step ∈ steps, Unresumed session step) :
    AllCareful session idOf shownId s steps := by
  induction steps generalizing s with
  | nil => trivial
  | cons step rest ih =>
    have hplain := hsteps step List.mem_cons_self
    have hrest := fun step hstep => hsteps step (List.mem_cons_of_mem _ hstep)
    cases step with
    | elsewhere key left =>
      refine ⟨hplain, ih ?_ hrest⟩
      show (s.sessions.insert key left).get? session = s.latest
      rw [OrderedMap.get?_insert, if_neg hplain, hlatest]
    | turn t =>
      obtain ⟨opening, around, engine, outside, ports, fresh⟩ := t
      cases opening with
      | ask message run =>
        refine ⟨fun _ => hlatest, ih ?_ hrest⟩
        exact OrderedMap.get?_insert_self _ session _
      | resume cp => exact hplain.elim

/-- **After a page is read, only the user's own words can be targets**, in every session and
over every sequence of its turns whose resumed checkpoints hold what the user said as it was
said, and whose turns go on from where the session was. -/
theorem only_the_users_words (session : String) (idOf : String → SessionId)
    (shownId : SessionId → String) (env : σ) (steps : List (SessionStep σ))
    (hcareful : AllCareful session idOf shownId (opened env) steps) :
    ∀ t ∈ (after session idOf shownId env steps).taken, t.Faultless :=
  ((keeps_opened env).run hcareful).faultless

/-! ### A run that is steered, pauses and is resumed -/

/-- A tool that changes what its address names, and can take it back. -/
def postManifest : CapabilityManifest :=
  { tool := ⟨"post"⟩, paths := [], hosts := [], consequence := .reversible
    params := [{ name := "address", role := .target, ty := .text, required := true }] }

def postRegistry : ToolRegistry :=
  (ToolRegistry.empty.register ⟨⟨"post"⟩, postManifest⟩).toOption.getD .empty

/-- What the daemon has in memory comes from a page. -/
def recalling : Surroundings :=
  { Conversations.quiet with
    profile := Script.secretary ⟨[⟨"post"⟩], by decide, by decide⟩ .denyAll
    retrieve := fun _ _ => ⟨"a page said so", 1, .untrustedContent⟩ }

/-- Whoever steers says this at every step. -/
def steering (text : String) : Ports Script :=
  { Script.ports with
    control := { noControl with takeSteer := fun _ => pure (some ⟨text, .advisory⟩) } }

def posting (address : String) : ModelCall :=
  Script.call [⟨"a", ⟨"post"⟩, Args.empty.withText "address" address⟩]

/-- The model posts where it was told to and asks a question; once it goes on, it posts again. -/
def postingTwice (address : String) : Script :=
  { answers := [posting "go", { usage := ⟨0, 0, 0, 0⟩, step := .ask "whom?" }, posting address,
      Script.say "done"]
    outcomes := List.replicate 2 [Script.result .agentObserved "posted"] }

def turnOf (ports : Ports Script) (opening : Opening) : SessionTurn Script :=
  { opening, around := recalling, engine := .new postRegistry 100000 0 "." .act
    outside := Script.outside, ports, fresh := 2 }

/-- A turn, and the resumption of the run it left paused. -/
def pausedAndResumed (ports : Ports Script) (env : Script) : List (SessionStep Script) :=
  let first := turnOf ports (.ask "go" 1)
  let paused := ((opened env).driven "a" (fun _ => 1) (fun _ => "#1") first).engine.lastCheckpoints.get? 1
  .turn first :: paused.toList.map fun cp => .turn (turnOf ports (.resume cp))

/-- What a trace judged last: the states it was judged after, the request and the answer. -/
def lastJudged (trace : List Effect) : Option (List SessionState × Request × Adjudication) :=
  trace.reverse.findSome? fun e =>
    match e with
    | .adjudicated _ seen req adjudication => some (seen, req, adjudication)
    | _ => none

theorem lastJudged_mem {trace : List Effect} {seen : List SessionState} {req : Request}
    {adjudication : Adjudication} (h : lastJudged trace = some (seen, req, adjudication)) :
    ∃ run, .adjudicated run seen req adjudication ∈ trace := by
  obtain ⟨e, he, hjudged⟩ := List.exists_of_findSome?_eq_some h
  cases e with
  | adjudicated run =>
    cases hjudged
    exact ⟨run, List.mem_reverse.mp he⟩
  | _ => cases hjudged

def plainSteps : List (SessionStep Script) := pausedAndResumed Script.ports (postingTwice "b@c")

set_option maxRecDepth 20000 in
/-- Nobody steers: the run goes on with the words of its one message. -/
theorem unsteered_words :
    (after "a" (fun _ => 1) (fun _ => "#1") (postingTwice "b@c") plainSteps).taken.length = 2 ∧
      ∀ t ∈ (after "a" (fun _ => 1) (fun _ => "#1") (postingTwice "b@c") plainSteps).taken,
        t.Faultless := by
  refine ⟨rfl, only_the_users_words "a" (fun _ => 1) (fun _ => "#1") (postingTwice "b@c")
    plainSteps ⟨?_, ?_, trivial⟩⟩
  · rintro ⟨_, h, _⟩
    cases h
  · refine ⟨by decide, ?_, fun _ => by decide⟩
    unfold SkillsVouched
    decide

def steeredSteps : List (SessionStep Script) :=
  pausedAndResumed (steering "on") (postingTwice "[steer]")

/-- What the resumed run of the steered session did. -/
def steered : Option SessionTaken :=
  (after "a" (fun _ => 1) (fun _ => "#1") (postingTwice "[steer]") steeredSteps).taken[1]?

set_option maxRecDepth 20000 in
/-- The model posted to the tag, under a page's floor, and it was not refused. -/
theorem steered_posts : steered.bind (fun t => (lastJudged t.trace).map fun (seen, req, adjudication) =>
    (t.said, adjudication.decision.outcome.isBlocked, req.manifest.consequence, req.args.entries,
      req.manifest.roleOf "address", (t.shown ++ seen).map SessionState.trustFloor)) =
    some (["go", "on", "on", "on", "on"], false, .reversible, [("address", .text "[steer]")],
      some .target, [.untrustedContent, .untrustedContent, .untrustedContent]) := rfl

set_option maxRecDepth 20000 in
/-- A run that was steered has the harness's tag for one of the user's words once it is resumed:
under a page's floor the model posts there, and nobody said so. -/
theorem tag_becomes_target : ¬ ∀ (session : String) (idOf : String → SessionId)
    (shownId : SessionId → String) (env : Script) (steps : List (SessionStep Script)),
    ∀ t ∈ (after session idOf shownId env steps).taken, t.Faultless := by
  intro hall
  obtain ⟨t, ht, hposts⟩ := Option.bind_eq_some_iff.mp steered_posts
  obtain ⟨⟨seen, req, adjudication⟩, hjudged, hfacts⟩ := Option.map_eq_some_iff.mp hposts
  obtain ⟨run, hmem⟩ := lastJudged_mem hjudged
  have hfaultless : t.Faultless := hall "a" (fun _ => 1) (fun _ => "#1") (postingTwice "[steer]")
    steeredSteps t (List.mem_of_getElem? ht)
  have htargets : Exposed (t.shown ++ seen) → TargetsSaid {text | text ∈ t.said} req adjudication :=
    hfaultless.targets _ hmem
  simp only [Prod.mk.injEq] at hfacts
  obtain ⟨hsaid, hblocked, hlevel, hargs, hrole, hfloors⟩ := hfacts
  have hexposed : Exposed (t.shown ++ seen) := by
    cases hstates : t.shown ++ seen with
    | nil => simp [hstates] at hfloors
    | cons state rest =>
      rw [hstates, List.map_cons] at hfloors
      refine exposed_of_floor List.mem_cons_self ?_
      rw [(List.cons.inj hfloors).1]
      rfl
  obtain ⟨text, hvalue, spoken, hspoken, hword⟩ := htargets hexposed hblocked (hlevel ▸ by decide)
    "address" (.text "[steer]") (hargs ▸ List.mem_cons_self) (hrole ▸ rfl)
  cases hvalue
  have hnone : ∀ spoken ∈ ["go", "on", "on", "on", "on"],
      "[steer]" ≠ Text.trim spoken ∧ "[steer]" ∉ Text.splitWhitespace spoken := by decide
  have hspoken' := hnone spoken (hsaid ▸ hspoken)
  exact hword.elim hspoken'.1 hspoken'.2

end SessionRun

end MarloweAgent.Daemon
