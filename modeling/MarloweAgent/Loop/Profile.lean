import MarloweAgent.Permission.Adjudicate

/-! Agent levels and capability profiles. A profile carries the checks its
constructor makes, so a quarantined reader with tools, egress or memory, or a
worker that can create agents, cannot be built. -/

namespace MarloweAgent.Loop
open Tools Permission

inductive InterruptPolicy
  | interruptible
  | unattended
  deriving DecidableEq, Repr

inductive ModelRoute
  | orchestrator
  | worker
  | summarizer
  deriving DecidableEq, Repr

def ModelRoute.word : ModelRoute → String
  | orchestrator => "orchestrator"
  | worker => "worker"
  | summarizer => "summarizer"

inductive AgentLevel
  | secretary
  | topAgent (manages : Bool)
  | master
  | worker
  | toolSpawned
  deriving DecidableEq, Repr

inductive Disposition
  | work
  | manage
  deriving DecidableEq, Repr

def Disposition.word : Disposition → String
  | manage => "master"
  | work => "worker"

def Disposition.debug : Disposition → String
  | work => "Work"
  | manage => "Manage"

namespace AgentLevel

def debug : AgentLevel → String
  | secretary => "Secretary"
  | topAgent manages => "TopAgent \x7b manages: " ++ toString manages ++ " \x7d"
  | master => "Master"
  | worker => "Worker"
  | toolSpawned => "ToolSpawned"

/-- The level of a child, or the refused parent and disposition. -/
def childOf (parent : AgentLevel) (d : Disposition) : Except (AgentLevel × Disposition) AgentLevel :=
  match parent, d with
  | secretary, .manage => .ok (topAgent true)
  | secretary, .work => .ok (topAgent false)
  | topAgent true, .manage => .ok master
  | topAgent true, .work => .ok worker
  | topAgent false, _ => .error (parent, d)
  | master, .work => .ok worker
  | master, .manage | worker, _ | toolSpawned, _ => .error (parent, d)

/-- The text of a `LevelRefusal`. -/
def refusal (parent : AgentLevel) (wanted : Disposition) : String :=
  let parent := parent.debug
  let wanted := wanted.debug
  s!"a {parent} cannot create a {wanted} child: Marlowe creates only top-agents, a top-agent " ++
  "creates only if it was spawned to manage, a master creates only workers, and a worker " ++
  "creates nothing"

def mayHoldCreateGrant : AgentLevel → Bool
  | secretary | topAgent true | master => true
  | _ => false

end AgentLevel

inductive ProfileError
  | quarantineWithTools (count : Nat)
  | quarantineMayWriteMemory
  | quarantineWithEgress
  | createGrantNotHeldAtThisLevel (level : AgentLevel)
  | toolSpawnedWithTools (count : Nat)
  | onlyATopAgentMayAsk (level : AgentLevel)
  deriving DecidableEq, Repr

def ProfileError.render : ProfileError → String
  | quarantineWithTools count =>
    s!"a profile with `reads_untrusted` exposes {count} tool(s). The component that reads " ++
    "untrusted content has no tool access and returns structured analysis only (brief §8.2). " ++
    "This is the structural trifecta break and it is a load-time error, not a warning"
  | quarantineMayWriteMemory =>
    "a profile with `reads_untrusted` also sets `may_write_memory`. A quarantined reader " ++
    "that can write beliefs is memory laundering with the derivation step built in (§14.6, " ++
    "HP6)"
  | quarantineWithEgress =>
    "a profile with `reads_untrusted` also grants egress. Reading untrusted content and " ++
    "reaching the network are two legs of the trifecta in one component (§8.1)"
  | createGrantNotHeldAtThisLevel level =>
    let level := level.debug
    s!"a profile at level {level} exposes `run`. The create grant IS holding `run`, and " ++
    "M3-DESIGN section 1 gives it to Marlowe, to a top-agent that was spawned to MANAGE, and " ++
    "to a master -- nobody else. A worker that can create agents is a level that exists and " ++
    "a rule that does not"
  | toolSpawnedWithTools count =>
    s!"a tool-spawned agent exposes {count} tool(s). Section 1's level 5 is spawned by a TOOL " ++
    "and holds nothing: this is strictly wider than the quarantine check, because " ++
    "SCOPED-MEMORY section 4's fact extractor is a level-5 agent that does not set " ++
    "`reads_untrusted` and would otherwise be constructible with tools"
  | onlyATopAgentMayAsk level =>
    let level := level.debug
    s!"a {level} exposes `ask`, and only a top-agent reaches the user. M3-DESIGN section 3.1: " ++
    "escalation is scoped to the top-agent's subtree and a worker can never address Marlowe, " ++
    "so a question raised here has nobody to arrive at. The tool is withheld rather than " ++
    "refused at the call, per section 1.2's rule that a capability is absent from the set " ++
    "rather than forbidden by instruction -- a door visible in the exposed set and locked at " ++
    "every call costs the model the calls it spends discovering that"

/-- What a run may see and do. -/
structure CapabilityProfile where
  exposedTools : ExposedSet
  egress : EgressPolicy
  interrupt : InterruptPolicy
  modelRoute : ModelRoute
  level : AgentLevel
  mayWriteMemory : Bool
  readsUntrusted : Bool
  /-- A quarantined reader holds nothing. -/
  quarantined : readsUntrusted = true →
    exposedTools.tools = [] ∧ mayWriteMemory = false ∧ egress = .denyAll
  /-- Holding `run` is the create grant. -/
  createGrant : exposedTools.contains ⟨"run"⟩ = true → level.mayHoldCreateGrant = true
  toolSpawned : level = .toolSpawned → exposedTools.tools = []
  masterAsks : level = .master → exposedTools.contains ⟨"ask"⟩ = false

namespace CapabilityProfile

/-- `CapabilityProfile::new`: each check refuses in the order it is made. -/
def new (exposedTools : ExposedSet) (egress : EgressPolicy) (interrupt : InterruptPolicy)
    (modelRoute : ModelRoute) (level : AgentLevel) (mayWriteMemory readsUntrusted : Bool) :
    Except ProfileError CapabilityProfile :=
  if htools : readsUntrusted = true ∧ exposedTools.tools ≠ [] then
    .error (.quarantineWithTools exposedTools.tools.length)
  else if hmemory : readsUntrusted = true ∧ mayWriteMemory = true then
    .error .quarantineMayWriteMemory
  else if hegress : readsUntrusted = true ∧ egress ≠ .denyAll then
    .error .quarantineWithEgress
  else if hcreate : exposedTools.contains ⟨"run"⟩ = true ∧ level.mayHoldCreateGrant = false then
    .error (.createGrantNotHeldAtThisLevel level)
  else if hspawned : level = .toolSpawned ∧ exposedTools.tools ≠ [] then
    .error (.toolSpawnedWithTools exposedTools.tools.length)
  else if hask : level = .master ∧ exposedTools.contains ⟨"ask"⟩ = true then
    .error (.onlyATopAgentMayAsk level)
  else
    .ok
      { exposedTools, egress, interrupt, modelRoute, level, mayWriteMemory, readsUntrusted
        quarantined := by
          intro hread
          refine ⟨?_, ?_, ?_⟩
          · by_contra h
            exact htools ⟨hread, h⟩
          · exact Bool.eq_false_iff.mpr fun h => hmemory ⟨hread, h⟩
          · by_contra h
            exact hegress ⟨hread, h⟩
        createGrant := by
          intro hrun
          by_contra h
          exact hcreate ⟨hrun, Bool.eq_false_iff.mpr h⟩
        toolSpawned := by
          intro hlevel
          by_contra h
          exact hspawned ⟨hlevel, h⟩
        masterAsks := by
          intro hlevel
          exact Bool.eq_false_iff.mpr fun h => hask ⟨hlevel, h⟩ }

/-- What a profile that was built was built from. -/
theorem new_ok {exposedTools : ExposedSet} {egress : EgressPolicy} {interrupt : InterruptPolicy}
    {modelRoute : ModelRoute} {level : AgentLevel} {mayWriteMemory readsUntrusted : Bool}
    {profile : CapabilityProfile}
    (h : new exposedTools egress interrupt modelRoute level mayWriteMemory readsUntrusted
      = .ok profile) :
    profile.exposedTools = exposedTools ∧ profile.egress = egress ∧ profile.level = level ∧
      profile.mayWriteMemory = mayWriteMemory ∧ profile.readsUntrusted = readsUntrusted := by
  unfold new at h
  repeat' split at h
  all_goals cases h
  exact ⟨rfl, rfl, rfl, rfl, rfl⟩

/-- The shape every quarantined read runs under. -/
def quarantinedReader : CapabilityProfile where
  exposedTools := .empty
  egress := .denyAll
  interrupt := .unattended
  modelRoute := .worker
  level := .toolSpawned
  mayWriteMemory := false
  readsUntrusted := true
  quarantined := fun _ => ⟨rfl, rfl, rfl⟩
  createGrant := fun h => by cases h
  toolSpawned := fun _ => rfl
  masterAsks := fun h => by cases h

/-- The constructor accepts the quarantined reader, so the source's `expect` holds. -/
theorem new_quarantinedReader :
    new .empty .denyAll .unattended .worker .toolSpawned false true = .ok quarantinedReader := rfl

def mayCreateAgents (profile : CapabilityProfile) : Bool := profile.exposedTools.contains ⟨"run"⟩

theorem quarantined_grant (profile : CapabilityProfile) (host : Host)
    (h : profile.readsUntrusted = true) :
    profile.exposedTools.tools = [] ∧ profile.mayWriteMemory = false ∧
      profile.egress.grant host = .denyAll := by
  obtain ⟨ht, hm, he⟩ := profile.quarantined h
  exact ⟨ht, hm, by rw [he]; rfl⟩

/-- Widen the egress by one host a person approved. -/
def grantEgressHost (profile : CapabilityProfile) (host : Host) : CapabilityProfile :=
  { profile with
    egress := profile.egress.grant host
    quarantined := profile.quarantined_grant host }

end CapabilityProfile

end MarloweAgent.Loop
