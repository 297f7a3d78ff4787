import MarloweAgent.Loop.Drive

/-! An environment that follows a script: what the model answers, what the host
returns and which appends are accepted, in order. -/

namespace MarloweAgent.Loop
open Contract Library Tools Permission

structure Script where
  answers : List ModelCall
  outcomes : List (List ToolOutcome) := []
  /-- Whether each append is accepted; those after the last are. -/
  appends : List Bool := []
  /-- What a person who is asked answers. -/
  approves : Bool := false

namespace Script

/-- The next element of a list kept in the script. -/
def next {α : Type} (fallback : α) (get : Script → List α) (set : Script → List α → Script) :
    Stateful Script α :=
  ⟨fun s =>
    match get s with
    | [] => (fallback, s)
    | a :: rest => (a, set s rest)⟩

/-- A model that has no more to say, says nothing. -/
def silence : ModelCall := { usage := ⟨0, 0, 0, 0⟩, step := .say "" }

def driver : ModelDriver Script :=
  { callStreamingSplit := fun _ _ _ => do
      let call ← next silence answers fun s rest => { s with answers := rest }
      pure ([], .ok call)
    streams := fun _ => false
    failover := fun _ => pure false }

def ports : Ports Script :=
  { driver
    summarize := fun _ => pure "summary"
    executeBatch := fun _ => next [] outcomes fun s rest => { s with outcomes := rest }
    memory := none
    escalations := none
    approvals :=
      { isInteractive := fun _ => false, declineReason := fun _ => none
        awaitApproval := fun _ => ⟨fun s => (s.approves, s)⟩ }
    sink := fun _ => pure ()
    control := noControl
    nowMs := pure 0
    append := fun _ _ _ _ _ => do
      let accepted ← next true appends fun s rest => { s with appends := rest }
      pure (if accepted then .ok 0 else .error "disk full") }

/-- A path scope that opens nothing, and the trigger the assembler names, over integers. -/
def outside : Outside Script :=
  { scope := { openPath := fun _ _ _ _ => pure (.error "no file system") }
    contentKey := id
    sayable := fun run => toString run
    reachesTrigger := fun fill => 7 * fill.window ≤ 10 * fill.used
    showFill := fun fill => toString fill.used }

/-! ## What the scripts are about -/

def say (text : String) : ModelCall := { usage := ⟨0, 0, 0, 0⟩, step := .say text }

def call (calls : List ToolInvocation) : ModelCall :=
  { usage := ⟨0, 0, 0, 0⟩, step := .toolCall calls }

def spawning (tools : List ToolId) (disposition : Disposition) : ModelCall :=
  { usage := ⟨0, 0, 0, 0⟩
    step := .spawn
      { task := "task", contract := .answer, orphan := .terminate, share := .large
        grantTokens := none, tools, toolsDeclared := true, readsUntrusted := false
        role := .worker, disposition } }

/-- A tool that observes and takes nothing. -/
def look : ToolId := ⟨"look"⟩

/-- A tool that reaches whatever host its address names. -/
def web : ToolId := ⟨"web"⟩

def lookManifest : CapabilityManifest :=
  { tool := look, paths := [], hosts := [], consequence := .inert, params := [] }

def webManifest : CapabilityManifest :=
  { tool := web, paths := [], hosts := [⟨"*"⟩], consequence := .inert
    params := [{ name := "url", role := .target, ty := .url, required := true }] }

def registry : ToolRegistry :=
  match ToolRegistry.empty.register ⟨look, lookManifest⟩ with
  | .error _ => .empty
  | .ok one => (one.register ⟨web, webManifest⟩).toOption.getD one

/-- A profile of the conversation's own run. -/
def secretary (tools : ExposedSet) (egress : EgressPolicy) : CapabilityProfile where
  exposedTools := tools
  egress := egress
  interrupt := .unattended
  modelRoute := .orchestrator
  level := .secretary
  mayWriteMemory := false
  readsUntrusted := false
  quarantined := fun h => by cases h
  createGrant := fun _ => rfl
  toolSpawned := fun h => by cases h
  masterAsks := fun h => by cases h

def looks : CapabilityProfile := secretary ⟨[look], by decide, by decide⟩ .denyAll

def result (trust : TrustClass) (body : String) : ToolOutcome :=
  { summary := .new [], body := .inline body, trust, failed := false, wallMs := 0, preview := none }

def engine (windowTokens : Nat) : Engine := .new registry windowTokens 0 "." .act

/-- The engine about to drive a root run through a script. -/
def start (windowTokens : Nat) (profile : CapabilityProfile) (budget : Budget) (script : Script) :
    Machine Script :=
  .start (engine windowTokens) (.root 1 1 profile budget .answer) (.new 1 "M") .new script 2 0 0

/-- A budget none of the scripts comes near. -/
def ample : Budget :=
  { tokens := 100000, wallMs := 100000, toolCalls := 10, subagents := 5, microsUsd := 100 }

/-- A call whose result is a fetched page, read under quarantine. -/
def fetching (budget : Budget) : Machine Script :=
  start 100000 looks budget
    { answers := [call [⟨"a", look, .empty⟩], say "about:\na page\nsource_1:\npage", say "done"]
      outcomes := [[result .untrustedContent "page"]] }

/-- The engine once it has driven the run. -/
def played (m : Machine Script) : Machine Script := ((runDriveInner outside ports 0 0).run m).2

theorem played_eq (m : Machine Script) (steps : m.frame.locals.steps = 0)
    (retries : m.frame.locals.contractRetries = 0) :
    played m = ((runDriveInner outside ports m.frame.locals.steps
      m.frame.locals.contractRetries).run m).2 := by
  rw [steps, retries]
  rfl

end Script

end MarloweAgent.Loop
