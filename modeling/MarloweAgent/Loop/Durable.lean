import MarloweAgent.Loop.Run

/-! What a value was attributed to, and checkpoints: capture, restore, and what
becomes of a child's checkpoint when its parent ends. -/

namespace MarloweAgent.Loop
open Contract Library EventLog Permission

/-- The class each known value was attributed to. -/
structure Provenance where
  attributed : OrderedMap String TrustClass

namespace Provenance

def new : Provenance := ⟨OrderedMap.empty⟩

/-- A second attribution can only lower the first. -/
def attributeValue (provenance : Provenance) (value : String) (cls : TrustClass) : Provenance :=
  ⟨provenance.attributed.insert value (match provenance.attributed.get? value with
    | some existing => min existing cls
    | none => cls)⟩

/-- The whole message and each of its words are the user's. -/
def attributeUserMessage (provenance : Provenance) (message : String) : Provenance :=
  (Text.splitWhitespace message).foldl (fun p token => p.attributeValue token .userAsserted)
    (provenance.attributeValue (Text.trim message) .userAsserted)

/-- The taint of one value under a floor. -/
def classOf (provenance : Provenance) (floor : TrustClass) : ArgValue → TrustClass
  | .text s => (provenance.attributed.get? s).getD floor
  | _ => floor

def taintFor (provenance : Provenance) (args : Args) (view : ContextView) (latched : TrustClass) :
    TaintSet :=
  let floor := min view.trustFloor latched
  args.entries.foldl (fun taint (name, value) => taint.insert name (provenance.classOf floor value))
    TaintSet.empty

end Provenance

/-! ## Checkpoints -/

def checkpointVersion : Nat := 1

structure Checkpoint where
  version : Nat
  run : RunId
  parent : Option RunId
  session : SessionId
  traceId : TraceId
  step : Nat
  status : RunStatus
  profile : CapabilityProfile
  budget : Budget
  spent : Budget
  trustFloor : TrustClass
  orphanPolicy : OrphanPolicy
  outputContract : OutputContract
  contractRetries : Nat
  state : SessionState

structure Restored where
  run : Run
  state : SessionState
  provenance : Provenance
  steps : Nat
  contractRetries : Nat

namespace Checkpoint

def capture (run : Run) (state : SessionState) (step contractRetries : Nat) : Checkpoint :=
  { version := checkpointVersion, run := run.id, parent := run.parent, session := run.session
    traceId := run.traceId, step, status := run.status, profile := run.profile
    budget := run.budget, spent := run.spent, trustFloor := run.trustFloor
    orphanPolicy := run.orphanPolicy, outputContract := run.outputContract
    contractRetries, state }

/-- Provenance is rebuilt from the user turns the state still holds. -/
def restore (cp : Checkpoint) : Restored :=
  let turns := (cp.state.volatile ++ cp.state.contextBlocks).filter Block.isUserTurn
  { run :=
      { id := cp.run, parent := cp.parent, session := cp.session, traceId := cp.traceId
        status := cp.status, profile := cp.profile, budget := cp.budget, spent := cp.spent
        orphanPolicy := cp.orphanPolicy, outputContract := cp.outputContract
        lastCheckpoint := none, trustFloor := cp.trustFloor }
    state := cp.state
    provenance := turns.foldl (fun p b => p.attributeUserMessage b.text) Provenance.new
    steps := cp.step
    contractRetries := cp.contractRetries }

def isTerminal (cp : Checkpoint) : Bool :=
  match cp.status with
  | .completed | .cancelled | .failed _ => true
  | _ => false

end Checkpoint

inductive OrphanOutcome
  | adopted (child by_ : RunId)
  | detached (child : RunId)
  | terminated (child : RunId)
  deriving DecidableEq, Repr

def OrphanOutcome.verb : OrphanOutcome → String
  | adopted _ _ => "adopted"
  | detached _ => "detached"
  | terminated _ => "terminated"

/-- What a policy makes of a child's last checkpoint; a child that ended is left alone. -/
def settleOrphan (cp : Checkpoint) (policy : OrphanPolicy) : Option (Checkpoint × OrphanOutcome) :=
  if cp.isTerminal then none
  else
    some (match policy with
      | .terminate => ({ cp with status := .cancelled }, .terminated cp.run)
      | .detach => ({ cp with parent := none }, .detached cp.run)
      | .adopt by_ => ({ cp with parent := some by_ }, .adopted cp.run by_))

end MarloweAgent.Loop
