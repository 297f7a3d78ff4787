import MarloweAgent.Memory.Entry
import MarloweAgent.Memory.Store

/-! The two writers of beliefs: `ingest`, which writes a session's turns, and the
model's requests `remember_claim`, `correct_claim` and `forget_claim`. Each
appends to the journal first and folds the same event into the live store after. -/

namespace MarloweAgent.Memory
open Contract EventLog Library

/-- The log and the live view of it, mutated together. -/
structure MemoryState where
  journal : Journal Payload
  beliefs : BeliefStore

abbrev MemoryM (α : Type) := Fallible MemoryState MemoryError α

namespace MemoryState

/-- A memory over an empty journal. -/
def create (key : SigningKey Payload) (inserts : List Bool) : MemoryState :=
  { journal := Journal.create key inserts, beliefs := BeliefStore.empty }

end MemoryState

/-- `journal.append(..)?`. -/
def append (clock : Clock) (req : AppendRequest Payload) : MemoryM (JournalEvent Payload) :=
  ⟨fun m =>
    match m.journal.append clock req with
    | (.ok event, journal) => (.ok event, { m with journal })
    | (.error e, journal) => (.error (.journal e), { m with journal })⟩

/-- Mutate the live store. -/
def updateBeliefs (f : BeliefStore → BeliefStore) : MemoryM Unit :=
  Fallible.update fun m => { m with beliefs := f m.beliefs }

/-! ## Ingest -/

structure Origin where
  channel : Channel
  actor : String
  ref : Option String
  deriving DecidableEq, Repr

structure Turn where
  turnId : String
  speaker : Speaker
  text : String
  occurredAtMs : Int
  origin : Origin
  deriving DecidableEq, Repr

structure IngestRequest where
  contractVersion : String
  clock : Clock
  sessionId : String
  turns : List Turn
  deriving DecidableEq, Repr

structure Written where
  turnId : String
  memoryIds : List MemoryId
  effectiveTrust : TrustClass
  deriving DecidableEq, Repr

structure RejectedWrite where
  turnId : String
  reason : String
  deriving DecidableEq, Repr

structure IngestOutcome where
  written : List Written
  rejected : List RejectedWrite
  deriving DecidableEq, Repr

/-- The effective trust of the ids in a lineage that the store knows. -/
def parentTrusts (beliefs : BeliefStore) (derivation : List MemoryId) : List TrustClass :=
  derivation.filterMap fun id => (beliefs.get id).map (·.effectiveTrust)

/-- The payload of the write of one turn. -/
def turnPayload (beliefs : BeliefStore) (request : IngestRequest) (index : Nat) (turn : Turn) :
    MemoryWrittenPayload :=
  let ownTrust := trustForChannel turn.origin.channel
  let derivation : List MemoryId := []
  let effective := effectiveTrust ownTrust (parentTrusts beliefs derivation)
  { id := memoryId request.sessionId turn.turnId index
    text := turn.text
    payloadKind := .episode
    sourceTurnId := turn.turnId
    sourceSessionId := request.sessionId
    trustClass := ownTrust
    effectiveTrust := effective
    derivation
    occurredAtMs := turn.occurredAtMs
    createdAt := request.clock.nowMs
    silentUntil := some (request.clock.plusMs maturationWindowMs)
    fidelity := .record }

/-- The entry the live store gets for a payload written at `seq`. -/
def liveEntry (seq : Seq) (p : MemoryWrittenPayload) : MemoryEntry :=
  { id := p.id, text := p.text, payloadKind := p.payloadKind, embeddingRef := none
    sourceTurnId := p.sourceTurnId, sourceSessionId := p.sourceSessionId
    trustClass := p.trustClass, effectiveTrust := p.effectiveTrust
    derivation := p.derivation, originEvent := seq, occurredAtMs := p.occurredAtMs
    createdAt := p.createdAt, lastAccessed := p.createdAt, accessCount := 0
    confidence := 1, activation := 1, fidelity := .record
    silentUntil := p.silentUntil, supersedes := [], supersededBy := none }

/-- One turn: refused by its actor, or written under the id of its position. -/
def ingestTurn (request : IngestRequest) (index : Nat) (turn : Turn) :
    MemoryM (Except RejectedWrite Written) := do
  let traceId : TraceId := ⟨request.sessionId⟩
  match checkActor turn.origin.actor with
  | some reason =>
    let wireReason := reason.asWireString
    let _ ← append request.clock
      { traceId, sessionId := some request.sessionId, runId := none, actor := .harness
        kind := .memoryWriteRejected
        payload := .memoryWriteRejected
          { turnId := turn.turnId, sessionId := request.sessionId, reason := wireReason } }
    pure (.error { turnId := turn.turnId, reason := wireReason })
  | none =>
    let m ← Fallible.read
    let payload := turnPayload m.beliefs request index turn
    let event ← append request.clock
      { traceId, sessionId := some request.sessionId, runId := none, actor := .harness
        kind := .memoryWritten, payload := .memoryWritten payload }
    updateBeliefs (·.insert (liveEntry event.seq payload))
    pure (.ok
      { turnId := turn.turnId, memoryIds := [payload.id]
        effectiveTrust := payload.effectiveTrust })

/-- The turns from position `index` on. -/
def ingestTurns (request : IngestRequest) : Nat → List Turn → MemoryM IngestOutcome
  | _, [] => pure { written := [], rejected := [] }
  | index, turn :: rest => do
    let result ← ingestTurn request index turn
    let outcome ← ingestTurns request (index + 1) rest
    pure (match result with
      | .ok w => { outcome with written := w :: outcome.written }
      | .error r => { outcome with rejected := r :: outcome.rejected })

/-- Ingest one session's turns. -/
def ingest (request : IngestRequest) : MemoryM IngestOutcome :=
  ingestTurns request 0 request.turns

/-! ## Claims -/

structure ClaimWrite where
  sessionId : String
  runId : String
  text : String
  payloadKind : PayloadKind
  derivedFrom : List MemoryId
  runFloor : TrustClass
  deriving DecidableEq, Repr

inductive ClaimRejected
  | unknownParent (id : MemoryId)
  | emptyClaim
  | wouldLowerAuthority (target : MemoryId) (existing correction : TrustClass)
  deriving DecidableEq, Repr

def ClaimRejected.asWireString : ClaimRejected → String
  | unknownParent id =>
    "derived_from names " ++ id ++ ", which is not a memory this store has. Pass only ids " ++
      "returned by an earlier recall, or omit derived_from entirely."
  | emptyClaim => "the claim text is empty. Pass the fact to be remembered as `text`."
  | wouldLowerAuthority target existing correction =>
    target ++ " was recorded as " ++ existing.debug ++ " and this correction would only be " ++
      correction.debug ++ ", because of what this run has read. Superseding it would remove a " ++
      "better-sourced belief. Use `remember` to record the new fact alongside it instead."

structure WriteReceipt where
  id : MemoryId
  seq : Seq
  effectiveTrust : TrustClass
  silentUntil : Int
  deriving DecidableEq, Repr

/-- Why a claim is refused before anything is written, if it is. -/
def claimRejection (beliefs : BeliefStore) (write : ClaimWrite) : Option ClaimRejected :=
  if Text.isEmpty (Text.trim write.text) then some .emptyClaim
  else (write.derivedFrom.find? fun id => (beliefs.get id).isNone).map .unknownParent

/-- What a claim is worth: the run's floor caps it, then the lineage. -/
def claimTrust (beliefs : BeliefStore) (write : ClaimWrite) : TrustClass :=
  effectiveTrust (min .agentInferred write.runFloor) (parentTrusts beliefs write.derivedFrom)

/-- The index of a session's next claim: how many stored ids carry its prefix. -/
def claimIndex (beliefs : BeliefStore) (sessionId : String) : Nat :=
  (beliefs.recallCandidates.filter fun e =>
    Text.startsWith e.id ("m-" ++ sessionId ++ "-claim-")).length

def claimPayload (beliefs : BeliefStore) (clock : Clock) (write : ClaimWrite) :
    MemoryWrittenPayload :=
  { id := memoryId write.sessionId "claim" (claimIndex beliefs write.sessionId)
    text := write.text
    payloadKind := write.payloadKind
    sourceTurnId := "claim:" ++ write.runId
    sourceSessionId := write.sessionId
    trustClass := min .agentInferred write.runFloor
    effectiveTrust := claimTrust beliefs write
    derivation := write.derivedFrom
    occurredAtMs := clock.nowMs
    createdAt := clock.nowMs
    silentUntil := some (clock.plusMs maturationWindowMs)
    fidelity := .record }

/-- Write one model-authored claim, or refuse it; a refusal is journalled. -/
def rememberClaim (clock : Clock) (write : ClaimWrite) :
    MemoryM (Except ClaimRejected WriteReceipt) := do
  let traceId : TraceId := ⟨write.sessionId⟩
  let m ← Fallible.read
  match claimRejection m.beliefs write with
  | some reason =>
    let _ ← append clock
      { traceId, sessionId := some write.sessionId, runId := some write.runId
        actor := .harness, kind := .memoryWriteRejected
        payload := .memoryWriteRejected
          { turnId := "claim:" ++ write.runId, sessionId := write.sessionId
            reason := reason.asWireString } }
    pure (.error reason)
  | none =>
    let payload := claimPayload m.beliefs clock write
    let event ← append clock
      { traceId, sessionId := some write.sessionId, runId := some write.runId
        actor := .harness, kind := .memoryWritten, payload := .memoryWritten payload }
    updateBeliefs (·.insert (liveEntry event.seq payload))
    pure (.ok
      { id := payload.id, seq := event.seq, effectiveTrust := payload.effectiveTrust
        silentUntil := clock.plusMs maturationWindowMs })

/-- Supersede a belief with a new claim. -/
def correctClaim (clock : Clock) (write : ClaimWrite) (target : MemoryId) :
    MemoryM (Except ClaimRejected WriteReceipt) := do
  let m ← Fallible.read
  match m.beliefs.get target with
  | none => pure (.error (.unknownParent target))
  | some existing =>
    let correction := claimTrust m.beliefs write
    if correction < existing.effectiveTrust then
      pure (.error (.wouldLowerAuthority target existing.effectiveTrust correction))
    else
      match ← rememberClaim clock write with
      | .error rejected => pure (.error rejected)
      | .ok receipt =>
        let _ ← append clock
          { traceId := ⟨write.sessionId⟩, sessionId := some write.sessionId
            runId := some write.runId, actor := .harness, kind := .superseded
            payload := .superseded { id := target, by_ := receipt.id } }
        updateBeliefs (·.supersede target receipt.id)
        pure (.ok receipt)

/-- Tombstone a belief. -/
def forgetClaim (clock : Clock) (sessionId runId : String) (target : MemoryId) :
    MemoryM (Except ClaimRejected MemoryId) := do
  let m ← Fallible.read
  match m.beliefs.get target with
  | none => pure (.error (.unknownParent target))
  | some _ =>
    let _ ← append clock
      { traceId := ⟨sessionId⟩, sessionId := some sessionId, runId := some runId
        actor := .harness, kind := .tombstoned, payload := .tombstoned { id := target } }
    updateBeliefs (·.tombstone target)
    pure (.ok target)

end MarloweAgent.Memory
