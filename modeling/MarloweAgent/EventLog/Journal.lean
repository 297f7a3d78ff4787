import MarloweAgent.Contract.Common
import MarloweAgent.Library.Fallible

/-! Actors, the closed set of event kinds, and the append API over them. -/

namespace MarloweAgent.EventLog

abbrev Seq := Nat

/-- A version-5 UUID in the OID namespace, identified with the name it is derived from. -/
structure TraceId where
  name : String
  deriving DecidableEq, Repr

/-- Who acted. The model is not in this type. -/
inductive Actor
  | harness
  | user (surface : String)
  | permission
  | consolidation (run : String)
  | trigger (trigger : String)
  | tool (tool run : String)
  deriving DecidableEq, Repr

def Actor.canonical : Actor → String
  | .harness => "harness"
  | .user surface => "user:" ++ surface
  | .permission => "permission"
  | .consolidation run => "consolidation:" ++ run
  | .trigger name => "trigger:" ++ name
  | .tool name run => "tool:" ++ name ++ ":" ++ run

inductive EventKind
  | turnStarted
  | modelStep
  | interrupted
  | checkpointed
  | runSpawned
  | runPaused
  | runCompleted
  | runFailed
  | runCancelled
  | steerReceived
  | providerFailedOver
  | toolRequested
  | permissionDecided
  | approvalRequested
  | approvalGranted
  | approvalDenied
  | toolCompleted
  | toolFailed
  | egressBlocked
  | trustFloorLatched
  | memoryWritten
  | memoryWriteRejected
  | memoryInjected
  | memoryRecalled
  | fidelityDemoted
  | superseded
  | tombstoned
  | redacted
  | blobEvicted
  | consolidationRan
  | beliefsMerged
  | contradictionResolved
  | skillInduced
  | sessionStarted
  | sessionSummarized
  | sessionSpawned
  | sessionClosed
  | actionObserved
  | promotionProposed
  | tierGranted
  | tierDemoted
  | verificationSampled
  | triggerFired
  | noticingRaised
  | noticingDismissed
  deriving DecidableEq, Repr

def EventKind.requiresPermissionActor : EventKind → Bool
  | tierGranted | tierDemoted => true
  | _ => false

/-- The wire spelling, as serde renames the variants. -/
def EventKind.asStr : EventKind → String
  | turnStarted => "turn_started"
  | modelStep => "model_step"
  | interrupted => "interrupted"
  | checkpointed => "checkpointed"
  | runSpawned => "run_spawned"
  | runPaused => "run_paused"
  | runCompleted => "run_completed"
  | runFailed => "run_failed"
  | runCancelled => "run_cancelled"
  | steerReceived => "steer_received"
  | providerFailedOver => "provider_failed_over"
  | toolRequested => "tool_requested"
  | permissionDecided => "permission_decided"
  | approvalRequested => "approval_requested"
  | approvalGranted => "approval_granted"
  | approvalDenied => "approval_denied"
  | toolCompleted => "tool_completed"
  | toolFailed => "tool_failed"
  | egressBlocked => "egress_blocked"
  | trustFloorLatched => "trust_floor_latched"
  | memoryWritten => "memory_written"
  | memoryWriteRejected => "memory_write_rejected"
  | memoryInjected => "memory_injected"
  | memoryRecalled => "memory_recalled"
  | fidelityDemoted => "fidelity_demoted"
  | superseded => "superseded"
  | tombstoned => "tombstoned"
  | redacted => "redacted"
  | blobEvicted => "blob_evicted"
  | consolidationRan => "consolidation_ran"
  | beliefsMerged => "beliefs_merged"
  | contradictionResolved => "contradiction_resolved"
  | skillInduced => "skill_induced"
  | sessionStarted => "session_started"
  | sessionSummarized => "session_summarized"
  | sessionSpawned => "session_spawned"
  | sessionClosed => "session_closed"
  | actionObserved => "action_observed"
  | promotionProposed => "promotion_proposed"
  | tierGranted => "tier_granted"
  | tierDemoted => "tier_demoted"
  | verificationSampled => "verification_sampled"
  | triggerFired => "trigger_fired"
  | noticingRaised => "noticing_raised"
  | noticingDismissed => "noticing_dismissed"

def EventKind.all : List EventKind :=
  [.turnStarted, .modelStep, .interrupted, .checkpointed, .runSpawned, .runPaused, .runCompleted,
   .runFailed, .runCancelled, .steerReceived, .providerFailedOver, .toolRequested,
   .permissionDecided, .approvalRequested, .approvalGranted, .approvalDenied, .toolCompleted,
   .toolFailed, .egressBlocked, .trustFloorLatched, .memoryWritten, .memoryWriteRejected,
   .memoryInjected, .memoryRecalled, .fidelityDemoted, .superseded, .tombstoned, .redacted,
   .blobEvicted, .consolidationRan, .beliefsMerged, .contradictionResolved, .skillInduced,
   .sessionStarted, .sessionSummarized, .sessionSpawned, .sessionClosed, .actionObserved,
   .promotionProposed, .tierGranted, .tierDemoted, .verificationSampled, .triggerFired,
   .noticingRaised, .noticingDismissed]

/-- The kind a stored spelling decodes to. -/
def EventKind.ofStr? (s : String) : Option EventKind := EventKind.all.find? (·.asStr == s)

@[simp] theorem EventKind.ofStr?_asStr (kind : EventKind) : EventKind.ofStr? kind.asStr = some kind := by
  cases kind <;> decide

theorem EventKind.asStr_of_ofStr? {s : String} {kind : EventKind} (h : EventKind.ofStr? s = some kind) :
    kind.asStr = s := by
  have := List.find?_some h
  simpa using this

theorem EventKind.asStr_injective : Function.Injective EventKind.asStr := by
  intro a b h
  have hb := EventKind.ofStr?_asStr b
  rw [← h, EventKind.ofStr?_asStr] at hb
  exact Option.some.inj hb

/-- What a caller hands to `append`. The journal does not interpret the payload. -/
structure AppendRequest (P : Type) where
  traceId : TraceId
  sessionId : Option String
  runId : Option String
  actor : Actor
  kind : EventKind
  payload : P

/-- A durable event, as `append` returns it. -/
structure JournalEvent (P : Type) where
  seq : Seq
  ts : Int
  traceId : TraceId
  sessionId : Option String
  runId : Option String
  actor : Actor
  kind : EventKind
  payload : P
  signature : String
  prevSignature : String

end MarloweAgent.EventLog

/-! ## The journal

The append API: the only write path. It stamps `seq`, `ts` and the signature,
and a row reaches the table only when its INSERT does. -/

namespace MarloweAgent.EventLog
open Contract Library

variable {P : Type}

/-- Everything a signature covers. The payload stands for the exact stored text. -/
structure SignedFields (P : Type) where
  seq : Seq
  ts : Int
  traceId : TraceId
  sessionId : Option String
  runId : Option String
  actorCanonical : String
  kind : EventKind
  payload : P
  prevSignature : String

/-- The per-profile key, as the MAC it computes. -/
structure SigningKey (P : Type) where
  mac : SignedFields P → String

def sign (key : SigningKey P) (fields : SignedFields P) : String := key.mac fields

def genesis : String := "genesis"

/-- One row of the journal table. -/
structure Row (P : Type) where
  seq : Seq
  ts : Int
  traceId : TraceId
  sessionId : Option String
  runId : Option String
  actor : String
  kind : EventKind
  payload : P
  prevSignature : String
  signature : String

inductive JournalError
  | actorMayNotEmit (kind : EventKind) (actor : String)
  | chainBroken (seq : Seq)
  | sequenceGap (expected : Seq) (found : Int)
  | sqlite
  deriving DecidableEq, Repr

/-- The journal. `inserts` is what the database answers to the coming INSERTs;
past its end every INSERT succeeds. -/
structure Journal (P : Type) where
  key : SigningKey P
  rows : List (Row P)
  lastSeq : Seq
  lastSignature : String
  inserts : List Bool

namespace Journal

/-- A journal opened over an empty table. -/
def create (key : SigningKey P) (inserts : List Bool) : Journal P :=
  { key, rows := [], lastSeq := 0, lastSignature := genesis, inserts }

/-- Append one event. A refused actor or a failed INSERT leaves the log as it was. -/
def append (journal : Journal P) (clock : Clock) (req : AppendRequest P) :
    Except JournalError (JournalEvent P) × Journal P :=
  if req.kind.requiresPermissionActor && req.actor != .permission then
    (.error (.actorMayNotEmit req.kind req.actor.canonical), journal)
  else
    let seq := journal.lastSeq + 1
    let ts := clock.nowMs
    let fields : SignedFields P :=
      { seq, ts, traceId := req.traceId, sessionId := req.sessionId, runId := req.runId,
        actorCanonical := req.actor.canonical, kind := req.kind, payload := req.payload,
        prevSignature := journal.lastSignature }
    let sig := sign journal.key fields
    match journal.inserts with
    | false :: rest => (.error .sqlite, { journal with inserts := rest })
    | inserts =>
      let row : Row P :=
        { seq, ts, traceId := req.traceId, sessionId := req.sessionId, runId := req.runId,
          actor := req.actor.canonical, kind := req.kind, payload := req.payload,
          prevSignature := journal.lastSignature, signature := sig }
      let event : JournalEvent P :=
        { seq, ts, traceId := req.traceId, sessionId := req.sessionId, runId := req.runId,
          actor := req.actor, kind := req.kind, payload := req.payload,
          signature := sig, prevSignature := journal.lastSignature }
      (.ok event,
        { journal with
          rows := journal.rows ++ [row], lastSeq := seq, lastSignature := sig
          inserts := inserts.tail })

/-- Operator and audit only: the events in seq order, of one kind or of all. -/
def replay (journal : Journal P) (kind : Option EventKind) : List (Seq × EventKind × P) :=
  (journal.rows.filter fun row => kind.all (row.kind == ·)).map
    fun row => (row.seq, row.kind, row.payload)

/-- **What one append can do.** It adds the requested event at the end, under the
event's own seq, or it fails and the log is what it was. -/
theorem append_cases (journal : Journal P) (clock : Clock) (req : AppendRequest P) :
    (∃ event after, journal.append clock req = (.ok event, after) ∧
      event.seq = journal.lastSeq + 1 ∧ after.lastSeq = event.seq ∧
      after.replay none = journal.replay none ++ [(event.seq, req.kind, req.payload)]) ∨
    (∃ error after, journal.append clock req = (.error error, after) ∧
      after.rows = journal.rows ∧ after.lastSeq = journal.lastSeq) := by
  unfold append
  split
  · exact .inr ⟨_, _, rfl, rfl, rfl⟩
  · split
    · exact .inr ⟨_, _, rfl, rfl, rfl⟩
    · exact .inl ⟨_, _, rfl, rfl, rfl, by simp [replay]⟩

theorem replay_of_rows_eq {a b : Journal P} (h : a.rows = b.rows) (kind : Option EventKind) :
    a.replay kind = b.replay kind := by
  simp [replay, h]

/-- One kind's events are the whole log's events of that kind. -/
theorem replay_some (journal : Journal P) (kind : EventKind) :
    journal.replay (some kind) = (journal.replay none).filter (·.2.1 == kind) := by
  simp [replay, List.filter_map, Function.comp_def]

end Journal

end MarloweAgent.EventLog
