import MarloweAgent.Contract.Common
import MarloweAgent.Contract.Text
import MarloweAgent.EventLog.Journal
import Mathlib.Data.Rat.Defs

/-! The memory envelope: one record for every belief, and the id it is filed under. -/

namespace MarloweAgent.Memory
open Contract EventLog

/-- The engram maturation window: six hours. -/
def maturationWindowMs : Int := 6 * 60 * 60 * 1000

abbrev MemoryId := String

/-- Derived from position, never from time. -/
def memoryId (sessionId turnId : String) (index : Nat) : MemoryId :=
  "m-" ++ sessionId ++ "-" ++ turnId ++ "-" ++ toString index

structure MemoryEntry where
  id : MemoryId
  text : String
  payloadKind : PayloadKind
  embeddingRef : Option String
  sourceTurnId : String
  sourceSessionId : String
  trustClass : TrustClass
  effectiveTrust : TrustClass
  derivation : List MemoryId
  originEvent : Seq
  occurredAtMs : Int
  createdAt : Int
  lastAccessed : Int
  accessCount : Nat
  confidence : Rat
  activation : Rat
  fidelity : Fidelity
  silentUntil : Option Int
  supersedes : List MemoryId
  supersededBy : Option MemoryId
  deriving DecidableEq

namespace MemoryEntry

def isMatured (e : MemoryEntry) (nowMs : Int) : Bool :=
  match e.silentUntil with
  | none => true
  | some t => t ≤ nowMs

/-- The auto-injection candidate predicate: three exclusions, together. -/
def isInjectionCandidate (e : MemoryEntry) (nowMs : Int) : Bool :=
  Fidelity.tombstone < e.fidelity && e.supersededBy.isNone && e.isMatured nowMs

end MemoryEntry

end MarloweAgent.Memory

/-! ## Trust

Trust derivation: the channel decides trust, and an actor may only reject. -/

namespace MarloweAgent.Memory
open Contract

/-- Total over the closed set of channels. -/
def trustForChannel : Channel → TrustClass
  | .terminal => .userAsserted
  | .voice => .userAsserted
  | .web => .untrustedContent
  | .email => .untrustedContent
  | .messaging => .untrustedContent
  | .mcp => .untrustedContent
  | .toolOutput => .agentObserved
  | .file => .untrustedContent
  | .agent => .untrustedContent

/-- Worst case over the lineage: `parents.chain(own).min()`. -/
def effectiveTrust (own : TrustClass) (parents : List TrustClass) : TrustClass :=
  parents.foldr min own

theorem effectiveTrust_le_own (own : TrustClass) (parents : List TrustClass) :
    effectiveTrust own parents ≤ own := by
  induction parents with
  | nil => exact le_refl own
  | cons p rest ih => exact le_trans (min_le_right _ _) ih

theorem effectiveTrust_le_parent (own : TrustClass) {parents : List TrustClass} {p : TrustClass}
    (h : p ∈ parents) : effectiveTrust own parents ≤ p := by
  induction parents with
  | nil => cases h
  | cons q rest ih =>
    rcases List.mem_cons.mp h with rfl | h
    · exact min_le_left _ _
    · exact le_trans (min_le_right _ _) (ih h)

/-- Actor namespaces that no inbound turn may claim. -/
def reservedActorPrefixes : List String :=
  ["permission:", "harness:", "consolidation:", "trigger:", "system:"]

inductive RejectionReason
  | reservedActor (claimed : String)
  deriving DecidableEq, Repr

def RejectionReason.asWireString : RejectionReason → String
  | reservedActor claimed =>
    "reserved_actor: origin.actor " ++ Text.debugString claimed ++
      " claims a namespace reserved for harness components; an inbound turn may not assert one"

/-- `some` when the turn must be visibly refused. -/
def checkActor (actor : String) : Option RejectionReason :=
  let lowered := Text.toAsciiLowercase actor
  if reservedActorPrefixes.any (Text.startsWith lowered ·) then some (.reservedActor actor)
  else none

end MarloweAgent.Memory
