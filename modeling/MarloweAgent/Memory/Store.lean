import MarloweAgent.EventLog.Journal
import MarloweAgent.Library.KeyedLog
import MarloweAgent.Library.OrderedMap
import MarloweAgent.Memory.Entry
import Mathlib.Data.String.Basic

/-! The belief store: a materialized view over the journal, never an authority.
`derive` rebuilds it from the log; the live mutations are `insert`, `supersede`
and `tombstone`. -/

namespace MarloweAgent.Memory
open Contract EventLog Library

/-! ## Journal payloads -/

structure MemoryWrittenPayload where
  id : MemoryId
  text : String
  payloadKind : PayloadKind
  sourceTurnId : String
  sourceSessionId : String
  trustClass : TrustClass
  effectiveTrust : TrustClass
  derivation : List MemoryId
  occurredAtMs : Int
  createdAt : Int
  silentUntil : Option Int
  fidelity : Fidelity
  deriving DecidableEq

structure MemoryWriteRejectedPayload where
  turnId : String
  sessionId : String
  reason : String
  deriving DecidableEq

structure FidelityDemotedPayload where
  id : MemoryId
  to_ : Fidelity
  deriving DecidableEq

structure SupersededPayload where
  id : MemoryId
  by_ : MemoryId
  deriving DecidableEq

structure TombstonedPayload where
  id : MemoryId
  deriving DecidableEq

structure BeliefsMergedPayload where
  representative : MemoryId
  merged : List MemoryId
  seqFirst : Seq
  seqLast : Seq
  minCosine : Rat
  maxCosine : Rat
  deriving DecidableEq

structure ConsolidationRanPayload where
  sessionId : String
  threshold : Rat
  scanned : Nat
  clusters : Nat
  suppressed : Nat
  deriving DecidableEq

/-- A stored payload, by the shape it decodes to. `other` is any other JSON text. -/
inductive Payload
  | memoryWritten (p : MemoryWrittenPayload)
  | memoryWriteRejected (p : MemoryWriteRejectedPayload)
  | fidelityDemoted (p : FidelityDemotedPayload)
  | superseded (p : SupersededPayload)
  | tombstoned (p : TombstonedPayload)
  | beliefsMerged (p : BeliefsMergedPayload)
  | consolidationRan (p : ConsolidationRanPayload)
  | other (json : String)
  deriving DecidableEq

inductive MemoryError
  | derivationVersionMismatch (found expected : Nat)
  | undecodablePayload (seq : Seq)
  | eventForUnknownMemory (seq : Seq) (id : MemoryId)
  | journal (error : JournalError)
  /-- A panic, which unwinds past the call. -/
  | panicked
  deriving DecidableEq

def derivationVersion : Nat := 2

/-- A journal event as replay reads it. -/
abbrev LogEvent := Seq × EventKind × Payload

/-! ## The store -/

/-- Beliefs in id order, each filed under its own id. -/
structure BeliefStore where
  entries : OrderedMap MemoryId MemoryEntry
  keyed : ∀ k e, entries.get? k = some e → e.id = k

namespace BeliefStore

def empty : BeliefStore := ⟨OrderedMap.empty, fun _ _ h => by cases h⟩

def get (beliefs : BeliefStore) (id : MemoryId) : Option MemoryEntry := beliefs.entries.get? id

def insert (beliefs : BeliefStore) (entry : MemoryEntry) : BeliefStore :=
  ⟨beliefs.entries.insert entry.id entry, fun k e h => by
    rw [OrderedMap.get?_insert] at h
    split at h
    · rename_i hk
      rw [← Option.some.inj h, hk]
    · exact beliefs.keyed k e h⟩

/-- Change one entry in place, as through `get_mut`; its id stays. -/
def modify (beliefs : BeliefStore) (id : MemoryId) (f : MemoryEntry → MemoryEntry)
    (hf : ∀ e, (f e).id = e.id) : BeliefStore :=
  ⟨beliefs.entries.modify id f, fun k e h => by
    rw [OrderedMap.get?_modify] at h
    split at h
    · obtain ⟨e', he', rfl⟩ := Option.map_eq_some_iff.mp h
      rw [hf e']
      exact beliefs.keyed k e' he'
    · exact beliefs.keyed k e h⟩

/-- Fold a supersession edge into the live view; silent on an unknown id. -/
def supersede (beliefs : BeliefStore) (id by_ : MemoryId) : BeliefStore :=
  match beliefs.get id with
  | none => beliefs
  | some _ =>
    let marked := beliefs.modify id (fun loser => { loser with supersededBy := some by_ })
      fun _ => rfl
    marked.modify by_ (fun winner => { winner with supersedes := winner.supersedes ++ [id] })
      fun _ => rfl

/-- Fold a tombstone into the live view: the tier is demoted and the text cleared. -/
def tombstone (beliefs : BeliefStore) (id : MemoryId) : BeliefStore :=
  beliefs.modify id (fun e => { e with fidelity := .tombstone, text := "" }) fun _ => rfl

def injectionCandidates (beliefs : BeliefStore) (nowMs : Int) : List MemoryEntry :=
  beliefs.entries.values.filter (·.isInjectionCandidate nowMs)

def recallCandidates (beliefs : BeliefStore) : List MemoryEntry := beliefs.entries.values

/-! ## Replay -/

/-- The entry a `MemoryWritten` event replays into. -/
def entryOfWritten (seq : Seq) (p : MemoryWrittenPayload) : MemoryEntry :=
  { id := p.id, text := p.text, payloadKind := p.payloadKind, embeddingRef := none
    sourceTurnId := p.sourceTurnId, sourceSessionId := p.sourceSessionId
    trustClass := p.trustClass, effectiveTrust := p.effectiveTrust
    derivation := p.derivation, originEvent := seq, occurredAtMs := p.occurredAtMs
    createdAt := p.createdAt, lastAccessed := p.createdAt, accessCount := 0
    confidence := 1, activation := 1, fidelity := p.fidelity
    silentUntil := p.silentUntil, supersedes := [], supersededBy := none }

/-- One event of the replay. Kinds that are not belief-store inputs are ignored. -/
def applyEvent (beliefs : BeliefStore) :
    LogEvent → Except MemoryError BeliefStore
  | (seq, .memoryWritten, payload) =>
    match payload with
    | .memoryWritten p => .ok (beliefs.insert (entryOfWritten seq p))
    | _ => .error (.undecodablePayload seq)
  | (seq, .fidelityDemoted, payload) =>
    match payload with
    | .fidelityDemoted p =>
      match beliefs.get p.id with
      | none => .error (.eventForUnknownMemory seq p.id)
      | some _ => .ok (beliefs.modify p.id (fun e => { e with fidelity := p.to_ }) fun _ => rfl)
    | _ => .error (.undecodablePayload seq)
  | (seq, .superseded, payload) =>
    match payload with
    | .superseded p =>
      match beliefs.get p.id with
      | none => .error (.eventForUnknownMemory seq p.id)
      | some _ =>
        let marked := beliefs.modify p.id (fun e => { e with supersededBy := some p.by_ })
          fun _ => rfl
        .ok (match marked.get p.by_ with
          | some _ => marked.modify p.by_
              (fun winner => { winner with supersedes := winner.supersedes ++ [p.id] })
              fun _ => rfl
          | none => marked)
    | _ => .error (.undecodablePayload seq)
  | (seq, .tombstoned, payload) =>
    match payload with
    | .tombstoned p =>
      match beliefs.get p.id with
      | none => .error (.eventForUnknownMemory seq p.id)
      | some _ =>
        .ok (beliefs.modify p.id (fun e => { e with fidelity := .tombstone, text := "" })
          fun _ => rfl)
    | _ => .error (.undecodablePayload seq)
  | _ => .ok beliefs

/-- The view the log is folded into. -/
def view : DerivedView BeliefStore LogEvent MemoryError :=
  { initial := empty, apply := applyEvent }

/-- Rebuild the belief store by replaying the log. -/
def derive (journal : Journal Payload) (version : Nat) : Except MemoryError BeliefStore :=
  if version ≠ derivationVersion then
    .error (.derivationVersionMismatch version derivationVersion)
  else view.derive (journal.replay none)

/-! ## What the mutations do to a lookup -/

theorem ext {a b : BeliefStore} (h : a.entries = b.entries) : a = b := by
  cases a
  cases b
  cases h
  rfl

theorem get_insert (beliefs : BeliefStore) (entry : MemoryEntry) (id : MemoryId) :
    (beliefs.insert entry).get id = if entry.id = id then some entry else beliefs.get id :=
  OrderedMap.get?_insert ..

theorem get_modify (beliefs : BeliefStore) (id k : MemoryId) (f : MemoryEntry → MemoryEntry)
    (hf : ∀ e, (f e).id = e.id) :
    (beliefs.modify id f hf).get k = if id = k then (beliefs.get k).map f else beliefs.get k :=
  OrderedMap.get?_modify ..

theorem isSome_get_modify (beliefs : BeliefStore) (id k : MemoryId)
    (f : MemoryEntry → MemoryEntry) (hf : ∀ e, (f e).id = e.id) :
    ((beliefs.modify id f hf).get k).isSome = (beliefs.get k).isSome := by
  rw [get_modify]
  split <;> simp

theorem isSome_get_insert (beliefs : BeliefStore) (entry : MemoryEntry) {id : MemoryId}
    (h : (beliefs.get id).isSome) : ((beliefs.insert entry).get id).isSome := by
  rw [get_insert]
  split
  · rfl
  · exact h

theorem isSome_get_supersede (beliefs : BeliefStore) (id by_ k : MemoryId) :
    ((beliefs.supersede id by_).get k).isSome = (beliefs.get k).isSome := by
  unfold supersede
  split
  · rfl
  · rw [isSome_get_modify, isSome_get_modify]

theorem isSome_get_tombstone (beliefs : BeliefStore) (id k : MemoryId) :
    ((beliefs.tombstone id).get k).isSome = (beliefs.get k).isSome :=
  isSome_get_modify ..

/-- A change to an unbound key changes nothing. -/
theorem modify_of_get_none (beliefs : BeliefStore) (id : MemoryId)
    (f : MemoryEntry → MemoryEntry) (hf : ∀ e, (f e).id = e.id) (h : beliefs.get id = none) :
    beliefs.modify id f hf = beliefs := by
  refine ext ?_
  cases beliefs with
  | mk entries keyed => exact OrderedMap.modify_of_get?_none entries id f h

theorem mem_recallCandidates_iff (beliefs : BeliefStore) (e : MemoryEntry) :
    e ∈ beliefs.recallCandidates ↔ beliefs.get e.id = some e := by
  rw [recallCandidates, OrderedMap.mem_values_iff]
  constructor
  · rintro ⟨k, hk⟩
    rw [beliefs.keyed k e hk]
    exact hk
  · exact fun h => ⟨e.id, h⟩

/-! ## The live mutations are the replayed ones -/

theorem applyEvent_written (beliefs : BeliefStore) (seq : Seq) (p : MemoryWrittenPayload) :
    applyEvent beliefs (seq, .memoryWritten, .memoryWritten p) =
      .ok (beliefs.insert (entryOfWritten seq p)) := rfl

theorem applyEvent_superseded (beliefs : BeliefStore) (seq : Seq) (p : SupersededPayload)
    (h : (beliefs.get p.id).isSome) :
    applyEvent beliefs (seq, .superseded, .superseded p) =
      .ok (beliefs.supersede p.id p.by_) := by
  obtain ⟨e, he⟩ := Option.isSome_iff_exists.mp h
  simp only [applyEvent, supersede, he]
  split
  · rfl
  · rename_i hnone
    exact congrArg Except.ok (modify_of_get_none _ _ _ _ hnone).symm

theorem applyEvent_tombstoned (beliefs : BeliefStore) (seq : Seq) (p : TombstonedPayload)
    (h : (beliefs.get p.id).isSome) :
    applyEvent beliefs (seq, .tombstoned, .tombstoned p) = .ok (beliefs.tombstone p.id) := by
  obtain ⟨e, he⟩ := Option.isSome_iff_exists.mp h
  simp only [applyEvent, he]
  rfl

end BeliefStore

end MarloweAgent.Memory
