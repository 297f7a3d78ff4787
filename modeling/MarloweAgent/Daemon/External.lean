import MarloweAgent.EventLog.Tamper
import MarloweAgent.Memory.Permanence

/-! What the daemon takes in from outside. A text is filed under a digest of what it is and where it came
from, and a call looks for that belief before it writes: `insert` would put a forgotten belief back. The
look and the write take the store's lock one after the other, so others may act in between. -/

namespace MarloweAgent.Daemon.External
open Contract EventLog Library Memory

/-! ## The identity of a text -/

/-- The wire spelling of a channel. -/
def channelWord : Channel → String
  | .terminal => "terminal"
  | .voice => "voice"
  | .messaging => "messaging"
  | .email => "email"
  | .web => "web"
  | .mcp => "mcp"
  | .toolOutput => "tool_output"
  | .file => "file"
  | .agent => "agent"

/-- A text from outside. No Rust text has `2 ^ 63` bytes or more. -/
structure ExternalContent where
  channel : Channel
  reference : Option String
  text : String
  reference_short : ∀ r ∈ reference, r.utf8ByteSize < 2 ^ 63
  text_short : text.utf8ByteSize < 2 ^ 63

/-- An absent reference and an empty one are different. -/
def referenceText : Option String → String
  | some r => "some:" ++ r
  | none => "none"

/-- What the digest is made of. -/
def ExternalContent.encoded (content : ExternalContent) : List UInt8 :=
  framesLe [utf8 ("\"" ++ channelWord content.channel ++ "\""), utf8 (referenceText content.reference),
    utf8 content.text]

/-- One call of `ingest_external`. -/
structure ExternalCall where
  run : Uuid
  session : Uuid
  content : ExternalContent
  nowMs : Int

section Digest

variable (newV5 : List UInt8 → Uuid)

/-- The turn a text from outside is written under. -/
def externalTurnId (run : Uuid) (content : ExternalContent) : String :=
  "external:" ++ hyphenated.text run ++ ":" ++ hyphenated.text (newV5 content.encoded)

/-- The id that the call looks for, and that the write of its one turn takes. -/
def ExternalCall.id (call : ExternalCall) : MemoryId :=
  memoryId (hyphenated.text call.session) (externalTurnId newV5 call.run call.content) 0

/-! ## The call -/

/-- Why a call returns no class. -/
inductive ExternalRefused
  | empty
  | notJournalled (error : MemoryError)
  | rejected (reason : String)
  | neither

/-- The text of a refusal; `shown` is what a `MemoryError` displays. -/
def ExternalRefused.text (shown : MemoryError → String) : ExternalRefused → String
  | .empty => "nothing to ingest: the content is empty"
  | .notJournalled error => "the belief could not be journalled: " ++ shown error
  | .rejected reason => reason
  | .neither => "the ingest produced neither a write nor a refusal"

/-- What the call returns at its first lock, if it returns there. -/
def ExternalCall.guard (call : ExternalCall) (beliefs : BeliefStore) :
    Option (Except ExternalRefused TrustClass) :=
  if Text.isEmpty (Text.trim call.content.text) then some (.error .empty)
  else
    match beliefs.get (call.id newV5) with
    | some existing => some (.ok existing.effectiveTrust)
    | none => none

/-- The one turn of a call. The actor is the harness, which is who performed the write. -/
def ExternalCall.turn (call : ExternalCall) : Turn :=
  { turnId := externalTurnId newV5 call.run call.content
    speaker := .tool
    text := call.content.text
    occurredAtMs := call.nowMs
    origin := { channel := call.content.channel, actor := "harness", ref := call.content.reference } }

def ExternalCall.request (call : ExternalCall) : IngestRequest :=
  { contractVersion := "1.0", clock := ⟨call.nowMs⟩, sessionId := hyphenated.text call.session
    turns := [call.turn newV5] }

/-- A refusal is returned, never inferred from absence. -/
def classOf (outcome : IngestOutcome) : Except ExternalRefused TrustClass :=
  match outcome.rejected, outcome.written with
  | r :: _, _ => .error (.rejected r.reason)
  | [], w :: _ => .ok w.effectiveTrust
  | [], [] => .error .neither

/-- The write, under its own locks. -/
def ExternalCall.write (call : ExternalCall) (m : MemoryState) :
    Except ExternalRefused TrustClass × MemoryState :=
  match (ingest (call.request newV5)).run m with
  | (.ok outcome, m') => (classOf outcome, m')
  | (.error error, m') => (.error (.notJournalled error), m')

/-- The operations of the other writers. -/
def isUpkeep : Op → Bool
  | .ingest _ => false
  | _ => true

abbrev Upkeep := { op : Op // isUpkeep op = true }

def runUpkeep (ops : List Upkeep) (m : MemoryState) : MemoryState := runOps (ops.map (·.val)) m

/-- A call, with what the others do after it lets go of the first lock. -/
def ingestExternal (call : ExternalCall) (between : List Upkeep) (m : MemoryState) :
    Except ExternalRefused TrustClass × MemoryState :=
  match call.guard newV5 m.beliefs with
  | some result => (result, runUpkeep between m)
  | none => call.write newV5 (runUpkeep between m)

/-! ## Histories -/

/-- One step of a history. -/
inductive Act
  | external (call : ExternalCall) (between : List Upkeep)
  | upkeep (op : Upkeep)

def Act.perform (act : Act) (m : MemoryState) : MemoryState :=
  match act with
  | .external call between => (ingestExternal newV5 call between m).2
  | .upkeep op => op.val.run m

def runActs (acts : List Act) (m : MemoryState) : MemoryState :=
  acts.foldl (fun m act => act.perform newV5 m) m

end Digest

/-! ## Different texts, different ids -/

theorem channelWord_injective {a b : Channel}
    (h : "\"" ++ channelWord a ++ "\"" = "\"" ++ channelWord b ++ "\"") : a = b := by
  cases a <;> cases b <;> first | rfl | exact absurd h (by decide)

theorem referenceText_injective {a b : Option String} (h : referenceText a = referenceText b) : a = b := by
  have hchars := congrArg String.toList h
  cases a with
  | none =>
    cases b with
    | none => rfl
    | some r =>
      rw [referenceText, referenceText, String.toList_append] at hchars
      cases hchars
  | some r =>
    cases b with
    | none =>
      rw [referenceText, referenceText, String.toList_append] at hchars
      cases hchars
    | some r' =>
      rw [referenceText, referenceText, String.toList_append, String.toList_append] at hchars
      rw [String.toList_injective (List.append_cancel_left hchars)]

theorem ExternalContent.framable (content : ExternalContent) :
    ∀ field ∈ [utf8 ("\"" ++ channelWord content.channel ++ "\""), utf8 (referenceText content.reference),
      utf8 content.text], Framable field := by
  simp only [List.forall_mem_cons, List.not_mem_nil, false_implies, implies_true, and_true, Framable, utf8_length]
  refine ⟨?_, ?_, ?_⟩
  · cases content.channel <;> decide
  · have hshort := content.reference_short
    cases href : content.reference with
    | none => decide
    | some r =>
      rw [href] at hshort
      have hsize := hshort r rfl
      rw [referenceText, String.utf8ByteSize_append, show "some:".utf8ByteSize = 5 from rfl]
      omega
  · have hsize := content.text_short
    omega

/-- **The encoding is injective**: it keeps the three apart, and an absent reference from an empty one. -/
theorem encoded_injective {a b : ExternalContent} (h : a.encoded = b.encoded) : a = b := by
  have hfields := framesLe_injective a.framable b.framable h
  simp only [List.cons.injEq, and_true] at hfields
  obtain ⟨hchannel, hreference, htext⟩ := hfields
  have hchannel := channelWord_injective (utf8_injective hchannel)
  have hreference := referenceText_injective (utf8_injective hreference)
  have htext := utf8_injective htext
  cases a
  cases b
  congr

theorem text_injective {a b : Uuid} (h : hyphenated.text a = hyphenated.text b) : a = b := by
  have hparse := congrArg hyphenated.parse h
  rw [hyphenated.parse_text, hyphenated.parse_text] at hparse
  exact Option.some.inj hparse

theorem length_flatMap_hexByte (bytes : List UInt8) : (bytes.flatMap hexByte).length = 2 * bytes.length := by
  induction bytes with
  | nil => rfl
  | cons b rest ih =>
    rw [List.flatMap_cons, List.length_append, ih, List.length_cons]
    simp only [hexByte, List.length_cons, List.length_nil]
    omega

/-- A hyphenated identifier is 36 characters. -/
theorem length_text (uuid : Uuid) : (hyphenated.text uuid).toList.length = 36 := by
  have hlength := length_flatMap_hexByte uuid.toList
  rw [Vector.length_toList] at hlength
  simp only [hyphenated, String.toList_ofList, hyphenate, List.length_append, List.length_cons, List.length_take,
    List.length_drop, hlength]
  rfl

theorem mem_hyphenate {c : Char} (groups : List Nat) {chars : List Char} (h : c ∈ hyphenate groups chars) :
    c = '-' ∨ c ∈ chars := by
  induction groups generalizing chars with
  | nil => exact .inr h
  | cons n rest ih =>
    rw [hyphenate, List.mem_append, List.mem_cons] at h
    rcases h with htake | rfl | hrest
    · exact .inr (List.mem_of_mem_take htake)
    · exact .inl rfl
    · exact (ih hrest).imp_right List.mem_of_mem_drop

theorem m_not_mem_text (uuid : Uuid) : 'm' ∉ (hyphenated.text uuid).toList := by
  have hdigits : ∀ n : Fin 16, Nat.digitChar n ≠ 'm' := by decide
  intro h
  rw [hyphenated, String.toList_ofList] at h
  rcases mem_hyphenate _ h with hdash | hhex
  · exact absurd hdash (by decide)
  · obtain ⟨b, -, hb⟩ := List.mem_flatMap.mp hhex
    have hlt := b.toNat_lt
    simp only [hexByte, List.mem_cons, List.not_mem_nil, or_false] at hb
    rcases hb with hhigh | hlow
    · exact hdigits ⟨b.toNat / 16, by omega⟩ hhigh.symm
    · exact hdigits ⟨b.toNat % 16, by omega⟩ hlow.symm

section Ids

variable {newV5 : List UInt8 → Uuid}

theorem toList_session_turn (call : ExternalCall) :
    (hyphenated.text call.session ++ "-" ++ externalTurnId newV5 call.run call.content).toList =
      (hyphenated.text call.session).toList ++ ("-external:".toList ++ ((hyphenated.text call.run).toList ++
        (':' :: (hyphenated.text (newV5 call.content.encoded)).toList))) := by
  simp [externalTurnId, String.toList_append]

/-- Two calls take one id only from one session, one run and one digest. -/
theorem eq_of_id_eq {call call' : ExternalCall} (h : call.id newV5 = call'.id newV5) :
    call.session = call'.session ∧ call.run = call'.run ∧
      newV5 call.content.encoded = newV5 call'.content.encoded := by
  have hjoined := congrArg String.toList ((memoryId_eq_iff ..).mp h).2
  rw [toList_session_turn, toList_session_turn] at hjoined
  obtain ⟨hsession, hturn⟩ := List.append_inj hjoined (by rw [length_text, length_text])
  obtain ⟨hrun, hdigest⟩ := List.append_inj (List.append_cancel_left hturn) (by rw [length_text, length_text])
  exact ⟨text_injective (String.toList_injective hsession), text_injective (String.toList_injective hrun),
    text_injective (String.toList_injective (List.cons.inj hdigest).2)⟩

/-- No claim takes the id of a text from outside, whatever its session is called. -/
theorem claim_id_ne (call : ExternalCall) (sessionId : String) (index : Nat) :
    memoryId sessionId "claim" index ≠ call.id newV5 := by
  intro h
  have hjoined := congrArg (fun text => text.toList.getLast?) ((memoryId_eq_iff ..).mp h).2
  rw [toList_session_turn] at hjoined
  have hclaim : (sessionId ++ "-" ++ "claim").toList.getLast? = some 'm' := by
    simp [String.toList_append, List.getLast?_append]
  have hdigest : (hyphenated.text (newV5 call.content.encoded)).toList ≠ [] := by
    intro hnil
    have hlength := length_text (newV5 call.content.encoded)
    rw [hnil] at hlength
    cases hlength
  rw [hclaim, List.getLast?_append, List.getLast?_append, List.getLast?_append, List.getLast?_cons,
    List.getLast?_eq_some_getLast hdigest] at hjoined
  have hm : 'm' = (hyphenated.text (newV5 call.content.encoded)).toList.getLast hdigest := by
    simpa using hjoined
  exact m_not_mem_text _ (hm ▸ List.getLast_mem hdigest)

end Ids

/-! ## What the others leave of a belief -/

/-- How an entry may change while its belief is not revived. -/
structure Remains (e e' : MemoryEntry) : Prop extends Revises e e' where
  trust : e'.effectiveTrust = e.effectiveTrust

theorem Remains.refl (e : MemoryEntry) : Remains e e := ⟨Revises.refl e, rfl⟩

theorem Remains.trans {a b c : MemoryEntry} (hab : Remains a b) (hbc : Remains b c) : Remains a c :=
  ⟨hab.toRevises.trans hbc.toRevises, hbc.trust.trans hab.trust⟩

/-- The belief filed under `id` remains, or there is still none. -/
structure RemainsAt (id : MemoryId) (m m' : MemoryState) : Prop where
  kept : ∀ {e}, m.beliefs.get id = some e → ∃ e', m'.beliefs.get id = some e' ∧ Remains e e'
  absent : m.beliefs.get id = none → m'.beliefs.get id = none

section Upkeeping

variable {id : MemoryId}

theorem RemainsAt.of_get_eq {m m' : MemoryState} (h : m'.beliefs.get id = m.beliefs.get id) : RemainsAt id m m' :=
  ⟨fun he => ⟨_, h.trans he, Remains.refl _⟩, h.trans⟩

theorem RemainsAt.refl (m : MemoryState) : RemainsAt id m m := .of_get_eq rfl

theorem RemainsAt.trans (a b c : MemoryState) (hab : RemainsAt id a b) (hbc : RemainsAt id b c) :
    RemainsAt id a c := by
  refine ⟨fun he => ?_, fun hnone => hbc.absent (hab.absent hnone)⟩
  obtain ⟨e', he', hremains⟩ := hab.kept he
  obtain ⟨e'', he'', hremains'⟩ := hbc.kept he'
  exact ⟨e'', he'', hremains.trans hremains'⟩

theorem remainsAt_pure {α : Type} (a : α) : Fallible.Within (RemainsAt id) (pure a : MemoryM α) :=
  Fallible.Within.pure RemainsAt.refl a

theorem append_remainsAt (clock : Clock) (req : AppendRequest Payload) :
    Fallible.Within (RemainsAt id) (append clock req) := by
  intro m
  rcases append_run clock req m with ⟨event, journal, hrun, -⟩ | ⟨error, journal, hrun, -⟩
  · rw [hrun]
    exact .of_get_eq rfl
  · rw [hrun]
    exact .of_get_eq rfl

theorem modify_remainsAt (b : BeliefStore) (k : MemoryId) (f : MemoryEntry → MemoryEntry)
    (hf : ∀ e, (f e).id = e.id) (h : ∀ e, Remains e (f e)) (journal : Journal Payload) :
    RemainsAt id ⟨journal, b⟩ ⟨journal, b.modify k f hf⟩ := by
  constructor
  · intro e he
    dsimp only at he
    rw [BeliefStore.get_modify, he]
    split
    · exact ⟨f e, rfl, h e⟩
    · exact ⟨e, rfl, Remains.refl e⟩
  · intro hnone
    dsimp only at hnone
    rw [BeliefStore.get_modify, hnone]
    split <;> rfl

theorem tombstone_remainsAt (target : MemoryId) :
    Fallible.Within (RemainsAt id) (updateBeliefs (·.tombstone target)) := by
  intro m
  change RemainsAt id ⟨m.journal, m.beliefs⟩ ⟨m.journal, m.beliefs.tombstone target⟩
  unfold BeliefStore.tombstone
  refine modify_remainsAt m.beliefs target _ _ ?_ m.journal
  exact fun e => ⟨⟨rfl, .inr rfl, fun _ => rfl, fun h => h⟩, rfl⟩

theorem supersede_remainsAt (loser winner : MemoryId) :
    Fallible.Within (RemainsAt id) (updateBeliefs (·.supersede loser winner)) := by
  intro m
  change RemainsAt id ⟨m.journal, m.beliefs⟩ ⟨m.journal, m.beliefs.supersede loser winner⟩
  unfold BeliefStore.supersede
  split
  · exact RemainsAt.refl _
  · refine RemainsAt.trans _ _ _ (modify_remainsAt m.beliefs loser _ _ ?_ m.journal)
      (modify_remainsAt _ winner _ _ ?_ m.journal)
    · exact fun e => ⟨⟨rfl, .inl rfl, fun h => h, fun _ => rfl⟩, rfl⟩
    · exact fun e => ⟨⟨rfl, .inl rfl, fun h => h, fun h => h⟩, rfl⟩

/-- A belief filed under another id. -/
theorem insert_remainsAt {entry : MemoryEntry} (h : entry.id ≠ id) :
    Fallible.Within (RemainsAt id) (updateBeliefs (·.insert entry)) := fun m =>
  .of_get_eq (by
    change (m.beliefs.insert entry).get id = m.beliefs.get id
    rw [BeliefStore.get_insert, if_neg h])

variable (hid : ∀ sessionId index, memoryId sessionId "claim" index ≠ id)

include hid

theorem rememberClaim_remainsAt (clock : Clock) (write : ClaimWrite) :
    Fallible.Within (RemainsAt id) (rememberClaim clock write) := by
  unfold rememberClaim
  refine Fallible.Within.read_bind fun m => ?_
  cases claimRejection m.beliefs write with
  | some reason => exact (append_remainsAt _ _).bind RemainsAt.trans (fun _ => remainsAt_pure _) m
  | none =>
    have hother : ∀ seq, (liveEntry seq (claimPayload m.beliefs clock write)).id ≠ id := fun _ => hid _ _
    exact (append_remainsAt _ _).bind RemainsAt.trans
      (fun event => (insert_remainsAt (hother event.seq)).bind RemainsAt.trans fun _ => remainsAt_pure _) m

theorem correctClaim_remainsAt (clock : Clock) (write : ClaimWrite) (target : MemoryId) :
    Fallible.Within (RemainsAt id) (correctClaim clock write target) := by
  unfold correctClaim
  refine Fallible.Within.read_bind fun m => ?_
  cases m.beliefs.get target with
  | none => exact RemainsAt.refl m
  | some existing =>
    simp only
    split
    · exact RemainsAt.refl m
    · apply Fallible.bind_at (rememberClaim_remainsAt hid clock write m)
      intro result m' _ hclaim
      cases result with
      | error rejected => exact hclaim
      | ok receipt =>
        refine hclaim.trans _ _ _ ?_
        exact (append_remainsAt _ _).bind RemainsAt.trans (fun _ =>
          (supersede_remainsAt target receipt.id).bind RemainsAt.trans fun _ => remainsAt_pure _) m'

/-- **What another writer does to a belief from outside**: it may mark it, and never writes it again. -/
theorem upkeep_remainsAt (op : Upkeep) (m : MemoryState) : RemainsAt id m (op.val.run m) := by
  obtain ⟨op, hop⟩ := op
  cases op with
  | ingest request => cases hop
  | remember clock write => exact rememberClaim_remainsAt hid clock write m
  | correct clock write target => exact correctClaim_remainsAt hid clock write target m
  | forget clock sessionId runId target =>
    exact forgetClaim_within RemainsAt.refl RemainsAt.trans (fun clock req _ => append_remainsAt clock req)
      tombstone_remainsAt clock sessionId runId target m
  | consolidate sessionId clock vectors policy =>
    exact consolidate_within RemainsAt.refl RemainsAt.trans (fun clock req _ => append_remainsAt clock req)
      supersede_remainsAt sessionId clock vectors policy m
  | record clock req foreign => exact append_remainsAt clock req m

theorem runUpkeep_remainsAt (ops : List Upkeep) (m : MemoryState) : RemainsAt id m (runUpkeep ops m) := by
  induction ops generalizing m with
  | nil => exact RemainsAt.refl m
  | cons op rest ih => exact (upkeep_remainsAt hid op m).trans _ _ _ (ih (op.val.run m))

end Upkeeping

/-! ## What one call does -/

/-- A turn whose actor passes, with its write journalled. -/
theorem ingestTurn_run_ok {request : IngestRequest} {index : Nat} {turn : Turn} {m : MemoryState}
    {event : JournalEvent Payload} {journal : Journal Payload} (hactor : checkActor turn.origin.actor = none)
    (happend : (append request.clock
      { traceId := ⟨request.sessionId⟩, sessionId := some request.sessionId, runId := none, actor := .harness
        kind := .memoryWritten
        payload := .memoryWritten (turnPayload m.beliefs request index turn) }).run m =
      (.ok event, { m with journal })) :
    (ingestTurn request index turn).run m =
      (.ok (.ok
          { turnId := turn.turnId, memoryIds := [(turnPayload m.beliefs request index turn).id]
            effectiveTrust := (turnPayload m.beliefs request index turn).effectiveTrust }),
        { journal, beliefs := m.beliefs.insert (liveEntry event.seq (turnPayload m.beliefs request index turn)) }) := by
  unfold ingestTurn
  rw [hactor]
  dsimp only
  rw [Fallible.read_bind_run, Fallible.bind_ok happend]
  rfl

theorem ingestTurn_run_error {request : IngestRequest} {index : Nat} {turn : Turn} {m m' : MemoryState}
    {error : MemoryError} (hactor : checkActor turn.origin.actor = none)
    (happend : (append request.clock
      { traceId := ⟨request.sessionId⟩, sessionId := some request.sessionId, runId := none, actor := .harness
        kind := .memoryWritten
        payload := .memoryWritten (turnPayload m.beliefs request index turn) }).run m = (.error error, m')) :
    (ingestTurn request index turn).run m = (.error error, m') := by
  unfold ingestTurn
  rw [hactor]
  dsimp only
  rw [Fallible.read_bind_run, Fallible.bind_error happend]

/-- An ingest of one turn whose actor passes: the belief written, or a failed append. -/
theorem ingest_one (request : IngestRequest) (turn : Turn) (hone : request.turns = [turn])
    (hactor : checkActor turn.origin.actor = none) (m : MemoryState) :
    (∃ seq journal, (ingest request).run m =
      (.ok
        { written :=
            [{ turnId := turn.turnId, memoryIds := [(turnPayload m.beliefs request 0 turn).id]
               effectiveTrust := (turnPayload m.beliefs request 0 turn).effectiveTrust }]
          rejected := [] },
        { journal, beliefs := m.beliefs.insert (liveEntry seq (turnPayload m.beliefs request 0 turn)) })) ∨
    (∃ error journal, (ingest request).run m = (.error error, { m with journal }) ∧
      journal.replay none = m.journal.replay none) := by
  unfold ingest
  rw [hone]
  unfold ingestTurns
  rcases append_run request.clock
      { traceId := ⟨request.sessionId⟩, sessionId := some request.sessionId, runId := none, actor := .harness
        kind := .memoryWritten, payload := .memoryWritten (turnPayload m.beliefs request 0 turn) } m with
    ⟨event, journal, hrun, -⟩ | ⟨error, journal, hrun, hlog⟩
  · refine .inl ⟨event.seq, journal, ?_⟩
    rw [Fallible.bind_ok (ingestTurn_run_ok hactor hrun)]
    rfl
  · refine .inr ⟨error, journal, ?_, hlog⟩
    rw [Fallible.bind_error (ingestTurn_run_error hactor hrun)]

section Calls

variable {newV5 : List UInt8 → Uuid}

/-- **The write files the belief of the call under its id, or moves neither the log nor the store.** -/
theorem write_cases (newV5 : List UInt8 → Uuid) (call : ExternalCall) (m : MemoryState) :
    (∃ entry journal, entry.id = call.id newV5 ∧
      call.write newV5 m = (.ok entry.effectiveTrust, { journal, beliefs := m.beliefs.insert entry })) ∨
    (∃ error journal, call.write newV5 m = (.error (.notJournalled error), { m with journal }) ∧
      journal.replay none = m.journal.replay none) := by
  have hactor : checkActor (call.turn newV5).origin.actor = none :=
    show checkActor "harness" = none by decide
  unfold ExternalCall.write
  rcases ingest_one (call.request newV5) (call.turn newV5) rfl hactor m with
    ⟨seq, journal, hrun⟩ | ⟨error, journal, hrun, hlog⟩
  · rw [hrun]
    exact .inl ⟨liveEntry seq (turnPayload m.beliefs (call.request newV5) 0 (call.turn newV5)), journal, rfl, rfl⟩
  · rw [hrun]
    exact .inr ⟨error, journal, rfl, hlog⟩

theorem guard_of_known {call : ExternalCall} {beliefs : BeliefStore} {e : MemoryEntry}
    (h : beliefs.get (call.id newV5) = some e) :
    call.guard newV5 beliefs = some
      (if Text.isEmpty (Text.trim call.content.text) then .error .empty else .ok e.effectiveTrust) := by
  unfold ExternalCall.guard
  rw [h]
  split <;> rfl

theorem guard_eq_none {call : ExternalCall} {beliefs : BeliefStore} (h : call.guard newV5 beliefs = none) :
    beliefs.get (call.id newV5) = none := by
  by_contra hsome
  obtain ⟨e, he⟩ := Option.ne_none_iff_exists'.mp hsome
  rw [guard_of_known he] at h
  cases h

/-- A class that the first lock returns is that of the belief there. -/
theorem guard_eq_ok {call : ExternalCall} {beliefs : BeliefStore} {trust : TrustClass}
    (h : call.guard newV5 beliefs = some (.ok trust)) :
    ∃ e, beliefs.get (call.id newV5) = some e ∧ e.effectiveTrust = trust := by
  unfold ExternalCall.guard at h
  split at h
  · cases h
  · split at h
    case h_1 e he => exact ⟨e, he, Except.ok.inj (Option.some.inj h)⟩
    case h_2 => cases h

theorem ingestExternal_of_guard {call : ExternalCall} {between : List Upkeep} {m : MemoryState}
    {result : Except ExternalRefused TrustClass} (h : call.guard newV5 m.beliefs = some result) :
    ingestExternal newV5 call between m = (result, runUpkeep between m) := by
  unfold ingestExternal
  rw [h]

theorem ingestExternal_of_free {call : ExternalCall} {between : List Upkeep} {m : MemoryState}
    (h : call.guard newV5 m.beliefs = none) :
    ingestExternal newV5 call between m = call.write newV5 (runUpkeep between m) := by
  unfold ingestExternal
  rw [h]

/-- A call keeps what is filed under every id: its own write is under an id that was free. -/
theorem ingestExternal_keeps {known : ExternalCall} {m : MemoryState} {e : MemoryEntry} (call : ExternalCall)
    (between : List Upkeep) (he : m.beliefs.get (known.id newV5) = some e) :
    ∃ e', (ingestExternal newV5 call between m).2.beliefs.get (known.id newV5) = some e' ∧ Remains e e' := by
  obtain ⟨e', he', hremains⟩ := (runUpkeep_remainsAt (claim_id_ne known) between m).kept he
  cases hguard : call.guard newV5 m.beliefs with
  | some result =>
    rw [ingestExternal_of_guard hguard]
    exact ⟨e', he', hremains⟩
  | none =>
    rw [ingestExternal_of_free hguard]
    rcases write_cases newV5 call (runUpkeep between m) with
      ⟨entry, journal, hid, hwrite⟩ | ⟨error, journal, hwrite, -⟩
    · have hne : entry.id ≠ known.id newV5 := by
        rw [hid]
        intro hsame
        rw [← hsame, guard_eq_none hguard] at he
        cases he
      rw [hwrite]
      exact ⟨e', by rw [BeliefStore.get_insert, if_neg hne, he'], hremains⟩
    · rw [hwrite]
      exact ⟨e', he', hremains⟩

/-- A call that returned a class left a belief of that class under its id. -/
theorem ingestExternal_ok {call : ExternalCall} {between : List Upkeep} {m : MemoryState} {trust : TrustClass}
    (h : (ingestExternal newV5 call between m).1 = .ok trust) :
    ∃ e, (ingestExternal newV5 call between m).2.beliefs.get (call.id newV5) = some e ∧
      e.effectiveTrust = trust := by
  cases hguard : call.guard newV5 m.beliefs with
  | some result =>
    rw [ingestExternal_of_guard hguard] at h
    obtain ⟨e, he, htrust⟩ := guard_eq_ok (hguard.trans (congrArg some h))
    obtain ⟨e', he', hremains⟩ := ingestExternal_keeps call between he
    exact ⟨e', he', hremains.trust.trans htrust⟩
  | none =>
    rw [ingestExternal_of_free hguard] at h ⊢
    rcases write_cases newV5 call (runUpkeep between m) with
      ⟨entry, journal, hid, hwrite⟩ | ⟨error, journal, hwrite, -⟩
    · rw [hwrite] at h ⊢
      exact ⟨entry, by rw [BeliefStore.get_insert, if_pos hid], Except.ok.inj h⟩
    · rw [hwrite] at h
      cases h

/-- A call that returned no class moved neither the log nor the store. -/
theorem ingestExternal_error {call : ExternalCall} {between : List Upkeep} {m : MemoryState}
    {refused : ExternalRefused} (h : (ingestExternal newV5 call between m).1 = .error refused) :
    (ingestExternal newV5 call between m).2.beliefs = (runUpkeep between m).beliefs ∧
      log (ingestExternal newV5 call between m).2 = log (runUpkeep between m) := by
  cases hguard : call.guard newV5 m.beliefs with
  | some result =>
    rw [ingestExternal_of_guard hguard]
    exact ⟨rfl, rfl⟩
  | none =>
    rw [ingestExternal_of_free hguard] at h ⊢
    rcases write_cases newV5 call (runUpkeep between m) with
      ⟨entry, journal, hid, hwrite⟩ | ⟨error, journal, hwrite, hlog⟩
    · rw [hwrite] at h
      cases h
    · rw [hwrite]
      exact ⟨rfl, hlog⟩

/-! ## Histories -/

theorem runActs_append (before after : List Act) (m : MemoryState) :
    runActs newV5 (before ++ after) m = runActs newV5 after (runActs newV5 before m) := List.foldl_append

theorem runActs_external (call : ExternalCall) (between : List Upkeep) (rest : List Act) (m : MemoryState) :
    runActs newV5 (.external call between :: rest) m =
      runActs newV5 rest (ingestExternal newV5 call between m).2 := List.foldl_cons

theorem runActs_upkeep (ops : List Upkeep) (m : MemoryState) :
    runActs newV5 (ops.map .upkeep) m = runUpkeep ops m := by
  induction ops generalizing m with
  | nil => rfl
  | cons op rest ih => exact ih (op.val.run m)

/-- **A history revives no belief from outside**: it is marked at most, and what was marked stays so. -/
theorem runActs_keeps {known : ExternalCall} (acts : List Act) {m : MemoryState} {e : MemoryEntry}
    (he : m.beliefs.get (known.id newV5) = some e) :
    ∃ e', (runActs newV5 acts m).beliefs.get (known.id newV5) = some e' ∧ Remains e e' := by
  induction acts generalizing m e with
  | nil => exact ⟨e, he, Remains.refl e⟩
  | cons act rest ih =>
    have hact : ∃ e', (act.perform newV5 m).beliefs.get (known.id newV5) = some e' ∧ Remains e e' := by
      cases act with
      | external call between =>
        rw [Act.perform]
        exact ingestExternal_keeps call between he
      | upkeep op =>
        rw [Act.perform]
        exact (upkeep_remainsAt (claim_id_ne known) op m).kept he
    obtain ⟨e', he', hremains⟩ := hact
    obtain ⟨e'', he'', hremains'⟩ := ih he'
    exact ⟨e'', he'', hremains.trans hremains'⟩

end Calls

/-- What holds of the calls at a memory, whatever the other writers do between their two locks. -/
structure IngestsOnce (newV5 : List UInt8 → Uuid) (m : MemoryState) : Prop where
  /-- A later call of the same text leaves what the others alone leave. -/
  repeated : ∀ {call call' : ExternalCall} {between between' mid after trust}, call'.session = call.session →
    call'.run = call.run → call'.content = call.content → (ingestExternal newV5 call between m).1 = .ok trust →
    runActs newV5 (.external call between :: (mid ++ .external call' between' :: after)) m =
      runActs newV5 (.external call between :: (mid ++ (between'.map .upkeep ++ after))) m
  refused : ∀ {call : ExternalCall} {between reason}, (ingestExternal newV5 call between m).1 = .error reason →
    (ingestExternal newV5 call between m).2.beliefs = (runUpkeep between m).beliefs ∧
      log (ingestExternal newV5 call between m).2 = log (runUpkeep between m)
  /-- Where the digests of the two texts do not collide. -/
  distinct : ∀ {call call' : ExternalCall},
    (newV5 call.content.encoded = newV5 call'.content.encoded → call.content.encoded = call'.content.encoded) →
    call.id newV5 = call'.id newV5 →
    call.session = call'.session ∧ call.run = call'.run ∧ call.content = call'.content
  existing : ∀ {call : ExternalCall} {between e}, m.beliefs.get (call.id newV5) = some e →
    ingestExternal newV5 call between m =
      (if Text.isEmpty (Text.trim call.content.text) then .error .empty else .ok e.effectiveTrust,
        runUpkeep between m)
  /-- The write takes an id that is free at its own lock too. -/
  free : ∀ {call : ExternalCall} {between}, call.guard newV5 m.beliefs = none →
    (runUpkeep between m).beliefs.get (call.id newV5) = none
  ownClass : ∀ {call : ExternalCall} {between trust}, (ingestExternal newV5 call between m).1 = .ok trust →
    ∃ e, (ingestExternal newV5 call between m).2.beliefs.get (call.id newV5) = some e ∧ e.effectiveTrust = trust
  unrevived : ∀ {call : ExternalCall} {e acts}, m.beliefs.get (call.id newV5) = some e →
    ∃ e', (runActs newV5 acts m).beliefs.get (call.id newV5) = some e' ∧ Remains e e'

/-- After a call that returned a class, a call of the same text leaves what the others alone leave. -/
theorem runActs_repeated {newV5 : List UInt8 → Uuid} {m : MemoryState} {call call' : ExternalCall}
    {between between' : List Upkeep} {mid after : List Act} {trust : TrustClass}
    (hid : call'.id newV5 = call.id newV5) (hok : (ingestExternal newV5 call between m).1 = .ok trust) :
    runActs newV5 (.external call between :: (mid ++ .external call' between' :: after)) m =
      runActs newV5 (.external call between :: (mid ++ (between'.map .upkeep ++ after))) m := by
  obtain ⟨e, he, -⟩ := ingestExternal_ok hok
  obtain ⟨e', he', -⟩ := runActs_keeps mid he
  rw [← hid] at he'
  rw [runActs_external, runActs_external, runActs_append, runActs_append, runActs_external, runActs_append,
    runActs_upkeep, ingestExternal_of_guard (guard_of_known he')]

/-- **Texts from outside are taken in once, and never revived**, at every point of every history. -/
theorem ingestsOnce_runActs (newV5 : List UInt8 → Uuid) (start : MemoryState) (before : List Act) :
    IngestsOnce newV5 (runActs newV5 before start) where
  repeated := by
    intro call call' between between' mid after trust hsession hrun hcontent hok
    refine runActs_repeated ?_ hok
    unfold ExternalCall.id
    rw [hsession, hrun, hcontent]
  refused := ingestExternal_error
  distinct := by
    intro call call' hcollide hid
    obtain ⟨hsession, hrun, hdigest⟩ := eq_of_id_eq hid
    exact ⟨hsession, hrun, encoded_injective (hcollide hdigest)⟩
  existing := fun he => ingestExternal_of_guard (guard_of_known he)
  free := fun hguard => (runUpkeep_remainsAt (claim_id_ne _) _ _).absent (guard_eq_none hguard)
  ownClass := ingestExternal_ok
  unrevived := runActs_keeps _

/-- The digest's input and the id of one page, byte by byte. -/
def pinned : ExternalContent :=
  { channel := .web, reference := some "https://example.invalid/pinned", text := "a pinned summary"
    reference_short := by decide, text_short := by decide }

example : toHex pinned.encoded = "050000000000000022776562222300000000000000736f6d653a68747470733a2f2f6578616d" ++
    "706c652e696e76616c69642f70696e6e65641000000000000000612070696e6e65642073756d6d617279" := by decide +kernel

example :
    let digest : Uuid := #v[160, 112, 238, 7, 63, 190, 92, 126, 159, 72, 7, 47, 136, 91, 181, 63]
    externalTurnId (fun _ => digest) #v[41, 35, 37, 37, 21, 89, 90, 84, 160, 62, 27, 155, 170, 137, 236, 62] pinned =
      "external:29232525-1559-5a54-a03e-1b9baa89ec3e:a070ee07-3fbe-5c7e-9f48-072f885bb53f" := by decide +kernel

end MarloweAgent.Daemon.External
