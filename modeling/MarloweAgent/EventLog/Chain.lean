import MarloweAgent.EventLog.Table

/-! The writer and the verifier agree. Whatever a journal is put through, its table
passes the walk and the walk ends at the head the writer holds in memory. -/

namespace MarloweAgent.EventLog
open Contract Library

variable {codec : UuidCodec} {mac : List UInt8 → List UInt8}

/-! ## What the walk accepts -/

/-- The row's columns decode, and its signature is the one for what they say. -/
def StoredRow.Signed (codec : UuidCodec) (mac : List UInt8 → List UInt8) (row : StoredRow) : Prop :=
  ∃ seq trace kind, row.seq = (seq : Nat) ∧ codec.parse row.traceId = some trace ∧
    EventKind.ofStr? row.kind = some kind ∧
    signBytes mac (signedBytes seq row.ts trace row.sessionId row.runId row.actor kind row.payload
      row.prevSignature) = row.signature

theorem verifyRow_ok_iff {expected : Seq} {prev : String} {row : StoredRow} :
    verifyRow codec mac expected prev row = .ok () ↔
      row.seq = expected ∧ row.prevSignature = prev ∧ row.Signed codec mac := by
  constructor
  · intro h
    unfold verifyRow at h
    split at h
    · cases h
    · rename_i hseq
      split at h
      · cases h
      · rename_i hprev
        split at h
        · cases h
        · rename_i trace htrace
          split at h
          · cases h
          · rename_i kind hkind
            split at h
            · rename_i hmac
              exact ⟨not_not.mp hseq, not_not.mp hprev, expected, trace, kind, not_not.mp hseq,
                htrace, hkind, (verify_iff _ _ _).mp hmac⟩
            · cases h
  · rintro ⟨hseq, rfl, seq, trace, kind, hseq', htrace, hkind, hmac⟩
    obtain rfl : seq = expected := by exact_mod_cast hseq'.symm.trans hseq
    simp [verifyRow, hseq, htrace, hkind, hmac]

theorem verifyFrom_append (lastSeq : Seq) (prev : String) (rows more : List StoredRow) :
    verifyFrom codec mac lastSeq prev (rows ++ more) =
      match verifyFrom codec mac lastSeq prev rows with
      | .error e => .error e
      | .ok (seq, signature) => verifyFrom codec mac seq signature more := by
  induction rows generalizing lastSeq prev with
  | nil => rfl
  | cons row rest ih =>
    simp only [List.cons_append, verifyFrom]
    cases verifyRow codec mac (lastSeq + 1) prev row with
    | error e => rfl
    | ok _ => exact ih _ _

/-- An accepted table is numbered without gaps and every row of it is signed. -/
theorem verifyFrom_ok {lastSeq seq : Seq} {prev signature : String} {rows : List StoredRow}
    (h : verifyFrom codec mac lastSeq prev rows = .ok (seq, signature)) :
    seq = lastSeq + rows.length ∧
      rows.map StoredRow.seq = (List.range' (lastSeq + 1) rows.length).map (fun n : Nat => (n : Int)) ∧
      ∀ row ∈ rows, row.Signed codec mac := by
  induction rows generalizing lastSeq prev with
  | nil =>
    cases h
    exact ⟨rfl, rfl, by simp⟩
  | cons row rest ih =>
    simp only [verifyFrom] at h
    split at h
    · cases h
    · rename_i hrow
      obtain ⟨hseq, -, hsigned⟩ := verifyRow_ok_iff.mp hrow
      obtain ⟨hlast, hseqs, hrest⟩ := ih h
      refine ⟨?_, ?_, ?_⟩
      · rw [hlast, List.length_cons, Nat.add_assoc, Nat.add_comm 1]
      · rw [List.map_cons, hseqs, hseq, List.length_cons, List.range'_succ, List.map_cons]
      · intro r hr
        rcases List.mem_cons.mp hr with rfl | hr
        · exact hsigned
        · exact hrest r hr

/-! ## What one append does to the chain -/

namespace Journal

/-- The row an append would insert. -/
def nextRow (journal : Journal String) (clock : Clock) (req : AppendRequest String) : Row String :=
  { seq := journal.lastSeq + 1, ts := clock.nowMs, traceId := req.traceId
    sessionId := req.sessionId, runId := req.runId, actor := req.actor.canonical
    kind := req.kind, payload := req.payload, prevSignature := journal.lastSignature
    signature := sign journal.key
      { seq := journal.lastSeq + 1, ts := clock.nowMs, traceId := req.traceId
        sessionId := req.sessionId, runId := req.runId, actorCanonical := req.actor.canonical
        kind := req.kind, payload := req.payload, prevSignature := journal.lastSignature } }

/-- An append inserts its row and moves the head to it, or it fails and only the
database's answer is used up. A tier event is inserted for the permission component
alone. -/
theorem append_chain (journal : Journal String) (clock : Clock) (req : AppendRequest String) :
    (∃ e inserts, journal.append clock req = (.error e, { journal with inserts })) ∨
    ((req.kind.requiresPermissionActor = true → req.actor = .permission) ∧
      ∃ event inserts, journal.append clock req = (.ok event,
        { journal with
          rows := journal.rows ++ [journal.nextRow clock req], lastSeq := journal.lastSeq + 1
          lastSignature := (journal.nextRow clock req).signature, inserts })) := by
  unfold append
  by_cases hactor : (req.kind.requiresPermissionActor && req.actor != .permission) = true
  · rw [if_pos hactor]
    exact .inl ⟨_, journal.inserts, rfl⟩
  · rw [if_neg hactor]
    have hgrant : req.kind.requiresPermissionActor = true → req.actor = .permission := by
      intro hkind
      by_contra hne
      exact hactor (by simp [hkind, hne])
    dsimp only
    split
    · exact .inl ⟨_, _, rfl⟩
    · exact .inr ⟨hgrant, _, _, rfl⟩

/-- **A failed append leaves no trace.** -/
theorem append_error {journal : Journal String} {clock : Clock} {req : AppendRequest String}
    {e : JournalError} (h : (journal.append clock req).1 = .error e) :
    (journal.append clock req).2.rows = journal.rows ∧
      (journal.append clock req).2.lastSeq = journal.lastSeq ∧
      (journal.append clock req).2.lastSignature = journal.lastSignature := by
  rcases journal.append_chain clock req with ⟨e', inserts, heq⟩ | ⟨-, event, inserts, heq⟩
  · rw [heq]
    exact ⟨rfl, rfl, rfl⟩
  · rw [heq] at h
    cases h

/-! ## The invariant -/

/-- The table passes the walk, the walk ends at the head in memory, and every tier
event is the permission component's. -/
structure Chained (codec : UuidCodec) (mac : List UInt8 → List UInt8) (journal : Journal String) :
    Prop where
  key : journal.key = signingKey codec mac
  verified :
    verifyTable codec mac (journal.table codec) = .ok (journal.lastSeq, journal.lastSignature)
  granted : ∀ row ∈ journal.rows, row.kind.requiresPermissionActor = true →
    row.actor = Actor.permission.canonical

theorem create_chained (codec : UuidCodec) (mac : List UInt8 → List UInt8) (inserts : List Bool) :
    (create (signingKey codec mac) inserts).Chained codec mac :=
  ⟨rfl, rfl, by simp [create]⟩

/-- The row an append inserts passes at the head it was signed against. -/
theorem nextRow_verifies {journal : Journal String} (hkey : journal.key = signingKey codec mac)
    (clock : Clock) (req : AppendRequest String) :
    verifyRow codec mac (journal.lastSeq + 1) journal.lastSignature
      ((journal.nextRow clock req).stored codec) = .ok () := by
  refine verifyRow_ok_iff.mpr ⟨rfl, rfl, journal.lastSeq + 1, codec.ofTrace req.traceId, req.kind,
    rfl, codec.parse_text _, EventKind.ofStr?_asStr _, ?_⟩
  simp [nextRow, Row.stored, sign, hkey, signingKey]

theorem Chained.append {journal : Journal String} (hj : journal.Chained codec mac) (clock : Clock)
    (req : AppendRequest String) : (journal.append clock req).2.Chained codec mac := by
  rcases journal.append_chain clock req with ⟨e, inserts, heq⟩ | ⟨hgrant, event, inserts, heq⟩
  · rw [heq]
    exact ⟨hj.key, hj.verified, hj.granted⟩
  · rw [heq]
    have hverified := hj.verified
    refine ⟨hj.key, ?_, ?_⟩
    · simp only [verifyTable, table] at hverified
      simp only [verifyTable, table, List.map_append, List.map_cons, List.map_nil,
        verifyFrom_append, hverified, verifyFrom, nextRow_verifies hj.key clock req]
      rfl
    · intro row hrow hkind
      rcases List.mem_append.mp hrow with hrow | hrow
      · exact hj.granted row hrow hkind
      · obtain rfl := List.mem_singleton.mp hrow
        exact congrArg Actor.canonical (hgrant hkind)

/-- Opening a chained table finds the writer's own head. -/
theorem Chained.reopen {journal : Journal String} (hj : journal.Chained codec mac) :
    journal.reopen codec mac = .ok journal := by
  have hverified := hj.verified
  unfold Journal.reopen verifyChain
  simp only [table] at hverified ⊢
  rw [hverified]

/-! ## Runs -/

/-- What a journal is put through. -/
inductive Use
  | append (clock : Clock) (req : AppendRequest String)
  | reopen

/-- A refused open leaves the table to the next attempt. -/
def use (codec : UuidCodec) (mac : List UInt8 → List UInt8) (journal : Journal String) :
    Use → Journal String
  | .append clock req => (journal.append clock req).2
  | .reopen =>
    match journal.reopen codec mac with
    | .ok opened => opened
    | .error _ => journal

def uses (codec : UuidCodec) (mac : List UInt8 → List UInt8) (journal : Journal String)
    (history : List Use) : Journal String :=
  history.foldl (use codec mac) journal

theorem Chained.uses {journal : Journal String} (hj : journal.Chained codec mac)
    (history : List Use) : (journal.uses codec mac history).Chained codec mac := by
  induction history generalizing journal with
  | nil => exact hj
  | cons step rest ih =>
    refine @ih (journal.use codec mac step) ?_
    cases step with
    | append clock req => exact hj.append clock req
    | reopen =>
      unfold use
      rw [hj.reopen]
      exact hj

/-- The writer's journal and the table it leaves say the same: a failed append changes
neither, the table passes the walk, opening it restores the writer's own head, the
rows are numbered from 1 without gaps, and every tier event is the permission
component's. -/
structure Agrees (codec : UuidCodec) (mac : List UInt8 → List UInt8) (journal : Journal String) :
    Prop where
  failed : ∀ clock req e, (journal.append clock req).1 = .error e →
    (journal.append clock req).2.table codec = journal.table codec ∧
      (journal.append clock req).2.lastSeq = journal.lastSeq ∧
      (journal.append clock req).2.lastSignature = journal.lastSignature
  verified :
    verifyTable codec mac (journal.table codec) = .ok (journal.lastSeq, journal.lastSignature)
  reopened : ∃ opened, journal.reopen codec mac = .ok opened ∧
    opened.lastSeq = journal.lastSeq ∧ opened.lastSignature = journal.lastSignature
  numbered : (journal.table codec).map StoredRow.seq =
    (List.range' 1 (journal.table codec).length).map (fun n : Nat => (n : Int))
  last : journal.lastSeq = (journal.table codec).length
  granted : ∀ row ∈ journal.table codec,
    row.kind = EventKind.tierGranted.asStr ∨ row.kind = EventKind.tierDemoted.asStr →
    row.actor = Actor.permission.canonical

theorem Chained.granted_stored {journal : Journal String} (hj : journal.Chained codec mac)
    {row : StoredRow} (hrow : row ∈ journal.table codec)
    (hkind : row.kind = EventKind.tierGranted.asStr ∨ row.kind = EventKind.tierDemoted.asStr) :
    row.actor = Actor.permission.canonical := by
  obtain ⟨written, hwritten, rfl⟩ := List.mem_map.mp hrow
  apply hj.granted written hwritten
  rcases hkind with hkind | hkind
  · rw [EventKind.asStr_injective hkind]
    rfl
  · rw [EventKind.asStr_injective hkind]
    rfl

/-- **Reopening agrees with the writer**, after any history of appends and opens in
which any of the INSERTs and of the actor checks fail. -/
theorem reopen_agrees (codec : UuidCodec) (mac : List UInt8 → List UInt8) (inserts : List Bool)
    (history : List Use) :
    ((create (signingKey codec mac) inserts).uses codec mac history).Agrees codec mac := by
  have hj := (create_chained codec mac inserts).uses history
  obtain ⟨hlast, hseqs, -⟩ := verifyFrom_ok hj.verified
  constructor
  case failed =>
    intro clock req e he
    obtain ⟨hrows, hseq, hsignature⟩ := append_error he
    exact ⟨congrArg (List.map (Row.stored codec)) hrows, hseq, hsignature⟩
  case verified => exact hj.verified
  case reopened => exact ⟨_, hj.reopen, rfl, rfl⟩
  case numbered => simpa using hseqs
  case last => simpa using hlast
  case granted =>
    intro row hrow hkind
    exact hj.granted_stored hrow hkind

end Journal

end MarloweAgent.EventLog
