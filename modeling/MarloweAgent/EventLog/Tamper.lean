import Mathlib.Data.List.Forall2
import MarloweAgent.EventLog.Chain

/-! Tamper evidence. The MAC is an injective function of its input, and an editor who
does not hold the key has no MAC but those in the table. An edit then passes the walk
exactly when it is a truncation, or rewrites what the signature does not cover: an
absent session or run id as an empty one or back, and the spelling of a trace id. -/

namespace MarloweAgent.EventLog
open Contract Library

variable {codec : UuidCodec} {mac : List UInt8 → List UInt8}

/-! ## The signed form of a row -/

/-- What the columns of a row can hold: 64-bit integers, and texts whose length is a
`usize`. -/
structure StoredRow.Storable (row : StoredRow) : Prop where
  seq : row.seq < 2 ^ 63
  ts : -2 ^ 63 ≤ row.ts ∧ row.ts < 2 ^ 63
  texts : ∀ text ∈ [row.sessionId.getD "", row.runId.getD "", row.actor, row.payload,
    row.prevSignature], text.utf8ByteSize < 2 ^ 64

instance (row : StoredRow) : Decidable row.Storable :=
  decidable_of_iff (row.seq < 2 ^ 63 ∧ (-2 ^ 63 ≤ row.ts ∧ row.ts < 2 ^ 63) ∧
      ∀ text ∈ [row.sessionId.getD "", row.runId.getD "", row.actor, row.payload,
        row.prevSignature], text.utf8ByteSize < 2 ^ 64)
    ⟨fun ⟨hseq, hts, htexts⟩ => ⟨hseq, hts, htexts⟩, fun h => ⟨h.seq, h.ts, h.texts⟩⟩

/-- Two rows that differ at most in what no signature covers. -/
structure StoredRow.SameSigned (codec : UuidCodec) (a b : StoredRow) : Prop where
  seq : a.seq = b.seq
  ts : a.ts = b.ts
  trace : codec.parse a.traceId = codec.parse b.traceId
  session : a.sessionId.getD "" = b.sessionId.getD ""
  runId : a.runId.getD "" = b.runId.getD ""
  actor : a.actor = b.actor
  kind : a.kind = b.kind
  payload : a.payload = b.payload
  prevSignature : a.prevSignature = b.prevSignature
  signature : a.signature = b.signature

theorem i64Bytes_injective {a b : Int} (ha : -2 ^ 63 ≤ a ∧ a < 2 ^ 63)
    (hb : -2 ^ 63 ≤ b ∧ b < 2 ^ 63) (h : i64Bytes a = i64Bytes b) : a = b := by
  have hvalue := beBytes_injective (by omega) (by omega) h
  omega

theorem EventKind.asStr_framable (kind : EventKind) : Framable (utf8 kind.asStr) := by
  cases kind <;> decide

/-- Every field of a storable row fits behind a length prefix. -/
theorem StoredRow.Storable.framable {row : StoredRow} (h : row.Storable) (seq : Seq) (trace : Uuid)
    (kind : EventKind) :
    ∀ field ∈ [beBytes 8 seq, i64Bytes row.ts, trace.toList, utf8 (row.sessionId.getD ""),
      utf8 (row.runId.getD ""), utf8 row.actor, utf8 kind.asStr, utf8 row.payload,
      utf8 row.prevSignature], Framable field := by
  have htexts := h.texts
  simp only [List.forall_mem_cons, List.not_mem_nil, false_implies, implies_true, and_true]
    at htexts ⊢
  obtain ⟨hsession, hrun, hactor, hpayload, hprev⟩ := htexts
  refine ⟨?_, ?_, ?_, ?_, ?_, ?_, EventKind.asStr_framable kind, ?_, ?_⟩
  all_goals simp only [Framable, i64Bytes, beBytes_length, utf8_length, Vector.length_toList]
  all_goals omega

/-- **The signed encoding is injective**, up to what it does not cover: two rows with
one MAC say the same. -/
theorem StoredRow.Signed.sameSigned (hmac : Function.Injective mac) {a b : StoredRow}
    (ha : a.Signed codec mac) (hb : b.Signed codec mac) (sa : a.Storable) (sb : b.Storable)
    (h : a.signature = b.signature) : a.SameSigned codec b := by
  obtain ⟨seqA, traceA, kindA, hseqA, htraceA, hkindA, hmacA⟩ := ha
  obtain ⟨seqB, traceB, kindB, hseqB, htraceB, hkindB, hmacB⟩ := hb
  have hbytes := hmac (toHex_injective (hmacA.trans (h.trans hmacB.symm)))
  have hfields := frames_injective (sa.framable seqA traceA kindA) (sb.framable seqB traceB kindB)
    hbytes
  simp only [List.cons.injEq, and_true] at hfields
  obtain ⟨hseq, hts, htrace, hsession, hrun, hactor, hkind, hpayload, hprev⟩ := hfields
  have hlowA := sa.seq
  have hlowB := sb.seq
  obtain rfl := beBytes_injective (by omega) (by omega) hseq
  obtain rfl : traceA = traceB := Vector.toList_inj.mp htrace
  obtain rfl := EventKind.asStr_injective (utf8_injective hkind)
  constructor
  case seq => rw [hseqA, hseqB]
  case ts => exact i64Bytes_injective sa.ts sb.ts hts
  case trace => rw [htraceA, htraceB]
  case session => exact utf8_injective hsession
  case runId => exact utf8_injective hrun
  case actor => exact utf8_injective hactor
  case kind => rw [← EventKind.asStr_of_ofStr? hkindA, ← EventKind.asStr_of_ofStr? hkindB]
  case payload => exact utf8_injective hpayload
  case prevSignature => exact utf8_injective hprev
  case signature => exact h

/-! ## Edits -/

/-- No signature of the edited table is a MAC the editor did not read in the original. -/
def Unforged (mac : List UInt8 → List UInt8) (original edited : List StoredRow) : Prop :=
  ∀ row ∈ edited, (∃ bytes, signBytes mac bytes = row.signature) →
    ∃ row' ∈ original, row.signature = row'.signature

/-- The rows that were kept, each rewritten at most where no signature looks. -/
def Disguises (codec : UuidCodec) (original edited : List StoredRow) : Prop :=
  ∃ kept, kept <+: original ∧ List.Forall₂ (StoredRow.SameSigned codec) edited kept

/-- An edit is a truncation of the tail or the walk reports an error. -/
def TamperEvident (codec : UuidCodec) (mac : List UInt8 → List UInt8)
    (original edited : List StoredRow) : Prop :=
  ¬edited <+: original → ∃ e, verifyTable codec mac edited = .error e

theorem verifyRow_congr {a b : StoredRow} (h : a.SameSigned codec b) (expected : Seq)
    (prev : String) : verifyRow codec mac expected prev a = verifyRow codec mac expected prev b := by
  unfold verifyRow signedBytes
  rw [h.seq, h.ts, h.trace, h.session, h.runId, h.actor, h.kind, h.payload, h.prevSignature,
    h.signature]

theorem verifyFrom_congr {as bs : List StoredRow}
    (h : List.Forall₂ (StoredRow.SameSigned codec) as bs) (lastSeq : Seq) (prev : String) :
    verifyFrom codec mac lastSeq prev as = verifyFrom codec mac lastSeq prev bs := by
  induction h generalizing lastSeq prev with
  | nil => rfl
  | cons hrow _ ih =>
    unfold verifyFrom
    rw [verifyRow_congr hrow, hrow.signature, ih]

theorem verifyFrom_prefix {lastSeq : Seq} {prev : String} {kept rows : List StoredRow}
    {head : Seq × String} (hkept : kept <+: rows)
    (h : verifyFrom codec mac lastSeq prev rows = .ok head) :
    ∃ head', verifyFrom codec mac lastSeq prev kept = .ok head' := by
  obtain ⟨rest, rfl⟩ := hkept
  rw [verifyFrom_append] at h
  cases hk : verifyFrom codec mac lastSeq prev kept with
  | ok head' => exact ⟨head', rfl⟩
  | error e =>
    rw [hk] at h
    cases h

/-- The walk does not see through a disguise. -/
theorem Disguises.verified {original edited : List StoredRow} {head : Seq × String}
    (h : verifyTable codec mac original = .ok head) (hd : Disguises codec original edited) :
    ∃ head', verifyTable codec mac edited = .ok head' := by
  obtain ⟨kept, hkept, hsame⟩ := hd
  obtain ⟨head', hhead⟩ := verifyFrom_prefix hkept h
  exact ⟨head', (verifyFrom_congr hsame 0 genesis).trans hhead⟩

/-- Rows numbered from 1 are where their numbers say. -/
theorem seq_of_numbered {rows : List StoredRow}
    (h : rows.map StoredRow.seq = (List.range' 1 rows.length).map (fun n : Nat => (n : Int)))
    {i : Nat} (hi : i < rows.length) : (rows[i]).seq = (1 + i : Nat) := by
  have hget := congrArg (·[i]?) h
  simpa [hi] using hget

/-- In two numbered tables, rows related to rows of their own number pair up in order. -/
theorem forall₂_of_numbered {R : StoredRow → StoredRow → Prop} {xs ys : List StoredRow}
    (hx : xs.map StoredRow.seq = (List.range' 1 xs.length).map (fun n : Nat => (n : Int)))
    (hy : ys.map StoredRow.seq = (List.range' 1 ys.length).map (fun n : Nat => (n : Int)))
    (hseq : ∀ x y, R x y → x.seq = y.seq) (h : ∀ x ∈ xs, ∃ y ∈ ys, R x y) :
    List.Forall₂ R xs (ys.take xs.length) := by
  -- the row of number `i` is related to a row of `ys`, which can only be the one at `i`
  have hat : ∀ i (hi : i < xs.length), ∃ hj : i < ys.length, R xs[i] ys[i] := by
    intro i hi
    obtain ⟨y, hmem, hR⟩ := h xs[i] (List.getElem_mem hi)
    obtain ⟨j, hj, rfl⟩ := List.getElem_of_mem hmem
    have heq := hseq _ _ hR
    rw [seq_of_numbered hx hi, seq_of_numbered hy hj] at heq
    obtain rfl : i = j := by omega
    exact ⟨hj, hR⟩
  have hlength : xs.length ≤ ys.length := by
    by_contra hlt
    obtain ⟨hj, -⟩ := hat ys.length (by omega)
    omega
  refine List.forall₂_iff_get.mpr ⟨by rw [List.length_take]; omega, ?_⟩
  intro i hi hi'
  obtain ⟨hj, hR⟩ := hat i hi
  simpa using hR

/-- **What passes the walk is a disguise.** Every row that verifies carries a MAC of
the original, hence says what the original's row of that number says. -/
theorem disguises_of_verified (hmac : Function.Injective mac) {original edited : List StoredRow}
    {head head' : Seq × String} (ho : verifyTable codec mac original = .ok head)
    (he : verifyTable codec mac edited = .ok head') (so : ∀ row ∈ original, row.Storable)
    (se : ∀ row ∈ edited, row.Storable) (hu : Unforged mac original edited) :
    Disguises codec original edited := by
  obtain ⟨-, hseqs, hsigned⟩ := verifyFrom_ok ho
  obtain ⟨-, hseqs', hsigned'⟩ := verifyFrom_ok he
  refine ⟨original.take edited.length, List.take_prefix _ _, ?_⟩
  refine forall₂_of_numbered (by simpa using hseqs') (by simpa using hseqs) (fun _ _ h => h.seq) ?_
  intro row hrow
  obtain ⟨seq, trace, kind, -, -, -, hsignature⟩ := hsigned' row hrow
  obtain ⟨row', hrow', heq⟩ := hu row hrow ⟨_, hsignature⟩
  exact ⟨row', hrow', (hsigned' row hrow).sameSigned hmac (hsigned row' hrow') (se row hrow)
    (so row' hrow') heq⟩

/-- **Tamper evidence, exactly.** Over the table any history of appends and opens
leaves, an edit that forges no MAC is a truncation or reported, if and only if it is
not a mere disguise of the rows it keeps. -/
theorem tamperEvident_iff (codec : UuidCodec) (mac : List UInt8 → List UInt8)
    (hmac : Function.Injective mac) (inserts : List Bool) (history : List Journal.Use)
    (original edited : List StoredRow)
    (ho : original =
      ((Journal.create (signingKey codec mac) inserts).uses codec mac history).table codec)
    (so : ∀ row ∈ original, row.Storable) (se : ∀ row ∈ edited, row.Storable)
    (hu : Unforged mac original edited) :
    TamperEvident codec mac original edited ↔ (Disguises codec original edited → edited <+: original) := by
  have hverified := ((Journal.create_chained codec mac inserts).uses history).verified
  rw [← ho] at hverified
  constructor
  · intro h hd
    by_contra hne
    obtain ⟨e, he⟩ := h hne
    obtain ⟨head, hhead⟩ := hd.verified hverified
    rw [he] at hhead
    cases hhead
  · intro h hne
    cases he : verifyTable codec mac edited with
    | error e => exact ⟨e, rfl⟩
    | ok head => exact absurd (h (disguises_of_verified hmac hverified he so se hu)) hne

/-! ## An absent id and an empty one -/

theorem hexByte_plain {b : UInt8} {c : Char} (h : c ∈ hexByte b) : c ≠ '-' := by
  have hdigits : ∀ n : Fin 16, Nat.digitChar n ≠ '-' := by decide
  have hlt := b.toNat_lt
  simp only [hexByte, List.mem_cons, List.not_mem_nil, or_false] at h
  rcases h with rfl | rfl
  · exact hdigits ⟨b.toNat / 16, by omega⟩
  · exact hdigits ⟨b.toNat % 16, by omega⟩

/-- Put hyphens after the given numbers of characters. -/
def hyphenate : List Nat → List Char → List Char
  | [], chars => chars
  | n :: rest, chars => chars.take n ++ '-' :: hyphenate rest (chars.drop n)

theorem filter_hyphenate (groups : List Nat) {chars : List Char} (h : ∀ c ∈ chars, c ≠ '-') :
    (hyphenate groups chars).filter (· ≠ '-') = chars := by
  induction groups generalizing chars with
  | nil => exact List.filter_eq_self.mpr fun c hc => by simpa using h c hc
  | cons n rest ih =>
    have htake : (chars.take n).filter (· ≠ '-') = chars.take n :=
      List.filter_eq_self.mpr fun c hc => by simpa using h c (List.mem_of_mem_take hc)
    have hdrop := @ih (chars.drop n) fun c hc => h c (List.mem_of_mem_drop hc)
    simp only [hyphenate, List.filter_append, List.filter_cons, htake, hdrop]
    simp

/-- The hyphenated form, for the identifier of the one trace name `turn-1`. -/
def hyphenated : UuidCodec where
  ofTrace _ := #v[16, 150, 84, 98, 74, 113, 86, 153, 182, 198, 68, 72, 55, 245, 246, 93]
  text uuid := String.ofList (hyphenate [8, 4, 4, 4] (uuid.toList.flatMap hexByte))
  parse s :=
    match fromHex (s.toList.filter (· ≠ '-')) with
    | some bytes => if h : bytes.length = 16 then some ⟨bytes.toArray, by simpa using h⟩ else none
    | none => none
  parse_text uuid := by
    have hplain : ∀ c ∈ uuid.toList.flatMap hexByte, c ≠ '-' := by
      intro c hc
      obtain ⟨b, -, hb⟩ := List.mem_flatMap.mp hc
      exact hexByte_plain hb
    simp only [String.toList_ofList, filter_hyphenate _ hplain, fromHex_flatMap]
    simp [Vector.toList]

/-- An event of no session and no run. -/
def lonelyEvent : AppendRequest String :=
  { traceId := ⟨"turn-1"⟩, sessionId := none, runId := none, actor := .harness
    kind := .sessionStarted, payload := "\x7b\x7d" }

/-- The table one append leaves. -/
def oneEvent : List StoredRow :=
  ((Journal.create (signingKey hyphenated id) []).uses hyphenated id
    [.append ⟨1780000000000⟩ lonelyEvent]).table hyphenated

/-- Write the empty text where no session was. -/
def emptySession (row : StoredRow) : StoredRow := { row with sessionId := some "" }


theorem tamperEvident_emptySession :
    TamperEvident hyphenated id oneEvent (oneEvent.map emptySession) ↔
      (Disguises hyphenated oneEvent (oneEvent.map emptySession) →
        oneEvent.map emptySession <+: oneEvent) := by
  refine tamperEvident_iff hyphenated id Function.injective_id [] _ oneEvent _ rfl
    (by decide) (by decide) ?_
  intro row hrow _
  obtain ⟨row', hrow', rfl⟩ := List.mem_map.mp hrow
  exact ⟨row', hrow', rfl⟩

theorem emptySession_sameSigned (codec : UuidCodec) {row : StoredRow} (h : row.sessionId = none) :
    (emptySession row).SameSigned codec row := by
  constructor
  case session => simp [emptySession, h]
  all_goals rfl

/-- **A row can be rewritten under the chain.** The signature feeds an absent session
id as the empty text, so a row of no session, rewritten as a row of the empty one,
passes the walk. -/
theorem empty_session_passes :
    oneEvent.map emptySession ≠ oneEvent ∧
      ¬TamperEvident hyphenated id oneEvent (oneEvent.map emptySession) := by
  have hnone : ∀ row ∈ oneEvent, row.sessionId = none := by decide
  have hother : oneEvent.map emptySession ≠ oneEvent := by
    intro h
    have hsessions := congrArg (List.map StoredRow.sessionId) h
    revert hsessions
    decide
  have hcut : ¬oneEvent.map emptySession <+: oneEvent := fun h =>
    hother (h.eq_of_length (List.length_map _))
  have hdisguise : Disguises hyphenated oneEvent (oneEvent.map emptySession) :=
    ⟨_, List.prefix_refl _, List.forall₂_map_left_iff.mpr
      (List.forall₂_same.mpr fun row hrow => emptySession_sameSigned _ (hnone row hrow))⟩
  refine ⟨hother, fun h => ?_⟩
  obtain ⟨e, he⟩ := h hcut
  obtain ⟨head, hpasses⟩ := hdisguise.verified
    ((Journal.create_chained hyphenated id []).uses _).verified
  rw [he] at hpasses
  cases hpasses

end MarloweAgent.EventLog
