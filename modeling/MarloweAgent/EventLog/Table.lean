import MarloweAgent.EventLog.Journal
import MarloweAgent.Library.Framing

/-! The journal on disk: the stored row, the bytes a signature covers, and the walk
that checks every row of a table when a journal is opened over it. The MAC is the
keyed function of bytes it computes; the `uuid` crate is its three operations. -/

namespace MarloweAgent.EventLog
open Contract Library

/-! ## Columns -/

abbrev Uuid := Vector UInt8 16

/-- What the `uuid` crate does here: the identifier made for a name, its text, and
the parser, which reads back what was written. -/
structure UuidCodec where
  ofTrace : TraceId → Uuid
  text : Uuid → String
  parse : String → Option Uuid
  parse_text : ∀ uuid, parse (text uuid) = some uuid

/-- One row as SQLite holds it. -/
structure StoredRow where
  seq : Int
  ts : Int
  traceId : String
  sessionId : Option String
  runId : Option String
  actor : String
  kind : String
  payload : String
  prevSignature : String
  signature : String
  deriving DecidableEq, Repr

/-- The parameters of the INSERT. -/
def Row.stored (codec : UuidCodec) (row : Row String) : StoredRow :=
  { seq := row.seq, ts := row.ts, traceId := codec.text (codec.ofTrace row.traceId)
    sessionId := row.sessionId, runId := row.runId, actor := row.actor
    kind := row.kind.asStr, payload := row.payload
    prevSignature := row.prevSignature, signature := row.signature }

/-! ## Signatures -/

/-- The bytes of a text. -/
def utf8 (s : String) : List UInt8 := s.toByteArray.data.toList

/-- `i64::to_be_bytes`. -/
def i64Bytes (n : Int) : List UInt8 := beBytes 8 (n % 2 ^ 64).toNat

/-- What `sign` feeds to the MAC, in its order, each field behind its length. -/
def signedBytes (seq : Seq) (ts : Int) (trace : Uuid) (sessionId runId : Option String)
    (actor : String) (kind : EventKind) (payload prevSignature : String) : List UInt8 :=
  frames
    [beBytes 8 seq, i64Bytes ts, trace.toList, utf8 (sessionId.getD ""), utf8 (runId.getD ""),
      utf8 actor, utf8 kind.asStr, utf8 payload, utf8 prevSignature]

/-- A byte under `{:02x}`. -/
def hexByte (b : UInt8) : List Char :=
  [Nat.digitChar (b.toNat / 16), Nat.digitChar (b.toNat % 16)]

def toHex (bytes : List UInt8) : String := String.ofList (bytes.flatMap hexByte)

/-- The MAC of the signed bytes, in hexadecimal. -/
def signBytes (mac : List UInt8 → List UInt8) (signed : List UInt8) : String := toHex (mac signed)

/-- The profile's key: the MAC over the bytes of the signed fields. -/
def signingKey (codec : UuidCodec) (mac : List UInt8 → List UInt8) : SigningKey String :=
  ⟨fun fields =>
    signBytes mac (signedBytes fields.seq fields.ts (codec.ofTrace fields.traceId) fields.sessionId
      fields.runId fields.actorCanonical fields.kind fields.payload fields.prevSignature)⟩

/-- `signature::verify`: no byte decides the comparison before the last one is read. -/
def verify (mac : List UInt8 → List UInt8) (signed : List UInt8) (expected : String) : Bool :=
  let actual := signBytes mac signed
  if actual.utf8ByteSize ≠ expected.utf8ByteSize then false
  else
    ((utf8 actual).zip (utf8 expected)).foldl (fun acc (a, b) => acc ||| (a ^^^ b)) (0 : UInt8) == 0

/-- The bytes a run of hexadecimal digits spells. -/
def fromHex : List Char → Option (List UInt8)
  | [] => some []
  | [_] => none
  | a :: b :: rest =>
    match digitOf a, digitOf b, fromHex rest with
    | some x, some y, some bytes => some (UInt8.ofNat (x * 16 + y) :: bytes)
    | _, _, _ => none
where
  digitOf (c : Char) : Option Nat := (List.range 16).find? (Nat.digitChar · = c)

theorem fromHex_hexByte (b : UInt8) (rest : List Char) :
    fromHex (hexByte b ++ rest) = (fromHex rest).map (b :: ·) := by
  have hdigits : ∀ n : Fin 16, fromHex.digitOf (Nat.digitChar n) = some n.val := by decide
  have hhigh := hdigits ⟨b.toNat / 16, by have := b.toNat_lt; omega⟩
  have hlow := hdigits ⟨b.toNat % 16, by omega⟩
  have hbyte : UInt8.ofNat (b.toNat / 16 * 16 + b.toNat % 16) = b := by
    rw [Nat.div_add_mod']
    exact UInt8.ofNat_toNat
  simp only [hexByte, List.cons_append, List.nil_append, fromHex] at hhigh hlow ⊢
  rw [hhigh, hlow]
  cases fromHex rest with
  | none => rfl
  | some bytes => simp [hbyte]

theorem fromHex_flatMap (bytes : List UInt8) : fromHex (bytes.flatMap hexByte) = some bytes := by
  induction bytes with
  | nil => rfl
  | cons b rest ih => rw [List.flatMap_cons, fromHex_hexByte, ih, Option.map_some]

theorem toHex_injective : Function.Injective toHex := by
  intro a b h
  have hdigits := congrArg (fun s => fromHex s.toList) h
  simpa [toHex, fromHex_flatMap] using hdigits

theorem utf8_injective : Function.Injective utf8 := by
  intro s t h
  apply String.toByteArray_inj.mp
  apply ByteArray.ext
  exact Array.toList_inj.mp h

@[simp] theorem utf8_length (s : String) : (utf8 s).length = s.utf8ByteSize := by
  rw [utf8, Array.length_toList]
  rfl

/-- The difference of two byte strings of one length is zero only when they are equal. -/
theorem foldl_xor_eq_zero {as bs : List UInt8} (acc : UInt8) (h : as.length = bs.length) :
    (as.zip bs).foldl (fun acc (a, b) => acc ||| (a ^^^ b)) acc = 0 ↔ acc = 0 ∧ as = bs := by
  induction as generalizing bs acc with
  | nil =>
    cases bs with
    | nil => simp
    | cons b bs => simp at h
  | cons a as ih =>
    cases bs with
    | nil => simp at h
    | cons b bs =>
      rw [List.zip_cons_cons, List.foldl_cons, ih _ (by simpa using h)]
      simp only [UInt8.or_eq_zero_iff, UInt8.xor_eq_zero_iff, List.cons.injEq]
      exact and_assoc

@[simp] theorem verify_iff (mac : List UInt8 → List UInt8) (signed : List UInt8) (expected : String) :
    verify mac signed expected = true ↔ signBytes mac signed = expected := by
  unfold verify
  by_cases hsize : (signBytes mac signed).utf8ByteSize = expected.utf8ByteSize
  · have hlength : (utf8 (signBytes mac signed)).length = (utf8 expected).length := by
      simpa using hsize
    simp only [hsize, ne_eq, not_true_eq_false, if_false, beq_iff_eq,
      foldl_xor_eq_zero 0 hlength, true_and]
    exact utf8_injective.eq_iff
  · have hne : signBytes mac signed ≠ expected := fun h => hsize (by rw [h])
    simp [hsize, hne]

/-! ## The walk -/

/-- One row of `verify_chain`: its place, its link, its columns, its signature. -/
def verifyRow (codec : UuidCodec) (mac : List UInt8 → List UInt8) (expected : Seq) (prev : String)
    (row : StoredRow) : Except JournalError Unit :=
  if row.seq ≠ expected then .error (.sequenceGap expected row.seq)
  else if row.prevSignature ≠ prev then .error (.chainBroken expected)
  else
    match codec.parse row.traceId with
    | none => .error (.chainBroken expected)
    | some trace =>
      match EventKind.ofStr? row.kind with
      | none => .error (.chainBroken expected)
      | some kind =>
        if verify mac (signedBytes expected row.ts trace row.sessionId row.runId row.actor kind
            row.payload row.prevSignature) row.signature then .ok ()
        else .error (.chainBroken expected)

/-- The loop of `verify_chain` over the rows in seq order: the head it ends with. -/
def verifyFrom (codec : UuidCodec) (mac : List UInt8 → List UInt8) :
    Seq → String → List StoredRow → Except JournalError (Seq × String)
  | lastSeq, prev, [] => .ok (lastSeq, prev)
  | lastSeq, prev, row :: rest =>
    match verifyRow codec mac (lastSeq + 1) prev row with
    | .error e => .error e
    | .ok () => verifyFrom codec mac (lastSeq + 1) row.signature rest

def verifyTable (codec : UuidCodec) (mac : List UInt8 → List UInt8) (rows : List StoredRow) :
    Except JournalError (Seq × String) :=
  verifyFrom codec mac 0 genesis rows

namespace Journal

def table (codec : UuidCodec) (journal : Journal String) : List StoredRow :=
  journal.rows.map (Row.stored codec)

/-- `verify_chain`: the in-memory head is what the walk ends with. -/
def verifyChain (codec : UuidCodec) (mac : List UInt8 → List UInt8) (journal : Journal String) :
    Except JournalError (Journal String) :=
  match verifyTable codec mac (journal.table codec) with
  | .error e => .error e
  | .ok (lastSeq, lastSignature) => .ok { journal with lastSeq, lastSignature }

/-- `Journal::open` over the table a writer left: only the rows and the key are read. -/
def reopen (codec : UuidCodec) (mac : List UInt8 → List UInt8) (journal : Journal String) :
    Except JournalError (Journal String) :=
  verifyChain codec mac { journal with lastSeq := 0, lastSignature := genesis }

end Journal

end MarloweAgent.EventLog
