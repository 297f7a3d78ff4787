import MarloweAgent.Library.Reader
import MarloweAgent.Mcp.Client
import MarloweAgent.Net.Target

/-! One fetch: the head and the body of a response are read off a connection, and the
body's coding is removed. A fault of the response is reported with the text that caused
it. The decompressors are parameters. -/

namespace MarloweAgent.Net
open Contract Library Mcp

/-- What a server sends on one connection, with the reads that fail. -/
abbrev Stream := List (Arrival UInt8 IoError)

namespace Stream

/-- `read_line`: up to and with the newline. A read that fails says so before the text
is looked at. -/
def readLine (s : Stream) : Except IoError String × Stream :=
  match Arrival.readThrough (· = 10) s with
  | (.error e, rest) => (.error e, rest)
  | (.ok bytes, rest) =>
    match lineText bytes with
    | some line => (.ok line, rest)
    | none => (.error notUtf8, rest)

def shortRead : IoError := ⟨"failed to fill whole buffer"⟩

/-- The stream of a text that arrives whole. -/
def ofText (text : String) : Stream := text.toUTF8.toList.map .item

@[simp] theorem readLine_nil : readLine [] = (.ok "", []) := by decide

theorem length_readLine_le (s : Stream) : (readLine s).2.length ≤ s.length := by
  have hread := Arrival.length_readThrough_le (· = 10) s
  unfold readLine
  split
  next hline => rwa [hline] at hread
  next hline =>
    rw [hline] at hread
    split <;> exact hread

theorem length_readLine_lt {s : Stream} (h : s ≠ []) : (readLine s).2.length < s.length := by
  have hread := Arrival.length_readThrough_lt (· = 10) h
  unfold readLine
  split
  next hline => rwa [hline] at hread
  next hline =>
    rw [hline] at hread
    split <;> exact hread

end Stream

/-! ## Numbers -/

/-- `char::to_digit`, of sixteen digits at most. -/
def toDigit (radix : Nat) (c : Char) : Option Nat :=
  let n :=
    if c.isDigit then c.toNat - '0'.toNat
    else if 'a' ≤ c ∧ c ≤ 'f' then c.toNat - 'a'.toNat + 10
    else if 'A' ≤ c ∧ c ≤ 'F' then c.toNat - 'A'.toNat + 10
    else radix
  if n < radix then some n else none

/-- `usize::from_str_radix`: digits, after an optional plus sign. -/
def parseUsize (radix : Nat) (s : String) : Option Nat :=
  let digits := (Text.stripPrefix s.toList ['+']).getD s.toList
  match digits.foldlM (fun n c => (toDigit radix c).map (n * radix + ·)) 0 with
  | some n => if digits ≠ [] ∧ n < 2 ^ 64 then some n else none
  | none => none

/-! ## Faults -/

/-- Why a fetch ended, with the text that the report of it quotes. -/
inductive Fault
  | unreachable (detail : String)
  | tls (detail : String)
  | readFailed (e : IoError)
  | closed
  | noStatusCode (line : String)
  | tooManyHeaders
  | badChunkSize (line : String)
  | tooLarge
  | decodeFailed (encoding reason : String)
  | unknownCoding (encoding : String)
  | capacityOverflow
  deriving DecidableEq, Repr

def maxBodyBytes : Nat := 4 * 1024 * 1024

def maxDecompressedBytes : Nat := 32 * 1024 * 1024

/-- The error a fault is reported as. A buffer that cannot be allocated is a panic. -/
def Fault.error (host : String) : Fault → Option FetchError
  | unreachable detail => some (.unreachable host detail)
  | tls detail => some (.tls host detail)
  | readFailed e => some (.malformed host e.text)
  | closed => some (.malformed host "the connection closed before a status line")
  | noStatusCode line => some (.malformed host ("no status code in " ++ Text.debugString line))
  | tooManyHeaders => some (.malformed host "more than 200 header lines")
  | badChunkSize line => some (.malformed host ("bad chunk size " ++ Text.debugString line))
  | tooLarge => some (.tooLarge host maxBodyBytes)
  | decodeFailed encoding reason => some (.decode host encoding reason)
  | unknownCoding encoding =>
    some (.decode host encoding (Text.trim encoding ++ " was not requested and cannot be decoded"))
  | capacityOverflow => none

/-- The kind of fault a fresh connection might fix. -/
def isConnectionFault : FetchError → Bool
  | .unreachable _ _ => true
  | .malformed _ _ => true
  | _ => false

/-! ## The head of a response -/

structure Head where
  status : UInt16
  contentType : Option String
  location : Option String
  contentEncoding : Option String
  contentLength : Option Nat
  chunked : Bool
  deriving DecidableEq, Repr

/-- The second word of a status line, where it is a number. -/
def statusOf (line : String) : Option UInt16 :=
  (Text.splitWhitespace line)[1]?.bind fun word => parseU16 word.toList

namespace Head

def start (status : UInt16) : Head :=
  { status, contentType := none, location := none, contentEncoding := none, contentLength := none
    chunked := false }

/-- One header, by its name in lower case. -/
def withField (head : Head) (name value : String) : Head :=
  match name with
  | "content-type" => { head with contentType := some value }
  | "location" => { head with location := some value }
  | "content-encoding" => { head with contentEncoding := some (Text.toAsciiLowercase value) }
  | "transfer-encoding" =>
    if Text.toAsciiLowercase value = "chunked" then { head with chunked := true } else head
  | "content-length" => { head with contentLength := parseUsize 10 value }
  | _ => head

/-- One header line. A line without a colon says nothing. -/
def withLine (head : Head) (line : String) : Head :=
  if ':' ∈ line.toList then
    let name := String.ofList (line.toList.takeWhile (· ≠ ':'))
    let value := String.ofList ((line.toList.dropWhile (· ≠ ':')).drop 1)
    head.withField (Text.toAsciiLowercase (Text.trim name)) (Text.trim value)
  else head

end Head

/-- The header lines up to a blank one, with so many still allowed. -/
def readHeaders : Nat → Head → Stream → Except Fault (Head × Stream)
  | left, head, s =>
    match Stream.readLine s with
    | (.error e, _) => .error (.readFailed e)
    | (.ok line, rest) =>
      if Text.isEmpty (Text.trim line) then .ok (head, rest)
      else
        match left with
        | 0 => .error .tooManyHeaders
        | left + 1 => readHeaders left (head.withLine line) rest

def readHead (s : Stream) : Except Fault (Head × Stream) :=
  match Stream.readLine s with
  | (.error e, _) => .error (.readFailed e)
  | (.ok line, rest) =>
    if Text.isEmpty line then .error .closed
    else
      match statusOf line with
      | none => .error (.noStatusCode line)
      | some status => readHeaders 200 (.start status) rest

/-! ## The body of a response -/

/-- The size a chunk is announced with, up to a semicolon. -/
def chunkSize (line : String) : Option Nat :=
  parseUsize 16 (Text.trim (String.ofList ((Text.trim line).toList.takeWhile (· ≠ ';'))))

/-- One chunk's announcement. -/
def readChunkSize (s : Stream) : Except Fault (Nat × Stream) :=
  match Stream.readLine s with
  | (.error e, _) => .error (.readFailed e)
  | (.ok line, rest) =>
    match chunkSize line with
    | none => .error (.badChunkSize line)
    | some size => .ok (size, rest)

theorem readChunkSize_nil : readChunkSize [] = .error (.badChunkSize "") := by decide

/-- A chunk takes at least its size line off the stream. -/
theorem length_afterChunk {s rest rest' : Stream} {size : Nat} {chunk : List UInt8}
    (hsize : readChunkSize s = .ok (size, rest))
    (hread : Arrival.readExact Stream.shortRead size rest = .ok (chunk, rest')) :
    (Stream.readLine rest').2.length < s.length := by
  have hs : s ≠ [] := by
    rintro rfl
    rw [readChunkSize_nil] at hsize
    cases hsize
  have hrest : rest.length < s.length := by
    have hshorter := Stream.length_readLine_lt hs
    unfold readChunkSize at hsize
    split at hsize
    next => cases hsize
    next hline =>
      rw [hline] at hshorter
      split at hsize
      next => cases hsize
      next =>
        cases hsize
        exact hshorter
  have hchunk := (Arrival.length_readExact hread).2
  have hend := Stream.length_readLine_le rest'
  omega

/-- `read_chunked`. The trailer has no part in the result. -/
def readChunked (out : List UInt8) (s : Stream) : Except Fault (List UInt8) :=
  match _hsize : readChunkSize s with
  | .error fault => .error fault
  | .ok (size, rest) =>
    if size = 0 then .ok out
    -- The sum overflows, or wraps round to a buffer that cannot be allocated.
    else if 2 ^ 64 ≤ out.length + size then .error .capacityOverflow
    else if maxBodyBytes < out.length + size then .error .tooLarge
    else
      match _hread : Arrival.readExact Stream.shortRead size rest with
      | .error e => .error (.readFailed e)
      | .ok (chunk, rest) => readChunked (out ++ chunk) (Stream.readLine rest).2
termination_by s.length
decreasing_by exact length_afterChunk _hsize _hread

def readBody (head : Head) (s : Stream) : Except Fault (List UInt8) :=
  if head.chunked then readChunked [] s
  else
    match head.contentLength with
    | some length =>
      if maxBodyBytes < length then .error .tooLarge
      else
        match Arrival.readExact Stream.shortRead length s with
        | .error e => .error (.readFailed e)
        | .ok (body, _) => .ok body
    | none =>
      match Arrival.readToEnd maxBodyBytes s with
      | .error e => .error (.readFailed e)
      | .ok body => .ok body

/-! ## Content codings -/

/-- A decompressor: what it makes of a body, and how it fails after that, if it does. -/
abbrev Decoder := List UInt8 → List UInt8 × Option String

structure Decoders where
  gzip : Decoder
  zlib : Decoder
  deflate : Decoder
  brotli : Decoder

/-- `take(MAX_DECOMPRESSED_BYTES).read_to_end`: past the limit nothing is read, so nothing fails. -/
def Decoder.readToEnd (decoder : Decoder) (body : List UInt8) : Except String (List UInt8) :=
  let (out, failure) := decoder body
  if maxDecompressedBytes ≤ out.length then .ok (out.take maxDecompressedBytes)
  else
    match failure with
    | some reason => .error reason
    | none => .ok out

def decodeBody (decoders : Decoders) (body : List UInt8) (encoding : Option String) :
    Except Fault (List UInt8) :=
  match encoding with
  | none => .ok body
  | some encoding =>
    match Text.trim encoding with
    | "identity" | "" => .ok body
    | "gzip" | "x-gzip" => (decoders.gzip.readToEnd body).mapError (.decodeFailed encoding)
    | "deflate" =>
      match decoders.zlib.readToEnd body with
      | .ok out => .ok out
      | .error _ => (decoders.deflate.readToEnd body).mapError (.decodeFailed encoding)
    | "br" => (decoders.brotli.readToEnd body).mapError (.decodeFailed encoding)
    | _ => .error (.unknownCoding encoding)

/-! ## One request -/

structure Fetched where
  status : UInt16
  contentType : Option String
  bytes : List UInt8
  redirectTo : Option String
  wireBytes : Nat
  deriving DecidableEq, Repr

/-- What comes of opening a connection and writing the request to it. -/
inductive Opening
  | unreachable (detail : String)
  | tls (detail : String)
  | opened (s : Stream)

/-- What a fetch meets: the connection it tries first, kept from an earlier request or
new, and the fresh one it tries next. -/
structure Server where
  first : Opening
  fresh : Opening

def isRedirect (status : UInt16) : Bool := status ∈ [301, 302, 303, 307, 308]

def tryFetch (decoders : Decoders) : Opening → Except Fault Fetched
  | .unreachable detail => .error (.unreachable detail)
  | .tls detail => .error (.tls detail)
  | .opened s => do
    let (head, rest) ← readHead s
    let body ← readBody head rest
    let bytes ← decodeBody decoders body head.contentEncoding
    .ok
      { status := head.status
        contentType := head.contentType
        bytes
        redirectTo := if isRedirect head.status then head.location else none
        wireBytes := body.length }

/-- `fetch`: a fault of the connection is worth a fresh one. -/
def fetch (decoders : Decoders) (host : String) (server : Server) : Except Fault Fetched :=
  match tryFetch decoders server.first with
  | .error fault =>
    if (fault.error host).any isConnectionFault then tryFetch decoders server.fresh else .error fault
  | .ok fetched => .ok fetched

end MarloweAgent.Net
