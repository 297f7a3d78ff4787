import MarloweAgent.Net.Fetch

/-! The faults whose reports quote the server, and the responses that end in one: a status
line without a code, a chunk size that is no number, a content coding nobody asked for. -/

namespace MarloweAgent.Net
open Contract Library Mcp

namespace Fault

/-- The report of this fault has a text of the server's in it. -/
def quotes : Fault → Bool
  | noStatusCode _ => true
  | badChunkSize _ => true
  | unknownCoding _ => true
  | _ => false

/-- The fault without the text it quotes. -/
def blank : Fault → Fault
  | noStatusCode _ => noStatusCode ""
  | badChunkSize _ => badChunkSize ""
  | unknownCoding _ => unknownCoding ""
  | fault => fault

@[simp] theorem quotes_blank (fault : Fault) : fault.blank.quotes = fault.quotes := by
  cases fault <;> rfl

theorem blank_of_not_quotes {fault : Fault} (h : fault.quotes = false) : fault.blank = fault := by
  cases fault with
  | noStatusCode | badChunkSize | unknownCoding => cases h
  | _ => rfl

/-- Faults that quote nothing are the same once their kinds are. -/
theorem eq_of_blank_eq {a b : Fault} (ha : a.quotes = false) (h : a.blank = b.blank) : a = b := by
  have hb : b.quotes = false := by rw [← quotes_blank, ← h, quotes_blank, ha]
  rwa [blank_of_not_quotes ha, blank_of_not_quotes hb] at h

/-- What is quoted is reported. -/
theorem error_of_quotes {fault : Fault} (host : String) (h : fault.quotes = true) :
    ∃ e, fault.error host = some e := by
  cases fault with
  | noStatusCode | badChunkSize | unknownCoding => exact ⟨_, rfl⟩
  | _ => cases h

end Fault

/-! ## Responses that are quoted -/

/-- A status line, and no status code in it. -/
def NoStatusCode (s : Stream) : Prop :=
  ∃ line rest, s.readLine = (.ok line, rest) ∧ Text.isEmpty line = false ∧ statusOf line = none

/-- Chunk by chunk, within the limit, up to a size that is no number. The end of the
stream is no number either. -/
inductive BadChunkSize : Nat → Stream → Prop
  | here {sofar : Nat} {s rest : Stream} {line : String} (hline : s.readLine = (.ok line, rest))
      (hsize : chunkSize line = none) : BadChunkSize sofar s
  | later {sofar size : Nat} {s rest rest' : Stream} {line : String} {chunk : List UInt8}
      (hline : s.readLine = (.ok line, rest)) (hsize : chunkSize line = some size) (hmore : size ≠ 0)
      (hfits : sofar + size ≤ maxBodyBytes)
      (hread : Arrival.readExact Stream.shortRead size rest = .ok (chunk, rest'))
      (hlater : BadChunkSize (sofar + size) rest'.readLine.2) : BadChunkSize sofar s

/-- What the client takes off a body, or finds nothing to take off. -/
def knownCodings : List String := ["identity", "", "gzip", "x-gzip", "deflate", "br"]

/-- A response that is refused in words of its own. -/
def Opening.Quoted : Opening → Prop
  | opened s =>
    NoStatusCode s ∨
      ∃ head rest, readHead s = .ok (head, rest) ∧
        (head.chunked = true ∧ BadChunkSize 0 rest ∨
          ∃ body encoding, readBody head rest = .ok body ∧ head.contentEncoding = some encoding ∧
            Text.trim encoding ∉ knownCodings)
  | _ => False

/-! ## The head -/

theorem readHeaders_zero (head : Head) (s : Stream) :
    readHeaders 0 head s =
      match Stream.readLine s with
      | (.error e, _) => .error (.readFailed e)
      | (.ok line, rest) =>
        if Text.isEmpty (Text.trim line) then .ok (head, rest) else .error .tooManyHeaders := by
  delta readHeaders
  rfl

theorem readHeaders_succ (left : Nat) (head : Head) (s : Stream) :
    readHeaders (left + 1) head s =
      match Stream.readLine s with
      | (.error e, _) => .error (.readFailed e)
      | (.ok line, rest) =>
        if Text.isEmpty (Text.trim line) then .ok (head, rest)
        else readHeaders left (head.withLine line) rest := by
  delta readHeaders
  rfl

theorem readHeaders_eq_error {left : Nat} {head : Head} {s : Stream} {fault : Fault}
    (h : readHeaders left head s = .error fault) :
    fault = .tooManyHeaders ∨ ∃ e, fault = .readFailed e := by
  induction left generalizing head s with
  | zero =>
    rw [readHeaders_zero] at h
    split at h
    next e _ _ =>
      cases h
      exact .inr ⟨e, rfl⟩
    next =>
      split at h
      next => cases h
      next =>
        cases h
        exact .inl rfl
  | succ left ih =>
    rw [readHeaders_succ] at h
    split at h
    next e _ _ =>
      cases h
      exact .inr ⟨e, rfl⟩
    next =>
      split at h
      next => cases h
      next => exact ih h

/-- Why a head is refused. -/
theorem readHead_eq_error {s : Stream} {fault : Fault} (h : readHead s = .error fault) :
    (NoStatusCode s ∧ ∃ line, fault = .noStatusCode line) ∨ fault = .closed ∨
      fault = .tooManyHeaders ∨ ∃ e, fault = .readFailed e := by
  unfold readHead at h
  split at h
  next e rest hline =>
    cases h
    exact .inr (.inr (.inr ⟨e, rfl⟩))
  next line rest hline =>
    split at h
    next =>
      cases h
      exact .inr (.inl rfl)
    next hne =>
      split at h
      next hstatus =>
        cases h
        exact .inl ⟨⟨line, rest, hline, by simpa using hne, hstatus⟩, line, rfl⟩
      next => exact .inr (.inr (readHeaders_eq_error h))

theorem readHead_quotes_iff {s : Stream} :
    (∃ fault, readHead s = .error fault ∧ fault.quotes = true) ↔ NoStatusCode s := by
  constructor
  · rintro ⟨fault, h, hquotes⟩
    rcases readHead_eq_error h with ⟨hcode, -⟩ | rfl | rfl | ⟨e, rfl⟩
    · exact hcode
    all_goals cases hquotes
  · rintro ⟨line, rest, hline, hne, hstatus⟩
    exact ⟨.noStatusCode line, by simp [readHead, hline, hne, hstatus], rfl⟩

/-! ## The body -/

theorem readChunkSize_eq_error {s : Stream} {fault : Fault} (h : readChunkSize s = .error fault) :
    (∃ e rest, s.readLine = (.error e, rest) ∧ fault = .readFailed e) ∨
      ∃ line rest, s.readLine = (.ok line, rest) ∧ chunkSize line = none ∧
        fault = .badChunkSize line := by
  unfold readChunkSize at h
  split at h
  next e rest hline =>
    cases h
    exact .inl ⟨e, rest, hline, rfl⟩
  next line rest hline =>
    split at h
    next hsize =>
      cases h
      exact .inr ⟨line, rest, hline, hsize, rfl⟩
    next => cases h

theorem readChunkSize_eq_ok {s rest : Stream} {size : Nat} :
    readChunkSize s = .ok (size, rest) ↔
      ∃ line, s.readLine = (.ok line, rest) ∧ chunkSize line = some size := by
  constructor
  · intro h
    unfold readChunkSize at h
    split at h
    next => cases h
    next line rest hline =>
      split at h
      next => cases h
      next size hsize =>
        cases h
        exact ⟨line, hline, hsize⟩
  · rintro ⟨line, hline, hsize⟩
    simp [readChunkSize, hline, hsize]

/-- Where a chunk is announced, the bad size comes after it. -/
theorem BadChunkSize.of_announced {sofar size : Nat} {s rest : Stream} (h : BadChunkSize sofar s)
    (hsize : readChunkSize s = .ok (size, rest)) :
    size ≠ 0 ∧ sofar + size ≤ maxBodyBytes ∧
      ∃ chunk rest', Arrival.readExact Stream.shortRead size rest = .ok (chunk, rest') ∧
        BadChunkSize (sofar + size) (Stream.readLine rest').2 := by
  obtain ⟨line, hline, hannounced⟩ := readChunkSize_eq_ok.mp hsize
  cases h with
  | here hother hnone =>
    rw [hline] at hother
    cases hother
    rw [hannounced] at hnone
    cases hnone
  | later hother hsome hmore hfits hread hlater =>
    rw [hline] at hother
    cases hother
    rw [hannounced] at hsome
    cases hsome
    exact ⟨hmore, hfits, _, _, hread, hlater⟩

/-- Reading goes on to the bad size, if there is one; what else goes wrong on the way is not in
the server's words. -/
theorem readChunked_cases (out : List UInt8) (s : Stream) :
    (BadChunkSize out.length s ∧ ∃ line, readChunked out s = .error (.badChunkSize line)) ∨
      ¬ BadChunkSize out.length s ∧ ∀ fault, readChunked out s = .error fault →
        fault = .capacityOverflow ∨ fault = .tooLarge ∨ ∃ e, fault = .readFailed e := by
  have hsmall : maxBodyBytes < 2 ^ 64 := by decide
  fun_induction readChunked out s with
  | case1 out s fault hsize =>
    rcases readChunkSize_eq_error hsize with ⟨e, rest, hfailed, rfl⟩ | ⟨line, rest, hline, hnone, rfl⟩
    · refine .inr ⟨fun hbad => ?_, fun fault h => ?_⟩
      · -- No line was read, and a bad size is a line.
        cases hbad with
        | here hline =>
          rw [hfailed] at hline
          cases hline
        | later hline =>
          rw [hfailed] at hline
          cases hline
      · cases h
        exact .inr (.inr ⟨e, rfl⟩)
    · exact .inl ⟨.here hline hnone, line, rfl⟩
  | case2 out s rest hsize =>
    exact .inr ⟨fun hbad => absurd rfl (hbad.of_announced hsize).1, fun fault h => by cases h⟩
  | case3 out s size rest hsize hmore hover =>
    refine .inr ⟨fun hbad => ?_, fun fault h => ?_⟩
    · have hfits := (hbad.of_announced hsize).2.1
      omega
    · cases h
      exact .inl rfl
  | case4 out s size rest hsize hmore _ hover =>
    refine .inr ⟨fun hbad => ?_, fun fault h => ?_⟩
    · have hfits := (hbad.of_announced hsize).2.1
      omega
    · cases h
      exact .inr (.inl rfl)
  | case5 out s size rest hsize hmore _ hfits e hread =>
    refine .inr ⟨fun hbad => ?_, fun fault h => ?_⟩
    · obtain ⟨-, -, chunk, rest', hchunk, -⟩ := hbad.of_announced hsize
      rw [hread] at hchunk
      cases hchunk
    · cases h
      exact .inr (.inr ⟨e, rfl⟩)
  | case6 out s size rest hsize hmore _ hfits chunk rest' hread ih =>
    rw [List.length_append, (Arrival.length_readExact hread).1] at ih
    refine ih.imp (fun ⟨hlater, hline⟩ => ⟨?_, hline⟩) fun ⟨hnone, hother⟩ => ⟨fun hbad => ?_, hother⟩
    · obtain ⟨line, hread', hannounced⟩ := readChunkSize_eq_ok.mp hsize
      exact .later hread' hannounced hmore (by omega) hread hlater
    · obtain ⟨-, -, chunk', left, hchunk, hlater⟩ := hbad.of_announced hsize
      rw [hread] at hchunk
      cases hchunk
      exact hnone hlater

theorem readChunked_eq_error {out : List UInt8} {s : Stream} {fault : Fault}
    (h : readChunked out s = .error fault) :
    (BadChunkSize out.length s ∧ ∃ line, fault = .badChunkSize line) ∨ fault = .capacityOverflow ∨
      fault = .tooLarge ∨ ∃ e, fault = .readFailed e := by
  rcases readChunked_cases out s with ⟨hbad, line, hline⟩ | ⟨-, hother⟩
  · rw [hline] at h
    cases h
    exact .inl ⟨hbad, line, rfl⟩
  · exact .inr (hother fault h)

theorem BadChunkSize.quoted {out : List UInt8} {s : Stream} (h : BadChunkSize out.length s) :
    ∃ fault, readChunked out s = .error fault ∧ fault.quotes = true := by
  rcases readChunked_cases out s with ⟨-, line, hline⟩ | ⟨hnone, -⟩
  · exact ⟨_, hline, rfl⟩
  · exact absurd h hnone

/-- Why a body is not read. -/
theorem readBody_eq_error {head : Head} {s : Stream} {fault : Fault}
    (h : readBody head s = .error fault) :
    ((head.chunked = true ∧ BadChunkSize 0 s) ∧ ∃ line, fault = .badChunkSize line) ∨
      fault = .capacityOverflow ∨ fault = .tooLarge ∨ ∃ e, fault = .readFailed e := by
  unfold readBody at h
  split at h
  next hchunked =>
    rcases readChunked_eq_error h with ⟨hbad, hline⟩ | hother
    · exact .inl ⟨⟨hchunked, hbad⟩, hline⟩
    · exact .inr hother
  next =>
    split at h
    next =>
      split at h
      next =>
        cases h
        exact .inr (.inr (.inl rfl))
      next =>
        split at h
        next e _ =>
          cases h
          exact .inr (.inr (.inr ⟨e, rfl⟩))
        next => cases h
    next =>
      split at h
      next e _ =>
        cases h
        exact .inr (.inr (.inr ⟨e, rfl⟩))
      next => cases h

theorem readBody_quotes_iff {head : Head} {s : Stream} :
    (∃ fault, readBody head s = .error fault ∧ fault.quotes = true) ↔
      head.chunked = true ∧ BadChunkSize 0 s := by
  constructor
  · rintro ⟨fault, h, hquotes⟩
    rcases readBody_eq_error h with ⟨hbad, -⟩ | rfl | rfl | ⟨e, rfl⟩
    · exact hbad
    all_goals cases hquotes
  · rintro ⟨hchunked, hbad⟩
    obtain ⟨fault, hfault, hquotes⟩ := @BadChunkSize.quoted [] s hbad
    exact ⟨fault, by rw [readBody, if_pos hchunked, hfault], hquotes⟩

/-! ## The coding -/

theorem mapError_quotes {α : Type} {result : Except String α} {encoding : String} {fault : Fault}
    (h : result.mapError (.decodeFailed encoding) = .error fault) :
    ∃ reason, fault = .decodeFailed encoding reason := by
  cases result with
  | ok => cases h
  | error reason =>
    cases h
    exact ⟨reason, rfl⟩

/-- Why a body is not decoded. -/
theorem decodeBody_eq_error {decoders : Decoders} {body : List UInt8} {encoding : String} {fault : Fault}
    (h : decodeBody decoders body (some encoding) = .error fault) :
    (Text.trim encoding ∈ ["gzip", "x-gzip", "deflate", "br"] ∧
        ∃ reason, fault = .decodeFailed encoding reason) ∨
      (Text.trim encoding ∉ knownCodings ∧ fault = .unknownCoding encoding) := by
  simp only [decodeBody] at h
  split at h
  next => cases h
  next => cases h
  next hword => exact .inl ⟨by simp [hword], mapError_quotes h⟩
  next hword => exact .inl ⟨by simp [hword], mapError_quotes h⟩
  next hword =>
    split at h
    next => cases h
    next => exact .inl ⟨by simp [hword], mapError_quotes h⟩
  next hword => exact .inl ⟨by simp [hword], mapError_quotes h⟩
  next h1 h2 h3 h4 h5 h6 =>
    cases h
    refine .inr ⟨?_, rfl⟩
    simp only [knownCodings, List.mem_cons, List.not_mem_nil, or_false, not_or]
    exact ⟨h1, h2, h3, h4, h5, h6⟩

theorem decodeBody_unknown {decoders : Decoders} {body : List UInt8} {encoding : String}
    (h : Text.trim encoding ∉ knownCodings) :
    decodeBody decoders body (some encoding) = .error (.unknownCoding encoding) := by
  simp only [knownCodings, List.mem_cons, List.not_mem_nil, or_false, not_or] at h
  obtain ⟨h1, h2, h3, h4, h5, h6⟩ := h
  simp only [decodeBody]

theorem decodeBody_quotes_iff {decoders : Decoders} {body : List UInt8} {encoding : Option String} :
    (∃ fault, decodeBody decoders body encoding = .error fault ∧ fault.quotes = true) ↔
      ∃ word, encoding = some word ∧ Text.trim word ∉ knownCodings := by
  constructor
  · rintro ⟨fault, h, hquotes⟩
    cases encoding with
    | none => cases h
    | some word =>
      rcases decodeBody_eq_error h with ⟨-, reason, rfl⟩ | ⟨hunknown, -⟩
      · cases hquotes
      · exact ⟨word, rfl, hunknown⟩
  · rintro ⟨word, rfl, hunknown⟩
    exact ⟨.unknownCoding word, decodeBody_unknown hunknown, rfl⟩

/-! ## One request, and the second -/

theorem bind_eq_error {ε α β : Type} {x : Except ε α} {f : α → Except ε β} {e : ε} :
    x.bind f = .error e ↔ x = .error e ∨ ∃ a, x = .ok a ∧ f a = .error e := by
  cases x with
  | error other => simp only [Except.bind, Except.error.injEq, reduceCtorEq, false_and, exists_false, or_false]
  | ok a => simp only [Except.bind, Except.ok.injEq, reduceCtorEq, exists_eq_left', false_or]

/-- Where a request on an open connection can fail. -/
theorem tryFetch_eq_error {decoders : Decoders} {s : Stream} {fault : Fault} :
    tryFetch decoders (.opened s) = .error fault ↔
      readHead s = .error fault ∨
        ∃ head rest, readHead s = .ok (head, rest) ∧
          (readBody head rest = .error fault ∨
            ∃ body, readBody head rest = .ok body ∧
              decodeBody decoders body head.contentEncoding = .error fault) := by
  change (readHead s).bind _ = _ ↔ _
  rw [bind_eq_error]
  refine or_congr_right ⟨?_, ?_⟩
  · rintro ⟨⟨head, rest⟩, hhead, h⟩
    rcases bind_eq_error.mp h with hbody | ⟨body, hbody, h⟩
    · exact ⟨head, rest, hhead, .inl hbody⟩
    rcases bind_eq_error.mp h with hcoding | ⟨bytes, -, h⟩
    · exact ⟨head, rest, hhead, .inr ⟨body, hbody, hcoding⟩⟩
    · cases h
  · rintro ⟨head, rest, hhead, hbody | ⟨body, hbody, hcoding⟩⟩
    · exact ⟨(head, rest), hhead, bind_eq_error.mpr (.inl hbody)⟩
    · exact
        ⟨(head, rest), hhead,
          bind_eq_error.mpr (.inr ⟨body, hbody, bind_eq_error.mpr (.inl hcoding)⟩)⟩

theorem tryFetch_quotes_iff {decoders : Decoders} {opening : Opening} :
    (∃ fault, tryFetch decoders opening = .error fault ∧ fault.quotes = true) ↔ opening.Quoted := by
  cases opening with
  | unreachable detail | tls detail =>
    simp only [tryFetch, Opening.Quoted, iff_false]
    rintro ⟨fault, h, hquotes⟩
    cases h
    cases hquotes
  | opened s =>
    constructor
    · rintro ⟨fault, h, hquotes⟩
      rcases tryFetch_eq_error.mp h with hhead | ⟨head, rest, hhead, hbody | ⟨body, hbody, hcoding⟩⟩
      · exact .inl (readHead_quotes_iff.mp ⟨fault, hhead, hquotes⟩)
      · exact .inr ⟨head, rest, hhead, .inl (readBody_quotes_iff.mp ⟨fault, hbody, hquotes⟩)⟩
      · obtain ⟨word, hword, hunknown⟩ := decodeBody_quotes_iff.mp ⟨fault, hcoding, hquotes⟩
        exact .inr ⟨head, rest, hhead, .inr ⟨body, word, hbody, hword, hunknown⟩⟩
    · rintro (hcode | ⟨head, rest, hhead, hchunks | ⟨body, word, hbody, hword, hunknown⟩⟩)
      · obtain ⟨fault, hfault, hquotes⟩ := readHead_quotes_iff.mpr hcode
        exact ⟨fault, tryFetch_eq_error.mpr (.inl hfault), hquotes⟩
      · obtain ⟨fault, hfault, hquotes⟩ := readBody_quotes_iff.mpr hchunks
        exact ⟨fault, tryFetch_eq_error.mpr (.inr ⟨head, rest, hhead, .inl hfault⟩), hquotes⟩
      · obtain ⟨fault, hfault, hquotes⟩ :=
          (@decodeBody_quotes_iff decoders body head.contentEncoding).mpr ⟨word, hword, hunknown⟩
        exact ⟨fault, tryFetch_eq_error.mpr (.inr ⟨head, rest, hhead, .inr ⟨body, hbody, hfault⟩⟩), hquotes⟩

/-- The connection that settles a fetch: the first, or the fresh one after a fault of the first. -/
def Server.settling (decoders : Decoders) (host : String) (server : Server) : Opening :=
  match tryFetch decoders server.first with
  | .error fault => if (fault.error host).any isConnectionFault then server.fresh else server.first
  | .ok _ => server.first

theorem fetch_eq (decoders : Decoders) (host : String) (server : Server) :
    fetch decoders host server = tryFetch decoders (server.settling decoders host) := by
  cases hfirst : tryFetch decoders server.first with
  | ok fetched => simp only [fetch, Server.settling, hfirst]
  | error fault =>
    simp only [fetch, Server.settling, hfirst]
    split
    · rfl
    · exact hfirst.symm

/-- A fetch ends in a fault that quotes the server exactly where the response that settles
it is of that kind. -/
theorem fetch_quotes_iff {decoders : Decoders} {host : String} {server : Server} :
    (∃ fault, fetch decoders host server = .error fault ∧ fault.quotes = true) ↔
      (server.settling decoders host).Quoted := by
  rw [fetch_eq, tryFetch_quotes_iff]

/-! ## Two servers that a report tells apart -/

/-- A server that answers on the fresh connection alone, with this text. -/
def Server.answering (text : String) : Server := ⟨.unreachable "", .opened (.ofText text)⟩

theorem fetch_answering (decoders : Decoders) (host text : String) :
    fetch decoders host (.answering text) = tryFetch decoders (.opened (.ofText text)) := rfl

section Reports

variable (decoders : Decoders) (host : String)

/-- How the heads and the one body of these answers are read, two of every kind. -/
theorem answers_read :
    (readHead (.ofText "A\n") = .error (.noStatusCode "A\n") ∧
      readHead (.ofText "B\n") = .error (.noStatusCode "B\n")) ∧
    (readHead (.ofText "HTTP/1.1 200 OK\r\nTransfer-Encoding: chunked\r\n\r\nX\n") =
        .ok ({ Head.start 200 with chunked := true }, .ofText "X\n") ∧
      readHead (.ofText "HTTP/1.1 200 OK\r\nTransfer-Encoding: chunked\r\n\r\nY\n") =
        .ok ({ Head.start 200 with chunked := true }, .ofText "Y\n")) ∧
    (readBody { Head.start 200 with chunked := true } (.ofText "X\n") = .error (.badChunkSize "X\n") ∧
      readBody { Head.start 200 with chunked := true } (.ofText "Y\n") =
        .error (.badChunkSize "Y\n")) ∧
    (readHead (.ofText "HTTP/1.1 200 OK\r\nContent-Encoding: x\r\n\r\n") =
        .ok ({ Head.start 200 with contentEncoding := some "x" }, .ofText "") ∧
      readHead (.ofText "HTTP/1.1 200 OK\r\nContent-Encoding: y\r\n\r\n") =
        .ok ({ Head.start 200 with contentEncoding := some "y" }, .ofText "")) ∧
    Stream.ofText "" = [] := by
  refine ⟨⟨?_, ?_⟩, ⟨?_, ?_⟩, ⟨?_, ?_⟩, ⟨?_, ?_⟩, ?_⟩ <;> decide +kernel

theorem fetch_noStatusCode :
    fetch decoders host (.answering "A\n") = .error (.noStatusCode "A\n") ∧
      fetch decoders host (.answering "B\n") = .error (.noStatusCode "B\n") := by
  obtain ⟨⟨hfirst, hsecond⟩, -⟩ := answers_read
  rw [fetch_answering, fetch_answering]
  exact ⟨tryFetch_eq_error.mpr (.inl hfirst), tryFetch_eq_error.mpr (.inl hsecond)⟩

theorem fetch_badChunkSize :
    fetch decoders host
          (.answering "HTTP/1.1 200 OK\r\nTransfer-Encoding: chunked\r\n\r\nX\n") =
        .error (.badChunkSize "X\n") ∧
      fetch decoders host
          (.answering "HTTP/1.1 200 OK\r\nTransfer-Encoding: chunked\r\n\r\nY\n") =
        .error (.badChunkSize "Y\n") := by
  obtain ⟨-, ⟨hfirst, hsecond⟩, ⟨hbody, hbody'⟩, -⟩ := answers_read
  rw [fetch_answering, fetch_answering]
  exact ⟨tryFetch_eq_error.mpr (.inr ⟨_, _, hfirst, .inl hbody⟩),
    tryFetch_eq_error.mpr (.inr ⟨_, _, hsecond, .inl hbody'⟩)⟩

theorem fetch_unknownCoding :
    fetch decoders host (.answering "HTTP/1.1 200 OK\r\nContent-Encoding: x\r\n\r\n") =
        .error (.unknownCoding "x") ∧
      fetch decoders host (.answering "HTTP/1.1 200 OK\r\nContent-Encoding: y\r\n\r\n") =
        .error (.unknownCoding "y") := by
  obtain ⟨-, -, -, ⟨hfirst, hsecond⟩, hend⟩ := answers_read
  rw [fetch_answering, fetch_answering]
  have hempty : ∀ word, readBody { Head.start 200 with contentEncoding := some word } (.ofText "") =
      .ok [] := by
    intro word
    rw [hend]
    rfl
  exact
    ⟨tryFetch_eq_error.mpr
        (.inr ⟨_, _, hfirst, .inr ⟨_, hempty "x", decodeBody_unknown (by decide)⟩⟩),
      tryFetch_eq_error.mpr
        (.inr ⟨_, _, hsecond, .inr ⟨_, hempty "y", decodeBody_unknown (by decide)⟩⟩)⟩

variable {host}

theorem detail_of_malformed {a b : String}
    (h : (FetchError.malformed host a).render = (FetchError.malformed host b).render) : a = b :=
  (String.append_right_inj ("malformed response from " ++ host ++ ": ")).mp h

theorem encoding_of_decode {word word' a b : String}
    (h : (FetchError.decode host word a).render = (FetchError.decode host word' b).render) :
    word ++ ("-encoded content that would not decode: " ++ a) =
      word' ++ ("-encoded content that would not decode: " ++ b) := by
  have hsame : host ++ " sent " ++ word ++ "-encoded content that would not decode: " ++ a =
      host ++ " sent " ++ word' ++ "-encoded content that would not decode: " ++ b := h
  simpa only [String.append_assoc, String.append_right_inj] using hsame

variable (host)

/-- Of every fault that quotes, there are two with reports that differ. -/
theorem two_reports {fault : Fault} (h : fault.quotes = true) :
    ∃ server₁ server₂ fault₁ fault₂ error₁ error₂,
      fetch decoders host server₁ = .error fault₁ ∧ fault₁.error host = some error₁ ∧
      fetch decoders host server₂ = .error fault₂ ∧ fault₂.error host = some error₂ ∧
      fault₁.blank = fault.blank ∧ fault₂.blank = fault.blank ∧ error₁.render ≠ error₂.render := by
  cases fault with
  | noStatusCode line =>
    obtain ⟨h₁, h₂⟩ := fetch_noStatusCode decoders host
    refine ⟨_, _, _, _, _, _, h₁, rfl, h₂, rfl, rfl, rfl, fun hsame => ?_⟩
    exact absurd (detail_of_malformed hsame) (by decide)
  | badChunkSize line =>
    obtain ⟨h₁, h₂⟩ := fetch_badChunkSize decoders host
    refine ⟨_, _, _, _, _, _, h₁, rfl, h₂, rfl, rfl, rfl, fun hsame => ?_⟩
    exact absurd (detail_of_malformed hsame) (by decide)
  | unknownCoding encoding =>
    obtain ⟨h₁, h₂⟩ := fetch_unknownCoding decoders host
    refine ⟨_, _, _, _, _, _, h₁, rfl, h₂, rfl, rfl, rfl, fun hsame => ?_⟩
    exact absurd (encoding_of_decode hsame) (by decide)
  | _ => cases h

end Reports

/-! ## What a decoding error names -/

/-- A coding that a head names has no blanks around it. -/
def Head.Trimmed (head : Head) : Prop := ∀ word, head.contentEncoding = some word → Text.trim word = word

theorem Head.Trimmed.withField {head : Head} (h : head.Trimmed) (name : String) {value : String}
    (hvalue : Text.trim value = value) : (head.withField name value).Trimmed := by
  unfold Head.withField
  split
  next => exact h
  next => exact h
  next =>
    intro word hword
    rw [← Option.some.inj hword, Text.trim_toAsciiLowercase, hvalue]
  next => split <;> exact h
  next => exact h
  next => exact h

theorem Head.Trimmed.withLine {head : Head} (h : head.Trimmed) (line : String) :
    (head.withLine line).Trimmed := by
  unfold Head.withLine
  split
  next => exact h.withField _ (Text.trim_trim _)
  next => exact h

theorem Head.Trimmed.readHeaders {left : Nat} {head head' : Head} {s rest : Stream}
    (h : head.Trimmed) (hread : readHeaders left head s = .ok (head', rest)) : head'.Trimmed := by
  induction left generalizing head s with
  | zero =>
    rw [readHeaders_zero] at hread
    split at hread
    next => cases hread
    next =>
      split at hread
      next =>
        cases hread
        exact h
      next => cases hread
  | succ left ih =>
    rw [readHeaders_succ] at hread
    split at hread
    next => cases hread
    next line _ _ =>
      split at hread
      next =>
        cases hread
        exact h
      next => exact ih (h.withLine line) hread

theorem readHead_trimmed {s rest : Stream} {head : Head} (h : readHead s = .ok (head, rest)) :
    head.Trimmed := by
  unfold readHead at h
  split at h
  next => cases h
  next =>
    split at h
    next => cases h
    next =>
      split at h
      next => cases h
      next status _ =>
        have hstart : (Head.start status).Trimmed := by
          intro word hword
          cases hword
        exact hstart.readHeaders h

/-- A body that does not decode is reported under one of the names the client knows. -/
theorem fetch_decodeFailed {decoders : Decoders} {host : String} {server : Server}
    {encoding reason : String} (h : fetch decoders host server = .error (.decodeFailed encoding reason)) :
    encoding ∈ ["gzip", "x-gzip", "deflate", "br"] := by
  rw [fetch_eq] at h
  cases hopening : server.settling decoders host with
  | unreachable detail | tls detail =>
    rw [hopening] at h
    cases h
  | opened s =>
    rw [hopening] at h
    rcases tryFetch_eq_error.mp h with hhead | ⟨head, rest, hhead, hbody | ⟨body, hbody, hcoding⟩⟩
    · rcases readHead_eq_error hhead with ⟨-, line, heq⟩ | heq | heq | ⟨e, heq⟩
      all_goals cases heq
    · rcases readBody_eq_error hbody with ⟨-, line, heq⟩ | heq | heq | ⟨e, heq⟩
      all_goals cases heq
    · cases hword : head.contentEncoding with
      | none =>
        rw [hword] at hcoding
        cases hcoding
      | some word =>
        rw [hword] at hcoding
        rcases decodeBody_eq_error hcoding with ⟨hknown, reason', heq⟩ | ⟨-, heq⟩
        · cases heq
          rwa [readHead_trimmed hhead encoding hword] at hknown
        · cases heq

end MarloweAgent.Net
