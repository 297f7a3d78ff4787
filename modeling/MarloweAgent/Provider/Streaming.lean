import MarloweAgent.Net.Streaming

/-! The chunked bodies of a local provider, collected and read as they arrive. -/

namespace MarloweAgent.Provider
open Contract Library Mcp Net

/-- Why a chunked body is not collected. A buffer that cannot be allocated is a panic. -/
inductive ChunkFault
  | unreachable (detail : String)
  | malformed (detail : String)
  | capacityOverflow
  deriving DecidableEq, Repr

/-- A size line of `request`. -/
def readSize (s : Stream) : Except ChunkFault (Nat × Stream) :=
  match s.readLine with
  | (.error e, _) => .error (.unreachable e.text)
  | (.ok line, rest) =>
    match sizeOn line with
    | .error e =>
      .error (.malformed ("bad chunk size " ++ Text.debugString line ++ ": " ++ e.text))
    | .ok size => .ok (size, rest)

theorem readSize_eq_ok {s rest : Stream} {size : Nat} :
    readSize s = .ok (size, rest) ↔ readChunkSize s = .ok (size, rest) := by
  rw [readChunkSize_eq_ok]
  unfold readSize
  split
  next hline => simp [hline]
  next line rest' hline =>
    rw [hline]
    split
    next e hsize =>
      refine iff_of_false (fun h => by cases h) ?_
      rintro ⟨_, heq, hsome⟩
      cases heq
      cases (sizeOn_eq_ok.mpr hsome).symm.trans hsize
    next found hsize =>
      constructor
      · intro h
        cases h
        exact ⟨line, rfl, sizeOn_eq_ok.mp hsize⟩
      · rintro ⟨_, heq, hsome⟩
        cases heq
        cases (sizeOn_eq_ok.mpr hsome).symm.trans hsize
        rfl

theorem readSize_eq_error {s : Stream} {fault : ChunkFault} (h : readSize s = .error fault) :
    ∃ other, readChunkSize s = .error other := by
  cases hsize : readChunkSize s with
  | error other => exact ⟨other, rfl⟩
  | ok parts =>
    rw [readSize_eq_ok.mpr hsize] at h
    cases h

/-- The chunks of `request`: a size line, so many bytes, and two more. -/
def collectChunks (body : List UInt8) (s : Stream) : Except ChunkFault (List UInt8) :=
  match _hsize : readSize s with
  | .error fault => .error fault
  | .ok (size, rest) =>
    if size = 0 then .ok body
    else if maxCapacity < size then .error .capacityOverflow
    else
      match _hread : Arrival.readExact Stream.shortRead size rest with
      | .error e => .error (.unreachable e.text)
      | .ok (chunk, rest) =>
        match _hbreak : Arrival.readExact Stream.shortRead 2 rest with
        | .error e => .error (.unreachable e.text)
        | .ok (_, rest) => collectChunks (body ++ chunk) rest
termination_by s.length
decreasing_by
  obtain ⟨line, hline, -⟩ := readChunkSize_eq_ok.mp (readSize_eq_ok.mp _hsize)
  have hfirst := Stream.length_readLine_le s
  have hchunk := (Arrival.length_readExact _hread).2
  have hbreak := (Arrival.length_readExact _hbreak).2
  simp only [hline] at hfirst
  omega

/-- `ChunkedBody`: there is a size line wherever one is read. -/
def ChunkedBody.nextSize : NextSize := fun inner =>
  match sizeLine inner with
  | (.error e, rest) => (.error e, rest)
  | (.ok line, rest) => (sizeOn line, rest)

/-- `ChunkedBody::read`. -/
def ChunkedBody.read : Call → ChunkState → Except IoError (List UInt8) × ChunkState :=
  ChunkState.readWith ChunkedBody.nextSize

theorem ChunkedBody.follows : Follows ChunkedBody.nextSize fun _ => True where
  size := fun hline hsize => by
    obtain ⟨line, hread, hannounced⟩ := readChunkSize_eq_ok.mp hsize
    simp [ChunkedBody.nextSize, hline, hread, sizeOn_eq_ok.mpr hannounced]
  refused := fun hline hsize _ => by
    rcases readChunkSize_eq_error hsize with ⟨e, rest, hread, -⟩ | ⟨line, rest, hread, hnone, -⟩
    · exact ⟨e, rest, by simp [ChunkedBody.nextSize, hline, hread]⟩
    · obtain ⟨e, he⟩ := sizeOn_eq_error hnone
      exact ⟨e, rest, by simp [ChunkedBody.nextSize, hline, hread, he]⟩

/-- A fault of what has arrived, and not the end of the stream within a chunk. -/
def ChunkFault.ofContent (fault : ChunkFault) : Prop :=
  (∃ detail, fault = .malformed detail) ∨
    ∃ detail, detail ≠ Stream.shortRead.text ∧ fault = .unreachable detail

/-- Behind a chunk, `request` takes its line break. -/
theorem readExact_break (next : Stream) :
    Arrival.readExact Stream.shortRead 2 (.item 13 :: .item 10 :: next) = .ok ([13, 10], next) := by
  simp [Arrival.readExact, Except.map]

/-- What `request` collects is the payloads of its stream. -/
theorem collectChunks_payloads {out body : List UInt8} {s : Stream} (hs : Delimited s)
    (h : collectChunks out s = .ok body) :
    ∃ payloads, Payloads s payloads ∧ body = out ++ payloads.flatten := by
  fun_induction collectChunks out s with
  | case1 => cases h
  | case2 out s rest hsize =>
    cases h
    exact ⟨[], .last (readSize_eq_ok.mp hsize), by simp⟩
  | case3 => cases h
  | case4 => cases h
  | case5 => cases h
  | case6 out s size rest hsize hmore hfits chunk rest' hread ends left hbreak ih =>
    obtain ⟨next, rfl, hnext⟩ := hs.next (readSize_eq_ok.mp hsize) hmore hread
    cases (readExact_break next).symm.trans hbreak
    obtain ⟨payloads, hpayloads, rfl⟩ := ih hnext h
    refine ⟨chunk :: payloads, .chunk (readSize_eq_ok.mp hsize) hmore hread ?_, by simp⟩
    rwa [readLine_break]

/-- Where `request` finds fault with what has arrived, so does a decoder. -/
theorem owes_refused {out : List UInt8} {s inner : Stream} {fault : ChunkFault}
    (h : collectChunks out s = .error fault) (hfault : fault.ofContent) (hs : Delimited s)
    (hline : sizeLine inner = s.readLine) :
    ∃ body e, Owes ChunkedBody.nextSize ⟨inner, 0, false⟩ body (some e) := by
  fun_induction collectChunks out s generalizing inner with
  | case1 out s other hsize =>
    obtain ⟨_, hrefused⟩ := readSize_eq_error hsize
    obtain ⟨e, he⟩ := ChunkedBody.follows.owes_size_refused hline hrefused trivial
    exact ⟨[], e, he⟩
  | case2 => cases h
  | case3 =>
    cases h
    rcases hfault with ⟨_, hfault⟩ | ⟨_, -, hfault⟩ <;> cases hfault
  | case4 out s size rest hsize hmore hfits e hread =>
    cases h
    have he : e ≠ Stream.shortRead := by
      rintro rfl
      rcases hfault with ⟨_, hfault⟩ | ⟨detail, hdetail, hfault⟩
      · cases hfault
      · exact hdetail (ChunkFault.unreachable.inj hfault).symm
    obtain ⟨bytes, hbytes⟩ :=
      ChunkedBody.follows.owes_failure hline (readSize_eq_ok.mp hsize) hmore hread he
    exact ⟨bytes, e, hbytes⟩
  | case5 out s size rest hsize hmore hfits chunk rest' hread e hbreak =>
    obtain ⟨next, rfl, _⟩ := hs.next (readSize_eq_ok.mp hsize) hmore hread
    cases (readExact_break next).symm.trans hbreak
  | case6 out s size rest hsize hmore hfits chunk rest' hread ends left hbreak ih =>
    obtain ⟨next, rfl, hnext⟩ := hs.next (readSize_eq_ok.mp hsize) hmore hread
    cases (readExact_break next).symm.trans hbreak
    obtain ⟨body, e, howes⟩ := ih h hnext (sizeLine_break left)
    exact ⟨chunk ++ body, e,
      ChunkedBody.follows.owes_chunk hline (readSize_eq_ok.mp hsize) hmore hread howes⟩

theorem ChunkedBody.agrees {s : Stream} (hs : Delimited s) (hstart : StartsVisible s) :
    Agrees (collectChunks [] s) ChunkFault.ofContent (drain ChunkedBody.read · (.new s)) := by
  refine ⟨fun body h calls => ?_, fun fault h hfault => ?_⟩
  · obtain ⟨payloads, hpayloads, rfl⟩ := collectChunks_payloads hs h
    exact (ChunkedBody.follows.owes_payloads hpayloads hs (sizeLine_start hstart)).delivers calls
  · obtain ⟨body, e, howes⟩ := owes_refused h hfault hs (sizeLine_start hstart)
    exact ⟨body, e, howes.delivers⟩

/-- On a stream whose chunks end in line breaks, the decoders of either crate agree. The one without
a limit gives the payloads whole, however many there are; and where the stream is over before a
size line, it is at its end. -/
theorem decoders_agree {s : Stream} (hs : Delimited s) (hstart : StartsVisible s) :
    Agrees (collectChunks [] s) ChunkFault.ofContent (drain ChunkedBody.read · (.new s)) ∧
      Agrees (readChunked [] s) Fault.ofContent (drain ChunkedReader.read · (.new s)) ∧
      (∀ payloads, Payloads s payloads → ∀ calls,
        Delivered payloads.flatten none calls (drain ChunkedReader.read calls (.new s))) ∧
      (readChunked [] s = .error (.badChunkSize "") →
        ∃ body, ∀ calls, Delivered body none calls (drain ChunkedReader.read calls (.new s))) := by
  refine ⟨ChunkedBody.agrees hs hstart, ChunkedReader.agrees hs hstart, fun _ hpayloads =>
    ChunkedReader.delivers_payloads hs hstart hpayloads, fun hcut => ?_⟩
  obtain ⟨body, howes⟩ := ChunkedReader.owes_cut hcut hs (sizeLine_start hstart)
  exact ⟨body, howes.delivers⟩

/-- One chunk, its line break and the last chunk. -/
theorem one_chunk_agrees :
    Agrees (collectChunks [] (Stream.ofText "1\r\na\r\n0\r\n\r\n")) ChunkFault.ofContent
      (drain ChunkedBody.read · (.new (Stream.ofText "1\r\na\r\n0\r\n\r\n"))) := by
  have hfirst : readChunkSize (Stream.ofText "1\r\na\r\n0\r\n\r\n") =
      .ok (1, Stream.ofText "a\r\n0\r\n\r\n") := by decide +kernel
  have hchunk : Arrival.readExact Stream.shortRead 1 (Stream.ofText "a\r\n0\r\n\r\n") =
      .ok ([97], .item 13 :: .item 10 :: Stream.ofText "0\r\n\r\n") := by decide +kernel
  have hlast : readChunkSize (Stream.ofText "0\r\n\r\n") = .ok (0, Stream.ofText "\r\n") := by
    decide +kernel
  refine (decoders_agree (.chunk hfirst (by decide) hchunk (.stops ?_)) ?_).1
  · intro size rest parts hsize hmore
    cases hlast.symm.trans hsize
    exact absurd rfl hmore
  · intro line rest hline hblank
    have hread : (Stream.ofText "1\r\na\r\n0\r\n\r\n").readLine =
        (.ok "1\r\n", Stream.ofText "a\r\n0\r\n\r\n") := by decide +kernel
    cases hread.symm.trans hline
    exact absurd hblank (by decide +kernel)

/-- `ChunkedReader` is at its end where the last chunk is missing, and `request` takes two bytes for
a line break that are none. -/
theorem decoders_disagree :
    ¬ Agrees (readChunked [] (Stream.ofText "1\r\na\r\n")) (fun _ => True)
        (drain ChunkedReader.read · (.new (Stream.ofText "1\r\na\r\n"))) ∧
      ¬ Agrees (collectChunks [] (Stream.ofText "1\r\naXY0\r\n\r\n")) (fun _ => True)
        (drain ChunkedBody.read · (.new (Stream.ofText "1\r\naXY0\r\n\r\n"))) := by
  constructor
  · rintro ⟨-, hrefused⟩
    have hcut : readChunked [] (Stream.ofText "1\r\na\r\n") = .error (.badChunkSize "") := by
      decide +kernel
    have hend : (drain ChunkedReader.read [⟨1, 1⟩, ⟨1, 1⟩]
        (.new (Stream.ofText "1\r\na\r\n"))).2 = .ended := by decide +kernel
    obtain ⟨body, e, hgiven⟩ := hrefused _ hcut trivial
    cases ((hgiven _).ended hend).2
  · rintro ⟨hcollected, -⟩
    have hbody : collectChunks [] (Stream.ofText "1\r\naXY0\r\n\r\n") = .ok [97] := by
      decide +kernel
    have hfails : (drain ChunkedBody.read [⟨1, 1⟩, ⟨1, 1⟩]
        (.new (Stream.ofText "1\r\naXY0\r\n\r\n"))).2 =
          .failed ⟨"invalid digit found in string"⟩ := by decide +kernel
    cases ((hcollected _ hbody _).failed _ hfails).2

end MarloweAgent.Provider
