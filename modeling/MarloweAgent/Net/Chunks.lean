import MarloweAgent.Net.Quoting

/-! The sizes of a chunked body. A chunk's size is the server's word, and it is added to what
has been read before it is compared with the limit: the sum wraps round for a size near the
end of the range, and a buffer of that size is asked for. -/

namespace MarloweAgent.Net
open Library

/-! ## What is added and what is asked for -/

/-- What `read_chunked` does with the size of a chunk. -/
inductive SizeEffect
  | added (total size : Nat)
  | requested (bytes : Nat)
  deriving DecidableEq, Repr

/-- `isize::MAX`: a larger buffer is never allocated. -/
def maxCapacity : Nat := 2 ^ 63 - 1

/-- `read_chunked` with what it adds and asks for, where a sum that overflows wraps round. -/
def readChunkedLogged (out : List UInt8) (s : Stream) :
    List SizeEffect × Except Fault (List UInt8) :=
  match _hsize : readChunkSize s with
  | .error fault => ([], .error fault)
  | .ok (size, rest) =>
    if size = 0 then ([], .ok out)
    else
      let sum := (out.length + size) % 2 ^ 64
      if maxBodyBytes < sum then ([.added out.length size], .error .tooLarge)
      else if maxCapacity < size then
        ([.added out.length size, .requested size], .error .capacityOverflow)
      else
        match _hread : Arrival.readExact Stream.shortRead size rest with
        | .error e => ([.added out.length size, .requested size], .error (.readFailed e))
        | .ok (chunk, rest) =>
          let (effects, result) := readChunkedLogged (out ++ chunk) (Stream.readLine rest).2
          (.added out.length size :: .requested size :: effects, result)
termination_by s.length
decreasing_by exact length_afterChunk _hsize _hread

theorem maxBodyBytes_lt : maxBodyBytes < maxCapacity := by decide

/-- Below the limit a sum that wraps round is below it again, and its buffer is too large. -/
theorem wrapped_sum {total size : Nat} (htotal : total ≤ maxBodyBytes) (hsize : size < 2 ^ 64)
    (hover : 2 ^ 64 ≤ total + size) :
    ¬ maxBodyBytes < (total + size) % 2 ^ 64 ∧ maxCapacity < size := by
  have hlimit : maxBodyBytes = 4194304 := rfl
  have hcapacity : maxCapacity = 2 ^ 63 - 1 := rfl
  omega

/-- A sum below the limit has not wrapped round. -/
theorem small_sum {total size : Nat} (hover : ¬ 2 ^ 64 ≤ total + size) :
    (total + size) % 2 ^ 64 = total + size := Nat.mod_eq_of_lt (by omega)

theorem parseUsize_lt {radix n : Nat} {s : String} (h : parseUsize radix s = some n) : n < 2 ^ 64 := by
  unfold parseUsize at h
  dsimp only at h
  split at h
  next m hm =>
    split at h
    next hsmall =>
      cases h
      exact hsmall.2
    next => cases h
  next => cases h

theorem size_lt {s rest : Stream} {size : Nat} (h : readChunkSize s = .ok (size, rest)) :
    size < 2 ^ 64 := by
  obtain ⟨line, -, hsize⟩ := readChunkSize_eq_ok.mp h
  exact parseUsize_lt hsize

/-- The log takes nothing away: below the limit the outcome is the one of `readChunked`. -/
theorem readChunkedLogged_snd (out : List UInt8) (s : Stream) (hout : out.length ≤ maxBodyBytes) :
    (readChunkedLogged out s).2 = readChunked out s := by
  have hcapacity := maxBodyBytes_lt
  fun_induction readChunked out s with
  | case1 out s fault hsize => rw [readChunkedLogged.eq_def, hsize]
  | case2 out s rest hsize =>
    rw [readChunkedLogged.eq_def, hsize]
    rfl
  | case3 out s size rest hsize hmore hover =>
    obtain ⟨hwrapped, hlarge⟩ := wrapped_sum hout (size_lt hsize) hover
    rw [readChunkedLogged.eq_def, hsize]
    dsimp only
    rw [if_neg hmore, if_neg hwrapped, if_pos hlarge]
  | case4 out s size rest hsize hmore hover hlarge =>
    rw [readChunkedLogged.eq_def, hsize]
    dsimp only
    rw [if_neg hmore, small_sum hover, if_pos hlarge]
  | case5 out s size rest hsize hmore hover hfits e hread =>
    have hsmall : ¬ maxCapacity < size := by omega
    rw [readChunkedLogged.eq_def, hsize]
    dsimp only
    rw [if_neg hmore, small_sum hover, if_neg hfits, if_neg hsmall, hread]
  | case6 out s size rest hsize hmore hover hfits chunk rest' hread ih =>
    have hsmall : ¬ maxCapacity < size := by omega
    have hlength := (Arrival.length_readExact hread).1
    rw [readChunkedLogged.eq_def, hsize]
    dsimp only
    rw [if_neg hmore, small_sum hover, if_neg hfits, if_neg hsmall, hread]
    exact ih (by rw [List.length_append]; omega)

/-! ## The chunks of a body -/

/-- The payloads a stream carries, up to the chunk of size zero. -/
inductive Payloads : Stream → List (List UInt8) → Prop
  | last {s rest} (hsize : readChunkSize s = .ok (0, rest)) : Payloads s []
  | chunk {s rest rest' size chunk payloads} (hsize : readChunkSize s = .ok (size, rest))
      (hmore : size ≠ 0) (hread : Arrival.readExact Stream.shortRead size rest = .ok (chunk, rest'))
      (hafter : Payloads (Stream.readLine rest').2 payloads) : Payloads s (chunk :: payloads)

/-- Behind so many bytes of payload, a chunk is announced whose size overflows with them. -/
inductive Overflows : Nat → Stream → Prop
  | here {sofar s size rest} (hsize : readChunkSize s = .ok (size, rest))
      (hover : 2 ^ 64 ≤ sofar + size) : Overflows sofar s
  | later {sofar s size rest chunk rest'} (hsize : readChunkSize s = .ok (size, rest))
      (hmore : size ≠ 0) (hfits : sofar + size ≤ maxBodyBytes)
      (hread : Arrival.readExact Stream.shortRead size rest = .ok (chunk, rest'))
      (hafter : Overflows (sofar + size) (Stream.readLine rest').2) : Overflows sofar s

/-- What a log may say: no sum overflows, and no buffer is larger than a body. -/
def Modest (effects : List SizeEffect) : Prop :=
  (∀ total size, .added total size ∈ effects → total + size < 2 ^ 64) ∧
    ∀ bytes, .requested bytes ∈ effects → bytes ≤ maxBodyBytes

/-- A body is bounded: its sizes are, and it is the payloads together, or the fetch fails. -/
def Bounded (s : Stream) : Prop :=
  Modest (readChunkedLogged [] s).1 ∧
    ((∃ payloads, Payloads s payloads ∧ (readChunkedLogged [] s).2 = .ok payloads.flatten ∧
        payloads.flatten.length ≤ maxBodyBytes) ∨
      ∃ fault, (readChunkedLogged [] s).2 = .error fault ∧ ∀ host, (fault.error host).isSome)

theorem modest_nil : Modest [] := ⟨by simp, by simp⟩

theorem Modest.cons_added {total size : Nat} {effects : List SizeEffect} (h : Modest effects)
    (hsum : total + size < 2 ^ 64) : Modest (.added total size :: effects) :=
  ⟨fun t n hmem => by
    rcases List.mem_cons.mp hmem with heq | hmem
    · cases heq
      exact hsum
    · exact h.1 t n hmem,
  fun n hmem => h.2 n (by simpa using hmem)⟩

theorem Modest.cons_requested {bytes : Nat} {effects : List SizeEffect} (h : Modest effects)
    (hbytes : bytes ≤ maxBodyBytes) : Modest (.requested bytes :: effects) :=
  ⟨fun t n hmem => h.1 t n (by simpa using hmem),
  fun n hmem => by
    rcases List.mem_cons.mp hmem with heq | hmem
    · cases heq
      exact hbytes
    · exact h.2 n hmem⟩

theorem Overflows.inv {sofar size : Nat} {s rest : Stream} (h : Overflows sofar s)
    (hsize : readChunkSize s = .ok (size, rest)) : 2 ^ 64 ≤ sofar + size ∨
      size ≠ 0 ∧ sofar + size ≤ maxBodyBytes ∧
        ∃ chunk rest', Arrival.readExact Stream.shortRead size rest = .ok (chunk, rest') ∧
          Overflows (sofar + size) (Stream.readLine rest').2 := by
  cases h with
  | here hother hover =>
    cases hsize.symm.trans hother
    exact .inl hover
  | later hother hmore hfits hread hafter =>
    cases hsize.symm.trans hother
    exact .inr ⟨hmore, hfits, _, _, hread, hafter⟩

theorem Overflows.announced {sofar : Nat} {s : Stream} (h : Overflows sofar s) :
    ∃ size rest, readChunkSize s = .ok (size, rest) := by
  cases h with
  | here hsize => exact ⟨_, _, hsize⟩
  | later hsize => exact ⟨_, _, hsize⟩

/-- Where a size overflows, reading comes to it and adds it. -/
theorem Overflows.added {out : List UInt8} {s : Stream} (h : Overflows out.length s)
    (hout : out.length ≤ maxBodyBytes) :
    ∃ total size, .added total size ∈ (readChunkedLogged out s).1 ∧ 2 ^ 64 ≤ total + size := by
  fun_induction readChunkedLogged out s with
  | case1 out s fault hsize =>
    obtain ⟨size, rest, hannounced⟩ := h.announced
    cases hsize.symm.trans hannounced
  | case2 out s rest hsize =>
    rcases h.inv hsize with hover | ⟨hmore, -⟩
    · have hlimit := maxBodyBytes_lt
      have hcapacity : maxCapacity = 2 ^ 63 - 1 := rfl
      omega
    · exact absurd rfl hmore
  | case3 out s size rest hsize hmore sum hlarge =>
    rcases h.inv hsize with hover | ⟨-, hfits, -⟩
    · exact ⟨_, _, List.mem_singleton_self _, hover⟩
    · exact absurd (hlarge.trans_le (Nat.mod_le _ _)) (by omega)
  | case4 out s size rest hsize hmore sum hfits hlarge =>
    rcases h.inv hsize with hover | ⟨-, hfits, -⟩
    · exact ⟨_, _, List.mem_cons_self, hover⟩
    · have hlimit := maxBodyBytes_lt
      omega
  | case5 out s size rest hsize hmore sum hfits hsmall e hread =>
    rcases h.inv hsize with hover | ⟨-, -, chunk, rest', hchunk, -⟩
    · exact ⟨_, _, List.mem_cons_self, hover⟩
    · rw [hread] at hchunk
      cases hchunk
  | case6 out s size rest hsize hmore sum hfits hsmall chunk rest' hread effects result hlog ih =>
    rcases h.inv hsize with hover | ⟨-, hsum, chunk', left, hchunk, hafter⟩
    · exact ⟨_, _, List.mem_cons_self, hover⟩
    · rw [hread] at hchunk
      cases hchunk
      rw [hlog, List.length_append, (Arrival.length_readExact hread).1] at ih
      obtain ⟨total, size', hmem, hover⟩ := ih hafter hsum
      exact ⟨total, size', List.mem_cons_of_mem _ (List.mem_cons_of_mem _ hmem), hover⟩

/-- Where none does, reading stays below the limit to its end. -/
theorem bounded_of_not_overflows (out : List UInt8) (s : Stream) (hout : out.length ≤ maxBodyBytes)
    (h : ¬ Overflows out.length s) :
    Modest (readChunkedLogged out s).1 ∧
      ((∃ payloads, Payloads s payloads ∧
          (readChunkedLogged out s).2 = .ok (out ++ payloads.flatten) ∧
          (out ++ payloads.flatten).length ≤ maxBodyBytes) ∨
        ∃ fault, (readChunkedLogged out s).2 = .error fault ∧ ∀ host, (fault.error host).isSome) := by
  have hlimit := maxBodyBytes_lt
  have hcapacity : maxCapacity = 2 ^ 63 - 1 := rfl
  fun_induction readChunkedLogged out s with
  | case1 out s fault hsize =>
    refine ⟨modest_nil, .inr ⟨fault, rfl, fun host => ?_⟩⟩
    rcases readChunkSize_eq_error hsize with ⟨e, rest, -, rfl⟩ | ⟨line, rest, -, -, rfl⟩ <;> rfl
  | case2 out s rest hsize =>
    exact ⟨modest_nil, .inl ⟨[], .last hsize, by simp, by simpa using hout⟩⟩
  | case3 out s size rest hsize hmore sum hlarge =>
    have hsum : out.length + size < 2 ^ 64 := Nat.lt_of_not_le fun hover => h (.here hsize hover)
    exact ⟨modest_nil.cons_added hsum, .inr ⟨.tooLarge, rfl, fun _ => rfl⟩⟩
  | case4 out s size rest hsize hmore sum hfits hlarge =>
    have hsum : out.length + size < 2 ^ 64 := Nat.lt_of_not_le fun hover => h (.here hsize hover)
    have hexact : sum = out.length + size := Nat.mod_eq_of_lt hsum
    omega
  | case5 out s size rest hsize hmore sum hfits hsmall e hread =>
    have hsum : out.length + size < 2 ^ 64 := Nat.lt_of_not_le fun hover => h (.here hsize hover)
    have hexact : sum = out.length + size := Nat.mod_eq_of_lt hsum
    exact ⟨(modest_nil.cons_requested (by omega)).cons_added hsum,
      .inr ⟨.readFailed e, rfl, fun _ => rfl⟩⟩
  | case6 out s size rest hsize hmore sum hfits hsmall chunk rest' hread effects result hlog ih =>
    have hsum : out.length + size < 2 ^ 64 := Nat.lt_of_not_le fun hover => h (.here hsize hover)
    have hexact : sum = out.length + size := Nat.mod_eq_of_lt hsum
    rw [hlog, List.length_append, (Arrival.length_readExact hread).1] at ih
    obtain ⟨hmodest, hresult⟩ := ih (by omega) fun hafter =>
      h (.later hsize hmore (by omega) hread hafter)
    refine ⟨(hmodest.cons_requested (by omega)).cons_added hsum, hresult.imp_left ?_⟩
    rintro ⟨payloads, hpayloads, hbody, hlength⟩
    refine ⟨chunk :: payloads, .chunk hsize hmore hread hpayloads, ?_, ?_⟩
    · rw [List.flatten_cons, ← List.append_assoc]
      exact hbody
    · rwa [List.flatten_cons, ← List.append_assoc]

/-- A body is bounded exactly where no size overflows with the payload before it. -/
theorem bounded_iff (s : Stream) : Bounded s ↔ ¬ Overflows 0 s := by
  constructor
  · rintro ⟨⟨hsums, -⟩, -⟩ hover
    have hstart : Overflows ([] : List UInt8).length s := hover
    obtain ⟨total, size, hmem, hlarge⟩ := hstart.added (Nat.zero_le _)
    exact absurd (hsums total size hmem) (by omega)
  · intro h
    simpa [Bounded] using bounded_of_not_overflows [] s (Nat.zero_le _) h

/-- One byte, and then the largest size there is: the sum wraps round to zero. -/
theorem second_size_overflows :
    ¬ Bounded (Stream.ofText "1\r\na\r\nffffffffffffffff\r\n") := by
  rintro ⟨⟨hsums, -⟩, -⟩
  have hfirst : readChunkSize (Stream.ofText "1\r\na\r\nffffffffffffffff\r\n") =
      .ok (1, Stream.ofText "a\r\nffffffffffffffff\r\n") := by decide +kernel
  have hchunk : Arrival.readExact Stream.shortRead 1 (Stream.ofText "a\r\nffffffffffffffff\r\n") =
      .ok ([97], Stream.ofText "\r\nffffffffffffffff\r\n") := by decide +kernel
  have hsecond : readChunkSize (Stream.readLine (Stream.ofText "\r\nffffffffffffffff\r\n")).2 =
      .ok (2 ^ 64 - 1, []) := by decide +kernel
  have hover : Overflows ([] : List UInt8).length
      (Stream.ofText "1\r\na\r\nffffffffffffffff\r\n") :=
    .later hfirst (by decide) (by decide) hchunk (.here hsecond (by decide))
  obtain ⟨total, size, hmem, hlarge⟩ := hover.added (Nat.zero_le _)
  exact absurd (hsums total size hmem) (by omega)

end MarloweAgent.Net
