import MarloweAgent.Library.Reader
import MarloweAgent.Net.Chunks

/-! Chunked bodies that are read as they arrive. A decoder knows how much of a chunk is
still to come; between two chunks it reads a size. What a decoder owes is read off its
stream byte by byte, and however its buffers are cut, it gives that. -/

namespace MarloweAgent.Net
open Contract Library Mcp

/-! ## Sizes -/

/-- Why `usize::from_str_radix` fails: the first digit that is none, or one too many. -/
def digitsFault (radix : Nat) : Nat → List Char → String
  | _, [] => "number too large to fit in target type"
  | n, c :: rest =>
    match toDigit radix c with
    | none => "invalid digit found in string"
    | some d =>
      if 2 ^ 64 ≤ n * radix + d then "number too large to fit in target type"
      else digitsFault radix (n * radix + d) rest

def parseUsizeFault (radix : Nat) (s : String) : String :=
  if s = "" then "cannot parse integer from empty string"
  else if s = "+" then "invalid digit found in string"
  else digitsFault radix 0 ((Text.stripPrefix s.toList ['+']).getD s.toList)

/-- The part of a size line that is the number. -/
def sizeText (line : String) : String :=
  Text.trim (String.ofList ((Text.trim line).toList.takeWhile (· ≠ ';')))

/-- The size on a line, or why there is none. -/
@[irreducible] def sizeOn (line : String) : Except IoError Nat :=
  (chunkSize line).elim (.error ⟨parseUsizeFault 16 (sizeText line)⟩) .ok

theorem sizeOn_eq_ok {line : String} {size : Nat} :
    sizeOn line = .ok size ↔ chunkSize line = some size := by
  unfold sizeOn
  cases chunkSize line <;> simp

theorem sizeOn_eq_error {line : String} (h : chunkSize line = none) : ∃ e, sizeOn line = .error e := by
  unfold sizeOn
  rw [h]
  exact ⟨_, rfl⟩

/-! ## Decoders -/

/-- What a decoder keeps: its stream, what of a chunk is to come, and whether all has. -/
structure ChunkState where
  inner : Stream
  remaining : Nat
  finished : Bool
  deriving DecidableEq, Repr

/-- How a decoder reads the size of its next chunk; zero is the end. -/
abbrev NextSize := Stream → Except IoError Nat × Stream

/-- A size line, behind the line break that ends the chunk before it. -/
def sizeLine (inner : Stream) : Except IoError String × Stream :=
  match inner.readLine with
  | (.error e, rest) => (.error e, rest)
  | (.ok line, rest) => if Text.isEmpty (Text.trim line) then rest.readLine else (.ok line, rest)

namespace ChunkState

def new (inner : Stream) : ChunkState := { inner, remaining := 0, finished := false }

/-- What a call reads of a chunk. -/
def readPayload (call : Call) (d : ChunkState) : Except IoError (List UInt8) × ChunkState :=
  match Arrival.readSome (min call.room d.remaining) call.ready d.inner with
  | (.error e, rest) => (.error e, { d with inner := rest })
  | (.ok bytes, rest) => (.ok bytes, { d with inner := rest, remaining := d.remaining - bytes.length })

/-- `read`, for a way of reading sizes. -/
def readWith (nextSize : NextSize) (call : Call) (d : ChunkState) :
    Except IoError (List UInt8) × ChunkState :=
  if d.finished then (.ok [], d)
  else if d.remaining = 0 then
    match nextSize d.inner with
    | (.error e, rest) => (.error e, { d with inner := rest })
    | (.ok size, rest) =>
      if size = 0 then (.ok [], { d with inner := rest, finished := true })
      else readPayload call { d with inner := rest, remaining := size }
  else readPayload call d

end ChunkState

/-- `ChunkedReader`: a stream that is over before a size line is over. -/
def ChunkedReader.nextSize : NextSize := fun inner =>
  match sizeLine inner with
  | (.error e, rest) => (.error e, rest)
  | (.ok line, rest) => if Text.isEmpty line then (.ok 0, rest) else (sizeOn line, rest)

/-- `ChunkedReader::read`. -/
def ChunkedReader.read : Call → ChunkState → Except IoError (List UInt8) × ChunkState :=
  ChunkState.readWith ChunkedReader.nextSize

/-! ## What a decoder owes -/

/-- The bytes a decoder gives from here on, and how it fails behind them, if it does. A stream that
ends within a chunk is owed nothing. -/
inductive Owes (nextSize : NextSize) : ChunkState → List UInt8 → Option IoError → Prop
  | ended {d} (hfinished : d.finished = true) : Owes nextSize d [] none
  | badSize {inner e rest} (hsize : nextSize inner = (.error e, rest)) :
      Owes nextSize ⟨inner, 0, false⟩ [] (some e)
  | last {inner rest} (hsize : nextSize inner = (.ok 0, rest)) :
      Owes nextSize ⟨inner, 0, false⟩ [] none
  | size {inner size rest body failure} (hsize : nextSize inner = (.ok (size + 1), rest))
      (hafter : Owes nextSize ⟨rest, size + 1, false⟩ body failure) :
      Owes nextSize ⟨inner, 0, false⟩ body failure
  | byte {a rest remaining body failure}
      (hafter : Owes nextSize ⟨rest, remaining, false⟩ body failure) :
      Owes nextSize ⟨.item a :: rest, remaining + 1, false⟩ (a :: body) failure
  | failure {e rest remaining} :
      Owes nextSize ⟨.failure e :: rest, remaining + 1, false⟩ [] (some e)

variable {nextSize : NextSize} {body : List UInt8} {failure : Option IoError}

/-- The bytes that are taken are the next that are owed. -/
theorem Owes.taken {inner : Stream} {remaining : Nat}
    (h : Owes nextSize ⟨inner, remaining, false⟩ body failure) (n : Nat) (hn : n ≤ remaining) :
    ∃ rest, body = (Arrival.takeItems n inner).1 ++ rest ∧
      Owes nextSize ⟨(Arrival.takeItems n inner).2,
        remaining - (Arrival.takeItems n inner).1.length, false⟩ rest failure := by
  induction n generalizing inner remaining body with
  | zero => exact ⟨body, rfl, by simpa [Arrival.takeItems] using h⟩
  | succ n ih =>
    obtain ⟨remaining, rfl⟩ : ∃ left, remaining = left + 1 := ⟨remaining - 1, by omega⟩
    cases h with
    | ended hfinished => cases hfinished
    | @byte a rest _ body _ hafter =>
      obtain ⟨more, rfl, hmore⟩ := ih hafter (by omega)
      exact ⟨more, rfl, by simpa [Arrival.takeItems] using hmore⟩
    | failure => exact ⟨[], rfl, by simpa [Arrival.takeItems] using Owes.failure⟩

/-- A call that takes nothing of a chunk had no room. -/
theorem pays_readPayload {call : Call} {inner : Stream} {remaining : Nat} (hremaining : remaining ≠ 0)
    (h : Owes nextSize ⟨inner, remaining, false⟩ body failure) :
    Pays (Owes nextSize) body failure call.room
      (ChunkState.readPayload call ⟨inner, remaining, false⟩) := by
  have htaken := h.taken (min (min call.room remaining) (max call.ready 1)) (by omega)
  cases h with
  | ended hfinished => cases hfinished
  | badSize => exact absurd rfl hremaining
  | last => exact absurd rfl hremaining
  | size => exact absurd rfl hremaining
  | @byte a rest left body _ hafter =>
    refine ⟨htaken, fun hnone hroom => ?_⟩
    obtain ⟨n, hn⟩ : ∃ n, min (min call.room (left + 1)) (max call.ready 1) = n + 1 :=
      Nat.exists_eq_add_one.mpr (by omega)
    rw [hn] at hnone
    cases hnone
  | failure => exact ⟨rfl, rfl⟩

theorem pays_readWith (d : ChunkState) (body : List UInt8) (failure : Option IoError) (call : Call)
    (h : Owes nextSize d body failure) :
    Pays (Owes nextSize) body failure call.room (ChunkState.readWith nextSize call d) := by
  cases h with
  | ended hfinished =>
    rw [ChunkState.readWith, if_pos hfinished]
    exact ⟨⟨[], rfl, .ended hfinished⟩, fun _ _ => ⟨rfl, rfl⟩⟩
  | badSize hsize => simp [ChunkState.readWith, hsize, Pays]
  | last hsize =>
    simp only [ChunkState.readWith, hsize, Bool.false_eq_true, if_false, if_true]
    exact ⟨⟨[], rfl, .ended rfl⟩, fun _ _ => ⟨rfl, rfl⟩⟩
  | size hsize hafter =>
    simp only [ChunkState.readWith, hsize, Bool.false_eq_true, if_false, if_true,
      Nat.add_one_ne_zero]
    exact pays_readPayload (Nat.add_one_ne_zero _) hafter
  | byte hafter =>
    simp only [ChunkState.readWith, Bool.false_eq_true, if_false, Nat.add_one_ne_zero]
    exact pays_readPayload (Nat.add_one_ne_zero _) (.byte hafter)
  | failure =>
    simp only [ChunkState.readWith, Bool.false_eq_true, if_false, Nat.add_one_ne_zero]
    exact pays_readPayload (Nat.add_one_ne_zero _) .failure

/-- A chunk that arrives whole is owed whole. -/
theorem Owes.of_chunk {size : Nat} {rest rest' : Stream} {chunk : List UInt8}
    (hread : Arrival.readExact Stream.shortRead size rest = .ok (chunk, rest'))
    (h : Owes nextSize ⟨rest', 0, false⟩ body failure) :
    Owes nextSize ⟨rest, size, false⟩ (chunk ++ body) failure := by
  induction size generalizing rest chunk with
  | zero =>
    cases hread
    exact h
  | succ size ih =>
    cases rest with
    | nil => cases hread
    | cons first rest =>
      cases first with
      | failure e => cases hread
      | item a =>
        cases hmore : Arrival.readExact Stream.shortRead size rest with
        | error e => simp [Arrival.readExact, hmore, Except.map] at hread
        | ok parts =>
          simp only [Arrival.readExact, hmore, Except.map, Except.ok.injEq, Prod.mk.injEq] at hread
          obtain ⟨rfl, rfl⟩ := hread
          exact .byte (ih hmore)

/-- A read that fails within a chunk is met behind what came before it. -/
theorem Owes.of_failure {size : Nat} {rest : Stream} {e : IoError}
    (hread : Arrival.readExact Stream.shortRead size rest = .error e) (he : e ≠ Stream.shortRead) :
    ∃ bytes, Owes nextSize ⟨rest, size, false⟩ bytes (some e) := by
  induction size generalizing rest with
  | zero => cases hread
  | succ size ih =>
    cases rest with
    | nil =>
      cases hread
      exact absurd rfl he
    | cons first rest =>
      cases first with
      | failure e' =>
        cases hread
        exact ⟨[], .failure⟩
      | item a =>
        cases hmore : Arrival.readExact Stream.shortRead size rest with
        | error e' =>
          simp only [Arrival.readExact, hmore, Except.map, Except.error.injEq] at hread
          obtain ⟨bytes, hbytes⟩ := ih (hread ▸ hmore)
          exact ⟨a :: bytes, .byte hbytes⟩
        | ok parts => simp [Arrival.readExact, hmore, Except.map] at hread

/-! ## Framing -/

/-- Every chunk that arrives whole has its line break behind it. -/
inductive Delimited : Stream → Prop
  | stops {s} (hnone : ∀ size rest parts, readChunkSize s = .ok (size, rest) → size ≠ 0 →
      Arrival.readExact Stream.shortRead size rest ≠ .ok parts) : Delimited s
  | chunk {s size rest chunk next} (hsize : readChunkSize s = .ok (size, rest)) (hmore : size ≠ 0)
      (hread : Arrival.readExact Stream.shortRead size rest =
        .ok (chunk, .item 13 :: .item 10 :: next)) (hnext : Delimited next) : Delimited s

theorem Delimited.next {s rest rest' : Stream} {size : Nat} {chunk : List UInt8} (h : Delimited s)
    (hsize : readChunkSize s = .ok (size, rest)) (hmore : size ≠ 0)
    (hread : Arrival.readExact Stream.shortRead size rest = .ok (chunk, rest')) :
    ∃ next, rest' = .item 13 :: .item 10 :: next ∧ Delimited next := by
  cases h with
  | stops hnone => exact absurd hread (hnone _ _ _ hsize hmore)
  | chunk hother _ hchunk hnext =>
    cases hsize.symm.trans hother
    cases hread.symm.trans hchunk
    exact ⟨_, rfl, hnext⟩

theorem readLine_break (next : Stream) :
    Stream.readLine (.item 13 :: .item 10 :: next) = (.ok "\r\n", next) := by
  have hline : lineText [13, 10] = some "\r\n" := by decide +kernel
  simp [Stream.readLine, Arrival.readThrough, Except.map, hline]

/-- Behind a chunk, the size line is the one behind its line break. -/
theorem sizeLine_break (next : Stream) :
    sizeLine (.item 13 :: .item 10 :: next) = next.readLine := by
  have hblank : Text.isEmpty (Text.trim "\r\n") = true := by decide +kernel
  rw [sizeLine, readLine_break]
  simp [hblank]

/-- At its start, a stream has a size line that is not blank. -/
def StartsVisible (s : Stream) : Prop :=
  ∀ line rest, s.readLine = (.ok line, rest) → Text.isEmpty (Text.trim line) = true → s = []

theorem sizeLine_start {s : Stream} (h : StartsVisible s) : sizeLine s = s.readLine := by
  unfold sizeLine
  split
  next hline => exact hline.symm
  next line rest hline =>
    split
    next hblank =>
      cases h line rest hline hblank
      rw [Stream.readLine_nil] at hline ⊢
      cases hline
      rw [Stream.readLine_nil]
    next => exact hline.symm

/-- A way of reading sizes that follows the size lines: it fails where one is refused. -/
structure Follows (nextSize : NextSize) (refuses : Fault → Prop) : Prop where
  size : ∀ {inner s size rest}, sizeLine inner = s.readLine → readChunkSize s = .ok (size, rest) →
    nextSize inner = (.ok size, rest)
  refused : ∀ {inner s fault}, sizeLine inner = s.readLine → readChunkSize s = .error fault →
    refuses fault → ∃ e rest, nextSize inner = (.error e, rest)

variable {refuses : Fault → Prop}

theorem Follows.owes_chunk (hfollows : Follows nextSize refuses) {inner s rest rest' : Stream}
    {size : Nat} {chunk : List UInt8} (hline : sizeLine inner = s.readLine)
    (hsize : readChunkSize s = .ok (size, rest)) (hmore : size ≠ 0)
    (hread : Arrival.readExact Stream.shortRead size rest = .ok (chunk, rest'))
    (h : Owes nextSize ⟨rest', 0, false⟩ body failure) :
    Owes nextSize ⟨inner, 0, false⟩ (chunk ++ body) failure := by
  obtain ⟨size, rfl⟩ := Nat.exists_eq_add_one_of_ne_zero hmore
  exact .size (hfollows.size hline hsize) (.of_chunk hread h)

/-- The payloads of a stream are what is owed of it. -/
theorem Follows.owes_payloads (hfollows : Follows nextSize refuses) {inner s : Stream}
    {payloads : List (List UInt8)} (h : Payloads s payloads) (hs : Delimited s)
    (hline : sizeLine inner = s.readLine) :
    Owes nextSize ⟨inner, 0, false⟩ payloads.flatten none := by
  induction h generalizing inner with
  | last hsize => exact .last (hfollows.size hline hsize)
  | chunk hsize hmore hread _ ih =>
    obtain ⟨next, rfl, hnext⟩ := hs.next hsize hmore hread
    rw [readLine_break] at ih
    exact hfollows.owes_chunk hline hsize hmore hread (ih hnext (sizeLine_break next))

/-- A size line that is refused, or a read that fails, is the failure that is owed. -/
theorem Follows.owes_size_refused (hfollows : Follows nextSize refuses) {inner s : Stream}
    {fault : Fault} (hline : sizeLine inner = s.readLine) (hsize : readChunkSize s = .error fault)
    (hrefuses : refuses fault) : ∃ e, Owes nextSize ⟨inner, 0, false⟩ [] (some e) := by
  obtain ⟨e, rest, hnext⟩ := hfollows.refused hline hsize hrefuses
  exact ⟨e, .badSize hnext⟩

theorem Follows.owes_failure (hfollows : Follows nextSize refuses) {inner s rest : Stream}
    {size : Nat} {e : IoError} (hline : sizeLine inner = s.readLine)
    (hsize : readChunkSize s = .ok (size, rest)) (hmore : size ≠ 0)
    (hread : Arrival.readExact Stream.shortRead size rest = .error e) (he : e ≠ Stream.shortRead) :
    ∃ bytes, Owes nextSize ⟨inner, 0, false⟩ bytes (some e) := by
  obtain ⟨size, rfl⟩ := Nat.exists_eq_add_one_of_ne_zero hmore
  obtain ⟨bytes, hbytes⟩ := Owes.of_failure hread he
  exact ⟨bytes, .size (hfollows.size hline hsize) hbytes⟩

theorem chunkSize_empty : chunkSize "" = none := by decide +kernel

theorem ChunkedReader.follows : Follows ChunkedReader.nextSize (· ≠ .badChunkSize "") where
  size := fun hline hsize => by
    obtain ⟨line, hread, hannounced⟩ := readChunkSize_eq_ok.mp hsize
    have hne : Text.isEmpty line = false := by
      by_contra hempty
      rw [Bool.not_eq_false, Text.isEmpty_eq_decide, decide_eq_true_eq] at hempty
      rw [hempty, chunkSize_empty] at hannounced
      cases hannounced
    simp [ChunkedReader.nextSize, hline, hread, hne, sizeOn_eq_ok.mpr hannounced]
  refused := fun {_ s fault} hline hsize hrefuses => by
    rcases readChunkSize_eq_error hsize with ⟨e, rest, hread, -⟩ | ⟨line, rest, hread, hnone, rfl⟩
    · exact ⟨e, rest, by simp [ChunkedReader.nextSize, hline, hread]⟩
    · obtain ⟨e, he⟩ := sizeOn_eq_error hnone
      have hne : Text.isEmpty line = false := by
        by_contra hempty
        rw [Bool.not_eq_false, Text.isEmpty_eq_decide, decide_eq_true_eq] at hempty
        exact hrefuses (by rw [hempty])
      exact ⟨e, rest, by simp [ChunkedReader.nextSize, hline, hread, hne, he]⟩

/-! ## The two decoders together -/

/-- A decoder gives what another collects, however its buffers are cut, and fails where the other
is right to refuse. -/
def Agrees {ε : Type} (collected : Except ε (List UInt8)) (refused : ε → Prop)
    (given : List Call → List UInt8 × Outcome IoError) : Prop :=
  (∀ body, collected = .ok body → ∀ calls, Delivered body none calls (given calls)) ∧
    ∀ fault, collected = .error fault → refused fault →
      ∃ body e, ∀ calls, Delivered body (some e) calls (given calls)

/-- A fault of what has arrived: not the end of the stream, and not a limit. -/
def Fault.ofContent (fault : Fault) : Prop :=
  (∃ line, line ≠ "" ∧ fault = .badChunkSize line) ∨ ∃ e, e ≠ Stream.shortRead ∧ fault = .readFailed e

theorem Owes.delivers {s : Stream} (h : Owes nextSize (.new s) body failure) (calls : List Call) :
    Delivered body failure calls (drain (ChunkState.readWith nextSize) calls (.new s)) :=
  drain_delivers pays_readWith calls h

/-- What `read_chunked` returns is the payloads of its stream. -/
theorem readChunked_payloads {out body : List UInt8} {s : Stream} (h : readChunked out s = .ok body) :
    ∃ payloads, Payloads s payloads ∧ body = out ++ payloads.flatten := by
  fun_induction readChunked out s with
  | case1 => cases h
  | case2 out s rest hsize =>
    cases h
    exact ⟨[], .last hsize, by simp⟩
  | case3 => cases h
  | case4 => cases h
  | case5 => cases h
  | case6 out s size rest hsize hmore _ hfits chunk rest' hread ih =>
    obtain ⟨payloads, hpayloads, rfl⟩ := ih h
    exact ⟨chunk :: payloads, .chunk hsize hmore hread hpayloads, by simp⟩

/-- Where `read_chunked` finds fault with what has arrived, so does a decoder. -/
theorem Follows.owes_refused (hfollows : Follows nextSize (· ≠ .badChunkSize ""))
    {out : List UInt8} {s inner : Stream} {fault : Fault} (h : readChunked out s = .error fault)
    (hfault : fault.ofContent) (hs : Delimited s) (hline : sizeLine inner = s.readLine) :
    ∃ body e, Owes nextSize ⟨inner, 0, false⟩ body (some e) := by
  fun_induction readChunked out s generalizing inner with
  | case1 out s other hsize =>
    cases h
    obtain ⟨e, he⟩ := hfollows.owes_size_refused hline hsize (by
      rcases hfault with ⟨line, hne, rfl⟩ | ⟨e, -, rfl⟩
      · exact fun heq => hne (Fault.badChunkSize.inj heq)
      · exact fun heq => by cases heq)
    exact ⟨[], e, he⟩
  | case2 => cases h
  | case3 =>
    cases h
    rcases hfault with ⟨_, -, hfault⟩ | ⟨_, -, hfault⟩ <;> cases hfault
  | case4 =>
    cases h
    rcases hfault with ⟨_, -, hfault⟩ | ⟨_, -, hfault⟩ <;> cases hfault
  | case5 out s size rest hsize hmore _ hfits e hread =>
    cases h
    rcases hfault with ⟨_, -, hfault⟩ | ⟨e', he, hfault⟩
    · cases hfault
    · cases hfault
      obtain ⟨bytes, hbytes⟩ := hfollows.owes_failure hline hsize hmore hread he
      exact ⟨bytes, e, hbytes⟩
  | case6 out s size rest hsize hmore _ hfits chunk rest' hread ih =>
    obtain ⟨next, rfl, hnext⟩ := hs.next hsize hmore hread
    rw [readLine_break] at ih h
    obtain ⟨body, e, howes⟩ := ih h hnext (sizeLine_break next)
    exact ⟨chunk ++ body, e, hfollows.owes_chunk hline hsize hmore hread howes⟩

/-- Where the stream is over before a size line, `ChunkedReader` is at its end. -/
theorem ChunkedReader.owes_cut {out : List UInt8} {s inner : Stream}
    (h : readChunked out s = .error (.badChunkSize "")) (hs : Delimited s)
    (hline : sizeLine inner = s.readLine) :
    ∃ body, Owes ChunkedReader.nextSize ⟨inner, 0, false⟩ body none := by
  fun_induction readChunked out s generalizing inner with
  | case1 out s other hsize =>
    cases h
    rcases readChunkSize_eq_error hsize with ⟨_, _, -, hfault⟩ | ⟨line, rest, hread, -, hfault⟩
    · cases hfault
    · cases hfault
      have hend : ChunkedReader.nextSize inner = (.ok 0, rest) := by
        simp [ChunkedReader.nextSize, hline, hread, Text.isEmpty]
      exact ⟨[], .last hend⟩
  | case2 => cases h
  | case3 => cases h
  | case4 => cases h
  | case5 => cases h
  | case6 out s size rest hsize hmore _ hfits chunk rest' hread ih =>
    obtain ⟨next, rfl, hnext⟩ := hs.next hsize hmore hread
    rw [readLine_break] at ih h
    obtain ⟨body, howes⟩ := ih h hnext (sizeLine_break next)
    exact ⟨chunk ++ body, ChunkedReader.follows.owes_chunk hline hsize hmore hread howes⟩

section
variable {s : Stream} (hs : Delimited s) (hstart : StartsVisible s)
include hs hstart

/-- The payloads of a stream are delivered whole, however many there are. -/
theorem ChunkedReader.delivers_payloads {payloads : List (List UInt8)} (h : Payloads s payloads)
    (calls : List Call) :
    Delivered payloads.flatten none calls (drain ChunkedReader.read calls (.new s)) :=
  (ChunkedReader.follows.owes_payloads h hs (sizeLine_start hstart)).delivers calls

theorem ChunkedReader.agrees : Agrees (readChunked [] s) Fault.ofContent
    (drain ChunkedReader.read · (.new s)) := by
  refine ⟨fun body h calls => ?_, fun fault h hfault => ?_⟩
  · obtain ⟨payloads, hpayloads, rfl⟩ := readChunked_payloads h
    exact ChunkedReader.delivers_payloads hs hstart hpayloads calls
  · obtain ⟨body, e, howes⟩ :=
      ChunkedReader.follows.owes_refused h hfault hs (sizeLine_start hstart)
    exact ⟨body, e, howes.delivers⟩

end

end MarloweAgent.Net
