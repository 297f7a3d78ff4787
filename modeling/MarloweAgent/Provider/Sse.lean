import MarloweAgent.Library.Lines
import MarloweAgent.Library.Reader
import MarloweAgent.Mcp.Client

/-! `text/event-stream`, decoded as it lands, and the grammar it is held against: blank lines
end events, an event is its `data:` lines, and the stream is over with the first event that
is the sentinel. The decoder agrees with the grammar but for a sentinel that no blank line
ends. -/

namespace MarloweAgent.Provider
open Contract Library Mcp

/-- One decoded event. -/
inductive Frame
  | data (payload : String)
  | done
  deriving DecidableEq, Repr

/-- The sentinel. -/
def doneText : String := "[DONE]"

/-- A stream of events over what arrives. A line that is not text is a failed read. -/
structure SseStream where
  reader : List (Arrival Char IoError)
  finished : Bool
  bytesSeen : Nat
  commentsSeen : Nat
  deriving DecidableEq, Repr

/-- A line less the characters that end it. -/
def lineOf (raw : List Char) : List Char := raw.rdropWhile fun c => c = '\r' || c = '\n'

namespace SseStream

def new (reader : List (Arrival Char IoError)) : SseStream :=
  { reader, finished := false, bytesSeen := 0, commentsSeen := 0 }

/-- A line that is read is gone. -/
theorem length_rest_lt {arrivals rest : List (Arrival Char IoError)} {c : Char} {raw : List Char}
    (h : Arrival.readThrough (· = '\n') arrivals = (.ok (c :: raw), rest)) :
    rest.length < arrivals.length := by
  have hne : arrivals ≠ [] := by
    rintro rfl
    cases h
  have hlt := Arrival.length_readThrough_lt (· = '\n') hne
  rwa [h] at hlt

/-- The loop of `next_frame`, with the data of the event so far. -/
def nextFrameWith (data : List String) (s : SseStream) :
    Option (Except IoError Frame) × SseStream :=
  match _hread : Arrival.readThrough (· = '\n') s.reader with
  | (.error e, rest) => (some (.error e), { s with reader := rest, finished := true })
  | (.ok [], rest) =>
    -- A partial event at the end of the stream is still an event.
    (if data = [] then none else some (.ok (.data (Text.join "\n" data))),
      { s with reader := rest, finished := true })
  | (.ok (c :: raw), rest) =>
    let s := { s with reader := rest, bytesSeen := s.bytesSeen + Text.byteLen (c :: raw) }
    let line := lineOf (c :: raw)
    if line = [] then
      if data = [] then nextFrameWith data s
      else
        let joined := Text.join "\n" data
        if Text.trim joined = doneText then (some (.ok .done), { s with finished := true })
        else (some (.ok (.data joined)), s)
    else
      match Text.stripPrefix line [':'] with
      | some _ => nextFrameWith data { s with commentsSeen := s.commentsSeen + 1 }
      | none =>
        match Text.stripPrefix line "data:".toList with
        | some rest =>
          nextFrameWith (data ++ [String.ofList ((Text.stripPrefix rest [' ']).getD rest)]) s
        | none => nextFrameWith data s
termination_by s.reader.length
decreasing_by all_goals exact length_rest_lt _hread

/-- The next event, or nothing at the end of the stream. -/
def nextFrame (s : SseStream) : Option (Except IoError Frame) × SseStream :=
  if s.finished then (none, s) else nextFrameWith [] s

/-- A call ends the stream, or reads some of it. -/
theorem nextFrameWith_advances (data : List String) (s : SseStream) :
    (nextFrameWith data s).2.finished = true ∨
      (nextFrameWith data s).2.reader.length < s.reader.length := by
  fun_induction nextFrameWith data s with
  | case1 data s e rest hread => exact .inl rfl
  | case2 data s rest hread => exact .inl rfl
  | case3 s c raw rest hread _ line hline ih =>
    exact ih.imp_right fun h => h.trans (length_rest_lt hread)
  | case4 data s c raw rest hread _ line hline hdata joined hdone => exact .inl rfl
  | case5 data s c raw rest hread => exact .inr (length_rest_lt hread)
  | case6 data s c raw rest hread _ line hline more hcomment ih =>
    exact ih.imp_right fun h => h.trans (length_rest_lt hread)
  | case7 data s c raw rest hread _ line hline hcomment more hdata ih =>
    exact ih.imp_right fun h => h.trans (length_rest_lt hread)
  | case8 data s c raw rest hread _ line hline hcomment hdata ih =>
    exact ih.imp_right fun h => h.trans (length_rest_lt hread)

/-- What a stream yields, call by call. -/
def frames (s : SseStream) : List (Except IoError Frame) :=
  if _hs : s.finished then []
  else
    match _h : nextFrame s with
    | (none, _) => []
    | (some frame, s') => frame :: frames s'
termination_by if s.finished then 0 else s.reader.length + 1
decreasing_by
  rw [nextFrame, if_neg _hs] at _h
  have hadvance : s'.finished = true ∨ s'.reader.length < s.reader.length :=
    by simpa only [_h] using nextFrameWith_advances [] s
  simp only [_hs, Bool.false_eq_true, if_false]
  rcases hadvance with hfinished | hread
  · simp [hfinished]
  · split <;> omega

end SseStream

/-! ## The grammar -/

/-- The lines of a text, less what ends them. -/
def lines (text : List Char) : List (List Char) := (splitInclusive '\n' text).map lineOf

/-- The data a line brings to its event: none, where it is a comment or another field. -/
def dataOf (line : List Char) : Option String :=
  match Text.stripPrefix line [':'] with
  | some _ => none
  | none => (Text.stripPrefix line "data:".toList).map fun rest =>
    String.ofList ((Text.stripPrefix rest [' ']).getD rest)

/-- The data between blank lines, event by event. -/
def blocks (lines : List (List Char)) : List (List String) :=
  (lines.splitOn []).map (·.filterMap dataOf)

/-- The event of so much data, where there is any. -/
def event : List String → Option Frame
  | [] => none
  | data =>
    let joined := Text.join "\n" data
    some (if Text.trim joined = doneText then .done else .data joined)

@[simp] theorem event_nil : event [] = none := rfl

theorem event_of_ne_nil {data : List String} (h : data ≠ []) : event data =
    some (if Text.trim (Text.join "\n" data) = doneText then .done
      else .data (Text.join "\n" data)) := by
  cases data with
  | nil => exact absurd rfl h
  | cons first rest => rfl

def upToDone : List Frame → List Frame
  | [] => []
  | .done :: _ => [.done]
  | .data payload :: rest => .data payload :: upToDone rest

/-- The events of a stream of lines, up to and with the sentinel. -/
def events (lines : List (List Char)) : List Frame := upToDone ((blocks lines).filterMap event)

@[simp] theorem blocks_nil : blocks [] = [[]] := rfl

theorem blocks_ne_nil (lines : List (List Char)) : blocks lines ≠ [] := by simp [blocks]

/-- A blank line ends an event, and any other line belongs to the first. -/
theorem blocks_cons (line : List Char) (rest : List (List Char)) : blocks (line :: rest) =
    if line = [] then [] :: blocks rest
    else (blocks rest).modifyHead ((dataOf line).toList ++ ·) := by
  rw [blocks, List.splitOn_cons_eq_if_modifyHead]
  by_cases hline : line = []
  · simp [hline, blocks]
  · rw [if_neg (by simpa using hline), if_neg hline, blocks]
    cases rest.splitOn [] with
    | nil => rfl
    | cons first more => cases hdata : dataOf line <;> simp [hdata]

theorem blocks_blank (lines : List (List Char)) : blocks (lines ++ [[]]) = blocks lines ++ [[]] := by
  simp [blocks, List.splitOn_append_cons_self]

theorem upToDone_append (before after : List Frame) : upToDone (before ++ after) =
    upToDone before ++ if .done ∈ before then [] else upToDone after := by
  induction before with
  | nil => simp [upToDone]
  | cons frame rest ih => cases frame <;> simp [upToDone, ih]

/-! ## The decoder -/

/-- What the decoder makes of the last event, which the end of the stream ends. -/
def atEnd : List String → List Frame
  | [] => []
  | data => [.data (Text.join "\n" data)]

/-- What the decoder makes of the events of a stream. -/
def decode : List (List String) → List Frame
  | [] => []
  | [last] => atEnd last
  | data :: rest =>
    match event data with
    | none => decode rest
    | some .done => [.done]
    | some (.data payload) => .data payload :: decode rest

theorem decode_cons (data : List String) {rest : List (List String)} (h : rest ≠ []) :
    decode (data :: rest) =
      match event data with
      | none => decode rest
      | some .done => [.done]
      | some (.data payload) => .data payload :: decode rest := by
  cases rest with
  | nil => exact absurd rfl h
  | cons next more => rfl

theorem decode_concat (front : List (List String)) (last : List String) :
    decode (front ++ [last]) = upToDone (front.filterMap event) ++
      if .done ∈ front.filterMap event then [] else atEnd last := by
  induction front with
  | nil => simp [decode, upToDone]
  | cons data rest ih =>
    rw [List.cons_append, decode_cons data (by simp)]
    cases hevent : event data with
    | none => simp [hevent, ih]
    | some frame => cases frame <;> simp [hevent, ih, upToDone]

namespace SseStream

/-- What is left of a stream in the middle of an event. -/
def framesWith (data : List String) (s : SseStream) : List (Except IoError Frame) :=
  match nextFrameWith data s with
  | (none, _) => []
  | (some frame, s') => frame :: frames s'

theorem frames_of_finished {s : SseStream} (h : s.finished = true) : frames s = [] := by
  rw [frames, dif_pos h]

theorem frames_of_unfinished {s : SseStream} (h : s.finished = false) :
    frames s = framesWith [] s := by
  rw [frames, dif_neg (by simp [h]), nextFrame, if_neg (by simp [h]), framesWith]
  split <;> simp_all

/-- One line of a stream that arrives whole: a blank one ends the event, if there is one. -/
theorem framesWith_line (data : List String) {s : SseStream} {raw : List Char}
    {rest : List (Arrival Char IoError)} (hs : s.finished = false) (hraw : raw ≠ [])
    (hread : Arrival.readThrough (· = '\n') s.reader = (.ok raw, rest)) :
    ∃ s', s'.finished = false ∧ s'.reader = rest ∧ framesWith data s =
      if lineOf raw = [] then
        match event data with
        | none => framesWith [] s'
        | some .done => [.ok .done]
        | some (.data payload) => .ok (.data payload) :: framesWith [] s'
      else framesWith (data ++ (dataOf (lineOf raw)).toList) s' := by
  obtain ⟨c, raw, rfl⟩ := List.exists_cons_of_ne_nil hraw
  rw [framesWith]
  fun_cases nextFrameWith data s with
  | case1 e more hmore => cases hread.symm.trans hmore
  | case2 more hmore => cases hread.symm.trans hmore
  | case3 c' raw' more hmore s' line hline hdata =>
    cases hread.symm.trans hmore
    subst hdata
    refine ⟨s', hs, rfl, ?_⟩
    rw [if_pos hline]
    rfl
  | case4 c' raw' more hmore s' line hline hdata joined hdone =>
    cases hread.symm.trans hmore
    refine ⟨s', hs, rfl, ?_⟩
    rw [if_pos hline, event_of_ne_nil hdata, if_pos hdone]
    exact congrArg (_ :: ·) (frames_of_finished rfl)
  | case5 c' raw' more hmore s' line hline hdata joined hdone =>
    cases hread.symm.trans hmore
    refine ⟨s', hs, rfl, ?_⟩
    rw [if_pos hline, event_of_ne_nil hdata, if_neg hdone]
    exact congrArg (_ :: ·) (frames_of_unfinished hs)
  | case6 c' raw' more hmore s' line hline after hcomment =>
    cases hread.symm.trans hmore
    refine ⟨{ s' with commentsSeen := s'.commentsSeen + 1 }, hs, rfl, ?_⟩
    rw [if_neg hline, dataOf, hcomment]
    simp [framesWith]
  | case7 c' raw' more hmore s' line hline hcomment after hdata =>
    cases hread.symm.trans hmore
    refine ⟨s', hs, rfl, ?_⟩
    rw [if_neg hline, dataOf, hcomment, hdata]
    rfl
  | case8 c' raw' more hmore s' line hline hcomment hdata =>
    cases hread.symm.trans hmore
    refine ⟨s', hs, rfl, ?_⟩
    rw [if_neg hline, dataOf, hcomment, hdata]
    simp [framesWith]

/-- A line, and then a text whose frames are known. -/
theorem framesWith_cons {data : List String} {s : SseStream} {raw rest : List Char}
    (hs : s.finished = false) (hraw : raw ≠ [])
    (hread : Arrival.readThrough (· = '\n') s.reader = (.ok raw, rest.map .item))
    (ih : ∀ data s, s.finished = false → s.reader = rest.map .item →
      framesWith data s = (decode ((blocks (lines rest)).modifyHead (data ++ ·))).map .ok) :
    framesWith data s =
      (decode ((blocks (lineOf raw :: lines rest)).modifyHead (data ++ ·))).map .ok := by
  obtain ⟨s', hs', hrest, hframes⟩ := framesWith_line data hs hraw hread
  obtain ⟨first, more, hmore⟩ := List.exists_cons_of_ne_nil (blocks_ne_nil (lines rest))
  rw [hframes, blocks_cons]
  by_cases hline : lineOf raw = []
  · have hafter := ih [] s' hs' hrest
    rw [hmore, List.modifyHead_cons, List.nil_append] at hafter
    rw [if_pos hline, if_pos hline, hafter, hmore, List.modifyHead_cons, List.append_nil,
      decode_cons data (by simp)]
    cases hevent : event data with
    | none => rfl
    | some frame => cases frame <;> rfl
  · rw [if_neg hline, if_neg hline, ih _ s' hs' hrest, List.modifyHead_modifyHead]
    simp [Function.comp_def]

theorem framesWith_nil {data : List String} {s : SseStream} (hreader : s.reader = []) :
    framesWith data s = (decode ((blocks (lines [])).modifyHead (data ++ ·))).map .ok := by
  rw [framesWith, nextFrameWith.eq_def, hreader]
  cases data with
  | nil => rfl
  | cons first rest =>
    show _ :: frames _ = _
    rw [frames_of_finished rfl]
    simp [lines, splitInclusive, decode, atEnd]

/-- A stream that arrives whole yields what the decoder makes of its lines. -/
theorem framesWith_text (text : List Char) (data : List String) (s : SseStream)
    (hs : s.finished = false) (hreader : s.reader = text.map .item) :
    framesWith data s = (decode ((blocks (lines text)).modifyHead (data ++ ·))).map .ok := by
  have hother {l : List Char} (hl : '\n' ∉ l) : ∀ c ∈ l, decide (c = '\n') = false := fun c hc => by
    simpa using ne_of_mem_of_not_mem hc hl
  induction text using lines_induction '\n' generalizing data s with
  | nil => exact framesWith_nil hreader
  | last l hne hl =>
    have hread : Arrival.readThrough (· = '\n') s.reader = (.ok l, ([] : List Char).map .item) := by
      rw [hreader]
      exact Arrival.readThrough_last (hother hl)
    rw [framesWith_cons hs hne hread fun _ _ _ hnil => framesWith_nil hnil, lines, lines,
      splitInclusive_last hne hl]
    rfl
  | line l rest hl ih =>
    have hread : Arrival.readThrough (· = '\n') s.reader = (.ok (l ++ ['\n']), rest.map .item) := by
      rw [hreader]
      exact Arrival.readThrough_line (hother hl) (by simp)
    rw [framesWith_cons hs (by simp) hread ih, lines, lines, splitInclusive_line hl]
    rfl

theorem frames_new (text : List Char) :
    frames (new (text.map .item)) = (decode (blocks (lines text))).map .ok := by
  rw [frames_of_unfinished rfl, framesWith_text text [] _ rfl rfl]
  cases blocks (lines text) <;> rfl

end SseStream

/-! ## The last event -/

/-- A text with the blank line that ends its last event. -/
def terminated (text : List Char) : List Char :=
  if text = [] ∨ text.getLast? = some '\n' then text ++ ['\n'] else text ++ ['\n', '\n']

theorem lines_end {text : List Char} (hne : text ≠ []) (hlast : text.getLast? ≠ some '\n') :
    lines (text ++ ['\n']) = lines text := by
  induction text using lines_induction '\n' with
  | nil => exact absurd rfl hne
  | last l hne hl =>
    rw [lines, lines, splitInclusive_line hl, splitInclusive_last hne hl]
    simp [splitInclusive, lineOf, rdropWhile_append_blank]
  | line l rest hl ih =>
    cases rest with
    | nil => simp at hlast
    | cons c rest =>
      have hafter := ih (List.cons_ne_nil c rest) (by simpa using hlast)
      rw [lines, lines] at hafter
      rw [lines, lines, List.append_assoc, List.cons_append, splitInclusive_line hl,
        splitInclusive_line hl, List.map_cons, List.map_cons, hafter]

theorem lines_blank (text : List Char) : lines (terminated text) = lines text ++ [[]] := by
  have hnewline : (splitInclusive '\n' ['\n']).map lineOf = [[]] := by decide
  unfold terminated
  split
  next h =>
    rcases h with rfl | h
    · exact hnewline
    · obtain ⟨front, rfl⟩ : ∃ front, text = front ++ ['\n'] := by
        obtain ⟨l, hl⟩ := List.getLast?_eq_some_iff.mp h
        exact ⟨l, hl⟩
      rw [List.append_assoc, List.singleton_append, lines, splitInclusive_append, List.map_append,
        hnewline, lines]
  next h =>
    rw [not_or] at h
    have hend : lines (text ++ '\n' :: ['\n']) = lines (text ++ ['\n']) ++ [[]] := by
      rw [lines, splitInclusive_append, List.map_append, hnewline, lines]
    rw [hend, lines_end h.1 h.2]

/-- The blank line adds no event, and leaves none to the end of the stream. -/
theorem decode_blank (lines : List (List Char)) : decode (blocks (lines ++ [[]])) = events lines := by
  rw [blocks_blank, decode_concat, events, atEnd]
  simp

/-- The decoder yields the events of a text, and the same where a blank line ends it. -/
def Conforms (text : List Char) : Prop :=
  (SseStream.new (text.map .item)).frames = (events (lines text)).map .ok ∧
    (SseStream.new (text.map .item)).frames = (SseStream.new ((terminated text).map .item)).frames

/-- The sentinel is the last event, no event before it is, and no blank line ends it. -/
def CutOffDone (lines : List (List Char)) : Prop :=
  event ((blocks lines).getLast (blocks_ne_nil lines)) = some .done ∧
    .done ∉ (blocks lines).dropLast.filterMap event

/-- The end of the stream and a blank line make the same of an event that is not the sentinel. -/
theorem atEnd_eq_iff (data : List String) :
    atEnd data = (event data).toList ↔ event data ≠ some .done := by
  cases data with
  | nil => simp [atEnd]
  | cons first rest =>
    rw [event_of_ne_nil (List.cons_ne_nil first rest), atEnd.eq_2 _ (List.cons_ne_nil first rest)]
    split <;> simp

theorem upToDone_toList (frame : Option Frame) : upToDone frame.toList = frame.toList := by
  rcases frame with _ | (_ | _) <;> rfl

theorem decode_eq_iff (lines : List (List Char)) :
    decode (blocks lines) = events lines ↔ ¬ CutOffDone lines := by
  have hblocks := List.dropLast_append_getLast (blocks_ne_nil lines)
  have hevents : events lines = upToDone ((blocks lines).dropLast.filterMap event) ++
      if .done ∈ (blocks lines).dropLast.filterMap event then []
      else (event ((blocks lines).getLast (blocks_ne_nil lines))).toList := by
    have hlast (data : List String) : [data].filterMap event = (event data).toList := by
      cases h : event data <;> simp [h]
    conv_lhs => rw [events, ← hblocks, List.filterMap_append, upToDone_append, hlast,
      upToDone_toList]
  have hdecode := decode_concat (blocks lines).dropLast ((blocks lines).getLast (blocks_ne_nil lines))
  rw [hblocks] at hdecode
  rw [hdecode, hevents, List.append_cancel_left_eq, CutOffDone]
  by_cases hdone : .done ∈ (blocks lines).dropLast.filterMap event
  · simp [hdone]
  · rw [if_neg hdone, if_neg hdone, atEnd_eq_iff]
    simp [hdone]

/-- Decoding follows the grammar but for a sentinel that the end of the stream ends. -/
theorem conforms_iff (text : List Char) : Conforms text ↔ ¬ CutOffDone (lines text) := by
  have hok : Function.Injective (List.map (Except.ok : Frame → Except IoError Frame)) :=
    List.map_injective_iff.mpr fun _ _ => Except.ok.inj
  rw [Conforms, SseStream.frames_new, SseStream.frames_new, lines_blank, decode_blank, and_self,
    hok.eq_iff, decode_eq_iff]

/-- A sentinel that no blank line ends is read as data. -/
theorem done_cut_off : ¬ Conforms "data: [DONE]".toList := by
  rw [Conforms, SseStream.frames_new]
  rintro ⟨hframes, -⟩
  exact absurd hframes (by decide +kernel)

end MarloweAgent.Provider
