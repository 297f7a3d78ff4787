import MarloweAgent.Exec.Numbering
import MarloweAgent.Library.Paging

/-! The `read` of a file. A read shows a window: so many lines and so many bytes of them, with
their numbers, and a notice that names the next range where something is left. Lines that a
window has no room for are on later ones, but for a line too long for any window, and the
reading ends where a window shows all its range asks for. -/

namespace MarloweAgent.Exec
open Contract Library Net Permission Tools Loop

/-! ## The bytes of a file -/

def maxReadBytes : Nat := 4 * 1024 * 1024

/-- `ReadOutcome`, with the text that was read. -/
inductive ReadOutcome
  | whole (text : List Char)
  | capped (text : List Char)
  | notText (bytes : Nat)

/-- `String::from_utf8`. -/
def fromUtf8 (bytes : List UInt8) : Option (List Char) :=
  (String.fromUTF8? ⟨bytes.toArray⟩).map String.toList

/-- `Utf8Error::valid_up_to`. -/
def validUpTo (bytes : List UInt8) : Nat :=
  ((List.range (bytes.length + 1)).reverse.find? fun n => (fromUtf8 (bytes.take n)).isSome).getD 0

/-- `clone_and_read`: one byte past the cap tells a file at the cap from a longer one. -/
def cloneAndRead (file : List UInt8) : ReadOutcome :=
  let taken := file.take (maxReadBytes + 1)
  let capped := maxReadBytes < taken.length
  let bytes := taken.take maxReadBytes
  match fromUtf8 bytes with
  | some text => if capped then .capped text else .whole text
  | none =>
    let valid := validUpTo bytes
    if capped ∧ 0 < valid then .capped ((fromUtf8 (bytes.take valid)).getD [])
    else .notText taken.length

/-! ## A window -/

def readWindowLines : Nat := 2000

def readWindowBytes : Nat := 32 * 1024

def largeFileShareOfContext : Nat := 4

/-- `estimate_tokens_of`. -/
def estimateTokensOf (bytes : Nat) : Nat := min ((bytes + 2) / 3) (2 ^ 32 - 1)

/-- `str::lines().count()`. -/
def lineCount (text : List Char) : Nat := (Text.lines (String.ofList text)).length

/-- `cut_to_whole_lines`. -/
def cutToWholeLines (text : List Char) (cap : Nat) : List Char × Nat :=
  let hard := upToBoundary text cap
  let cut := if '\n' ∈ hard then hard.rdropWhile (· ≠ '\n') else hard
  (cut, lineCount cut)

/-- What a read shows: numbered lines, the number of the first, how many there are, and how many
were asked for. -/
structure Page where
  shown : List Char
  first : Nat
  kept : Nat
  selected : Nat
  deriving DecidableEq, Repr

/-- The window on what was selected. -/
def window (selection : List Char) (first : Nat) : Page :=
  let selected := lineCount selection
  let long := readWindowLines < selected
  let numbered := numberLines (if long then takeLines selection readWindowLines else selection) first
  if readWindowBytes < Text.byteLen numbered then
    let (cut, lines) := cutToWholeLines numbered readWindowBytes
    { shown := cut, first, kept := lines, selected }
  else { shown := numbered, first, kept := if long then readWindowLines else selected, selected }

/-- What a notice names: the lines that are shown, of how many, and where the next range ends. -/
structure Notice where
  first : Nat
  last : Nat
  total : Nat
  nextEnd : Nat
  deriving DecidableEq, Repr

/-- The range to continue with. -/
def Notice.range (notice : Notice) : String := toString (notice.last + 1) ++ "-" ++ toString notice.nextEnd

def Page.notice (page : Page) (total : Nat) : Option Notice :=
  if page.kept < page.selected then
    let last := page.first + page.kept - 1
    some { first := page.first, last, total, nextEnd := min (last + readWindowLines) total }
  else none

/-- What the range selects, or why it selects nothing. -/
def select (text : List Char) (range : Option String) : Except String (List Char × Nat) :=
  match range with
  | none => .ok (text, 1)
  | some range =>
    let total := lineCount text
    match sliceLines text range with
    | .ok (sliced, first) =>
      if sliced = [] ∧ 0 < total then
        .error ("`range` \"" ++ range ++ s!"\" selected no lines: the file has {total}. Ask for a "
          ++ s!"range inside 1-{total}, or omit `range` for the whole file.")
      else .ok (sliced, first)
    | .error why => .error why

def readPage (text : List Char) (range : Option String) : Except String Page :=
  (select text range).map fun (selection, first) => window selection first

/-! ## The tool -/

/-- What the whole numbered file would cost. -/
def wholeFileTokens (text : List Char) : Nat :=
  estimateTokensOf (Text.byteLen text + lineCount text * (lineNumberWidth + 1))

def cappedNotice : String :=
  s!"\n\n[the harness stopped reading at {maxReadBytes} bytes. The file is longer "
    ++ "than this and the text above is a prefix.]"

/-- The cost is named where it is a large share of the context. -/
def Notice.render (notice : Notice) (contextTokens tokens : Nat) : String :=
  let cost :=
    if contextTokens / largeFileShareOfContext < tokens then
      s!" The whole file is about {tokens} tokens; to find something "
        ++ "specific, `grep` searches inside files and returns `path:line:text`."
    else ""
  s!"\n\n[showing lines {notice.first}-{notice.last} of {notice.total}. Continue with range \""
    ++ notice.range ++ "\"." ++ cost ++ "]"

/-- A page as the tool hands it over: the trailers stand behind it, without a number. -/
def Page.outcome (page : Page) (contextTokens : Nat) (text : List Char) (capped : Bool) : ToolOutcome :=
  let body := String.ofList page.shown ++ (if capped then cappedNotice else "")
    ++ ((page.notice (lineCount text)).map (·.render contextTokens (wholeFileTokens text))).getD ""
  let metrics := [.count page.kept "lines", .bytes body.utf8ByteSize]
  { summary := .new (if capped then .state "truncated" :: metrics else metrics)
    body := .inline body, trust := .agentObserved, failed := false, wallMs := 0, preview := none }

/-- `read` of a `path`, with what reading its handle brought. -/
def read (contextTokens : Nat) (args : Args) (file : Option (Except String (List UInt8))) : ToolOutcome :=
  let readText (text : List Char) (capped : Bool) : ToolOutcome :=
    match readPage text ((args.get "range").bind ArgValue.asText) with
    | .ok page => page.outcome contextTokens text capped
    | .error why => failed "read" why
  match file with
  | none =>
    if (args.get "path").isSome then failed "read" "no adjudicated handle for `path`"
    else
      failed "read" ("supply either `path` (a workspace-relative file) or `ref` (the id a `web` "
        ++ "result reported). Neither was given.")
  | some (.error e) => failed "read" e
  | some (.ok bytes) =>
    match cloneAndRead bytes with
    | .whole text => readText text false
    | .capped text => readText text true
    | .notText n =>
      { summary := .withDetail [.state "binary", .bytes n]
          "this file is not UTF-8 text, so its bytes were not returned"
        body := .inline "", trust := .agentObserved, failed := false, wallMs := 0, preview := none }

/-! ## A text file -/

/-- The file that holds a text. -/
def fileOf (text : List Char) : List UInt8 := (String.ofList text).toByteArray.data.toList

@[simp] theorem length_fileOf (text : List Char) : (fileOf text).length = Text.byteLen text := by
  rw [← Text.utf8ByteSize_ofList, fileOf, Array.length_toList]
  rfl

theorem fromUtf8_fileOf (text : List Char) : fromUtf8 (fileOf text) = some text := by
  have hvalid := (String.ofList text).isValidUTF8
  rw [fromUtf8, fileOf, Array.toArray_toList, String.fromUTF8?, dif_pos hvalid, Option.map_some]
  exact congrArg some String.toList_ofList

/-- A text file within the cap is read as it is. -/
theorem cloneAndRead_text {text : List Char} (hcap : Text.byteLen text ≤ maxReadBytes) :
    cloneAndRead (fileOf text) = .whole text := by
  have htaken : (fileOf text).take (maxReadBytes + 1) = fileOf text :=
    List.take_of_length_le (by rw [length_fileOf]; omega)
  have hbytes : (fileOf text).take maxReadBytes = fileOf text :=
    List.take_of_length_le (by rwa [length_fileOf])
  unfold cloneAndRead
  dsimp only
  rw [htaken, hbytes, fromUtf8_fileOf, length_fileOf]
  exact if_neg (Nat.not_lt.mpr hcap)

/-! ## Numbered lines -/

/-- Lines with their numbers, each line on its own. -/
def numbered (ls : List (List Char)) (first : Nat) : List (List Char) :=
  ls.mapIdx fun i line => linePrefix (first + i) ++ line

theorem lined_numbered {ls : List (List Char)} (hls : Lined '\n' ls) (first : Nat) :
    Lined '\n' (numbered ls first) :=
  hls.mapIdx fun i => newline_notMem_linePrefix (first + i)

@[simp] theorem length_numbered (ls : List (List Char)) (first : Nat) :
    (numbered ls first).length = ls.length := List.length_mapIdx

theorem numbered_take (ls : List (List Char)) (first n : Nat) :
    numbered (ls.take n) first = (numbered ls first).take n := by
  refine List.ext_getElem? fun i => ?_
  simp only [numbered, List.getElem?_mapIdx, List.getElem?_take]
  split <;> rfl

/-- Numbers are those of the whole text wherever the lines are taken from. -/
theorem numbered_drop (ls : List (List Char)) (first n : Nat) :
    numbered (ls.drop n) (first + n) = (numbered ls first).drop n := by
  refine List.ext_getElem? fun i => ?_
  simp only [numbered, List.getElem?_mapIdx, List.getElem?_drop, Nat.add_assoc]

theorem numberLines_flatten {ls : List (List Char)} (hls : Lined '\n' ls) (first : Nat) :
    numberLines ls.flatten first = (numbered ls first).flatten := by
  rw [numberLines, hls.splitInclusive_flatten, numbered]

theorem lineCount_flatten {ls : List (List Char)} (hls : Lined '\n' ls) :
    lineCount ls.flatten = ls.length := by
  rw [lineCount, lines_eq, hls.splitInclusive_flatten, List.length_map]

theorem takeLines_flatten {ls : List (List Char)} (hls : Lined '\n' ls) (n : Nat) :
    takeLines ls.flatten n = (ls.take n).flatten := by
  rw [takeLines, hls.splitInclusive_flatten]

/-! ## Cuts -/

theorem byteLen_append (a b : List Char) :
    Text.byteLen (a ++ b) = Text.byteLen a + Text.byteLen b := by
  rw [Text.byteLen, List.map_append, List.sum_append]
  rfl

theorem byteLen_flatten (ls : List (List Char)) :
    Text.byteLen ls.flatten = (ls.map Text.byteLen).sum := by
  induction ls with
  | nil => rfl
  | cons l ls ih => rw [List.flatten_cons, byteLen_append, ih, List.map_cons, List.sum_cons]

theorem upToBoundary_isPrefix (text : List Char) (cap : Nat) : upToBoundary text cap <+: text := by
  induction text generalizing cap with
  | nil => exact List.nil_prefix
  | cons c rest ih =>
    rw [upToBoundary]
    split
    next => exact (List.prefix_cons_inj c).mpr (ih _)
    next => exact List.nil_prefix

theorem byteLen_upToBoundary (text : List Char) (cap : Nat) :
    Text.byteLen (upToBoundary text cap) ≤ cap := by
  induction text generalizing cap with
  | nil => exact Nat.zero_le _
  | cons c rest ih =>
    rw [upToBoundary]
    split
    next hfits =>
      have hrest := ih (cap - c.utf8Size)
      show c.utf8Size + Text.byteLen _ ≤ cap
      omega
    next => exact Nat.zero_le _

/-- What fits is kept, and the cut is behind it. -/
theorem upToBoundary_append_of_le {a : List Char} {cap : Nat} (h : Text.byteLen a ≤ cap)
    (b : List Char) : upToBoundary (a ++ b) cap = a ++ upToBoundary b (cap - Text.byteLen a) := by
  induction a generalizing cap with
  | nil => rfl
  | cons c a ih =>
    have hlength : Text.byteLen (c :: a) = c.utf8Size + Text.byteLen a := rfl
    rw [hlength] at h ⊢
    rw [List.cons_append, upToBoundary, if_pos (by omega), ih (by omega), Nat.sub_sub, List.cons_append]

/-- What does not fit is cut itself. -/
theorem upToBoundary_append_of_lt {a : List Char} {cap : Nat} (h : cap < Text.byteLen a)
    (b : List Char) : upToBoundary (a ++ b) cap = upToBoundary a cap := by
  induction a generalizing cap with
  | nil => exact absurd h (Nat.not_lt_zero _)
  | cons c a ih =>
    have hlength : Text.byteLen (c :: a) = c.utf8Size + Text.byteLen a := rfl
    rw [hlength] at h
    rw [List.cons_append, upToBoundary, upToBoundary]
    split
    next => rw [ih (by omega)]
    next => rfl

/-- A line that is cut has lost its end. -/
theorem newline_notMem_cut {l : List Char} (hl : '\n' ∉ l) {cap : Nat}
    (hover : cap < Text.byteLen (l ++ ['\n'])) : '\n' ∉ upToBoundary (l ++ ['\n']) cap := by
  intro hmem
  rcases List.prefix_concat_iff.mp (upToBoundary_isPrefix (l ++ ['\n']) cap) with hall | hbefore
  · have hle := byteLen_upToBoundary (l ++ ['\n']) cap
    rw [hall] at hle
    omega
  · exact hl (hbefore.subset hmem)

/-- Lines that do not fit are cut behind those that do, within the next. -/
theorem upToBoundary_lines {ls : List (List Char)} (hls : Lined '\n' ls) {cap : Nat}
    (hover : cap < Text.byteLen ls.flatten) :
    ∃ part, upToBoundary ls.flatten cap = (ls.take (fitting Text.byteLen cap ls)).flatten ++ part ∧
      '\n' ∉ part := by
  induction hls generalizing cap with
  | nil => exact absurd hover (Nat.not_lt_zero _)
  | @last l hne hl =>
    rw [List.flatten_singleton] at hover ⊢
    refine ⟨upToBoundary l cap, ?_, fun hmem => hl ((upToBoundary_isPrefix l cap).subset hmem)⟩
    rw [fitting, if_neg (by omega)]
    rfl
  | @line l ls hl hrest ih =>
    rw [List.flatten_cons] at hover ⊢
    rw [fitting]
    split
    next hfits =>
      rw [byteLen_append] at hover
      obtain ⟨part, hcut, hpart⟩ := ih (show cap - Text.byteLen (l ++ ['\n']) < _ by omega)
      refine ⟨part, ?_, hpart⟩
      rw [upToBoundary_append_of_le hfits, hcut, List.take_succ_cons, List.flatten_cons,
        ← List.append_assoc]
    next hlong =>
      have hlong : cap < Text.byteLen (l ++ ['\n']) := by omega
      exact ⟨_, upToBoundary_append_of_lt hlong _, newline_notMem_cut hl hlong⟩

/-- The cut is behind the last line that fits. -/
theorem cutToWholeLines_lines {ls : List (List Char)} (hls : Lined '\n' ls) {cap : Nat}
    (hover : cap < Text.byteLen ls.flatten) (hfits : 0 < fitting Text.byteLen cap ls) :
    cutToWholeLines ls.flatten cap =
      ((ls.take (fitting Text.byteLen cap ls)).flatten, fitting Text.byteLen cap ls) := by
  have hless : fitting Text.byteLen cap ls < ls.length := by
    refine Nat.lt_of_le_of_ne (fitting_le _ _ _) fun hall => ?_
    have hsum := fitting_eq_length_iff.mp hall
    rw [← byteLen_flatten] at hsum
    omega
  obtain ⟨part, hhard, hpart⟩ := upToBoundary_lines hls hover
  obtain ⟨body, hbody⟩ := hls.take_ends hfits hless
  have hcut : (if '\n' ∈ upToBoundary ls.flatten cap then
      (upToBoundary ls.flatten cap).rdropWhile (· ≠ '\n') else upToBoundary ls.flatten cap) =
      (ls.take (fitting Text.byteLen cap ls)).flatten := by
    have hblank : ∀ c ∈ part, decide (c ≠ '\n') = true := fun c hc =>
      decide_eq_true fun heq => hpart (heq ▸ hc)
    rw [hhard, if_pos (by simp [hbody]), rdropWhile_append_blank _ hblank, hbody,
      List.rdropWhile_concat_neg _ _ _ (by simp)]
  unfold cutToWholeLines
  dsimp only
  rw [hcut, lineCount_flatten (hls.take _), List.length_take, Nat.min_eq_left (Nat.le_of_lt hless)]

/-- A first line that does not fit is cut itself, and counts as one. -/
theorem cutToWholeLines_long {l : List Char} {ls : List (List Char)} (hls : Lined '\n' (l :: ls))
    {cap : Nat} (hroom : 4 ≤ cap) (hlong : cap < Text.byteLen l) :
    cutToWholeLines (l :: ls).flatten cap = (upToBoundary l cap, 1) := by
  have hover : cap < Text.byteLen (l :: ls).flatten := by
    rw [List.flatten_cons, byteLen_append]
    omega
  have hhard : upToBoundary (l :: ls).flatten cap = upToBoundary l cap := by
    rw [List.flatten_cons]
    exact upToBoundary_append_of_lt hlong _
  obtain ⟨part, hcut, hpart⟩ := upToBoundary_lines hls hover
  rw [fitting, if_neg (Nat.not_le.mpr hlong), List.take_zero, List.flatten_nil, List.nil_append,
    hhard] at hcut
  have hne : upToBoundary l cap ≠ [] := by
    cases l with
    | nil => exact absurd hlong (Nat.not_lt_zero _)
    | cons c l =>
      rw [upToBoundary, if_pos (Nat.le_trans c.utf8Size_le_four hroom)]
      exact List.cons_ne_nil _ _
  rw [← hcut] at hpart
  unfold cutToWholeLines
  dsimp only
  rw [hhard, if_neg hpart, lineCount, lines_eq, splitInclusive_last hne hpart, List.map_singleton,
    List.length_singleton]

/-! ## Windows -/

/-- How many lines the window on some lines shows. -/
def roomFor (ls : List (List Char)) (first : Nat) : Nat :=
  fitting Text.byteLen readWindowBytes ((numbered ls first).take readWindowLines)

/-- Before the bytes are counted, a window has the lines up to its own count. -/
theorem numberLines_window {ls : List (List Char)} (hls : Lined '\n' ls) (first : Nat) :
    numberLines (if readWindowLines < lineCount ls.flatten then takeLines ls.flatten readWindowLines
      else ls.flatten) first = ((numbered ls first).take readWindowLines).flatten := by
  have htaken : (if readWindowLines < lineCount ls.flatten then takeLines ls.flatten readWindowLines
      else ls.flatten) = (ls.take readWindowLines).flatten := by
    rw [lineCount_flatten hls, takeLines_flatten hls]
    split
    next => rfl
    next hall => rw [List.take_of_length_le (by omega)]
  rw [htaken, numberLines_flatten (hls.take _), numbered_take]

/-- A window shows the lines there is room for, where none is too long for it. -/
theorem window_eq {ls : List (List Char)} (hls : Lined '\n' ls) (first : Nat)
    (hsmall : ∀ line ∈ numbered ls first, Text.byteLen line ≤ readWindowBytes) :
    window ls.flatten first =
      { shown := ((numbered ls first).take (roomFor ls first)).flatten, first
        kept := roomFor ls first, selected := ls.length } := by
  have hlines := (lined_numbered hls first).take readWindowLines
  have htake : ((numbered ls first).take readWindowLines).take (roomFor ls first) =
      (numbered ls first).take (roomFor ls first) := by
    have hle := fitting_le Text.byteLen readWindowBytes ((numbered ls first).take readWindowLines)
    rw [List.length_take] at hle
    rw [List.take_take, Nat.min_eq_left (show roomFor ls first ≤ readWindowLines by
      unfold roomFor; omega)]
  unfold window
  dsimp only
  rw [numberLines_window hls]
  split
  next hover =>
    have hfits : 0 < roomFor ls first := by
      refine fitting_pos (fun hnil => ?_) fun line hline => hsmall line (List.mem_of_mem_take hline)
      rw [hnil] at hover
      exact absurd hover (Nat.not_lt_zero _)
    have hcut := cutToWholeLines_lines hlines hover hfits
    change _ = (List.flatten (List.take (roomFor ls first) _), roomFor ls first) at hcut
    rw [htake] at hcut
    rw [hcut, lineCount_flatten hls]
  next hfits =>
    have hall : roomFor ls first = min readWindowLines ls.length := by
      have hlength := fitting_eq_length_iff.mpr (byteLen_flatten _ ▸ Nat.not_lt.mp hfits)
      rw [List.length_take, length_numbered] at hlength
      exact hlength
    have hshown : (numbered ls first).take (roomFor ls first) =
        (numbered ls first).take readWindowLines := by
      rw [← htake, hall, List.take_of_length_le (by simp)]
    rw [hshown, hall, lineCount_flatten hls]
    split
    next hmore => rw [Nat.min_eq_left (Nat.le_of_lt hmore)]
    next hless => rw [Nat.min_eq_right (Nat.not_lt.mp hless)]

/-- A line too long for a window, asked for alone: some of it is shown, and it counts as shown. -/
theorem window_long {line : List Char} (hline : Lined '\n' [line]) {first : Nat}
    (hlong : readWindowBytes < Text.byteLen (linePrefix first ++ line)) :
    window line first =
      { shown := upToBoundary (linePrefix first ++ line) readWindowBytes, first
        kept := 1, selected := 1 } := by
  have hnumbered : numbered [line] first = [linePrefix first ++ line] := rfl
  have hlines := lined_numbered hline first
  rw [hnumbered] at hlines
  have hnumbers := numberLines_window hline first
  rw [hnumbered, List.take_of_length_le (show 1 ≤ readWindowLines by decide), List.flatten_singleton,
    List.flatten_singleton] at hnumbers
  have hcut := cutToWholeLines_long hlines (by decide) hlong
  rw [List.flatten_singleton] at hcut
  have hcount := lineCount_flatten hline
  rw [List.flatten_singleton] at hcount
  unfold window
  dsimp only
  rw [hnumbers, if_pos hlong, hcut, hcount]
  rfl

end MarloweAgent.Exec
