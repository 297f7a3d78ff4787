import MarloweAgent.Exec.Reading
import Mathlib.Data.List.Infix

/-! The `edit` of a file. A snippet is replaced where it occurs once, and refused where it does
not, but the occurrences that are counted do not overlap. The file is written back through its
handle: it is emptied first, and a write that fails leaves it with what was written by then. -/

namespace MarloweAgent.Exec
open Contract Library Net Permission Tools Loop

/-! ## Refusals -/

def maxEditSitesNamed : Nat := 8

def numberedContentLines : Nat := 2

/-- `text_arg`. -/
def textArg (args : Args) (name : String) : Option String := (args.get name).bind ArgValue.asText

/-- `count_lines`, in 32 bits. -/
def countLines (text : List Char) : Nat := lineCount text % 2 ^ 32

/-- `line_at` of a position in characters. -/
def lineOf (text : List Char) (position : Nat) : Nat := lineAt text (Text.byteLen (text.take position))

/-- Runs of whitespace made one space. -/
def squash (text : List Char) : String := Text.join " " (Text.splitWhitespace (String.ofList text))

/-- `replacing_miss`: why the snippet did not match. -/
def replacingMiss (existing replacing : List Char) : String :=
  let size := s!"{Text.byteLen existing} bytes"
  let lines := s!"{lineCount existing} lines"
  match stripLineNumbers replacing with
  | some stripped =>
    match Text.find existing stripped with
    | some position =>
      s!"`replacing` carries the line-number prefix `read` printed — {lineNumberWidth} characters, then a "
        ++ "tab, in front of every line. `edit` matches the file byte for byte and the file "
        ++ "does not contain those prefixes, so strip them. Stripped, your text IS in the "
        ++ s!"file, starting at line {lineOf existing position}."
    | none =>
      s!"`replacing` carries the line-number prefix `read` printed ({lineNumberWidth} characters then a tab "
        ++ "in front of every line), which `edit` never accepts — strip it. Even stripped the "
        ++ "text was not found, so `read` the file again and copy the snippet from what comes "
        ++ "back, without the prefixes. The file is " ++ size ++ ", " ++ lines ++ "."
  | none =>
    let unix := Text.replace existing ['\r', '\n'] ['\n']
    match if ['\r', '\n'] <:+: existing ∧ '\r' ∉ replacing ∧ '\n' ∈ replacing
        then Text.find unix replacing else none with
    | some position =>
      "`replacing` was not found because the file uses CRLF (`\\r\\n`) line endings and "
        ++ s!"your text uses LF (`\\n`). Apart from that it is there, at line {lineOf unix position}. `read` the "
        ++ "file and copy the snippet from what comes back rather than retyping it."
    | none =>
      if Text.trim (String.ofList replacing) ≠ "" ∧ Text.contains (squash existing) (squash replacing) then
        "`replacing` was not found. The file DOES contain that text apart from whitespace, so "
          ++ "the indentation or line breaks differ — `replacing` must match byte for byte. `read` "
          ++ "the file and copy the snippet exactly as it comes back. The file is " ++ size ++ ", "
          ++ lines ++ "."
      else
        "`replacing` was not found in the file, which is " ++ size ++ " and " ++ lines ++ ". It must match byte "
          ++ "for byte, including indentation. `read` the file first and copy the snippet from what it "
          ++ "returns — or omit `replacing` entirely to overwrite the whole file with `content`."

/-- Where a snippet occurs more than once. -/
def sitesNotice (sites : List Nat) : String :=
  let shown := Text.join ", " ((sites.take maxEditSitesNamed).map toString)
  let rest :=
    if maxEditSitesNamed < sites.length then s!" and {sites.length - maxEditSitesNamed} more" else ""
  s!"`replacing` occurs {sites.length} times, at lines " ++ shown ++ rest ++ ". `edit` changes ONE "
    ++ "snippet, so it must appear exactly once — add a neighbouring line to make it "
    ++ "unique, or edit each site in a separate call. `read` a range around the line "
    ++ "you want. The file is unchanged."

/-! ## Files that fail -/

/-- What fails while a file is edited; a write fails after so many bytes. -/
structure Faults where
  clone : Option String
  read : Option String
  setLen : Option String
  seek : Option String
  write : Option (Nat × String)
  flush : Option String
  deriving DecidableEq, Repr

/-- `read_to_string`. -/
def readToString (faults : Faults) (file : List UInt8) : Except String (List Char) :=
  match faults.read with
  | some e => .error e
  | none => (fromUtf8 file).elim (.error "stream did not contain valid UTF-8") .ok

/-- The write-back, and what the file holds behind it. -/
def writeBack (faults : Faults) (next file : List UInt8) : Except String Unit × List UInt8 :=
  match faults.setLen with
  | some e => (.error e, file)
  | none =>
    match faults.seek with
    | some e => (.error e, [])
    | none =>
      match faults.write with
      | some (n, e) => (.error e, next.take n)
      | none => (faults.flush.elim (.ok ()) .error, next)

/-! ## The tool -/

/-- An edit that nothing speaks against: the text, the snippet and where it is, and what goes there. -/
structure Splice where
  target : ScopedPath
  existing : List Char
  replacing : List Char
  position : Nat
  content : List Char

def Splice.next (splice : Splice) : List Char :=
  splice.existing.take splice.position ++ splice.content
    ++ splice.existing.drop (splice.position + splice.replacing.length)

/-- What is reported of an edit that went through. -/
def Splice.outcome (splice : Splice) : ToolOutcome :=
  { summary := .new [.diff (countLines splice.content) (countLines splice.replacing)]
    body := .inline splice.target.relative, trust := .agentObserved
    failed := false, wallMs := 0, preview := none }

/-- Where the snippet is, or why it is not replaced. -/
def findSite (existing replacing content : List Char) : Except String Nat :=
  if existing = [] then
    .error ("the file is empty, so there is no snippet to replace. Use `write` with `path` "
      ++ "and `content` to create it. (Naming a path here creates it at zero bytes before "
      ++ "this tool runs, so it now exists and is empty.)")
  else
    match Text.find existing replacing with
    | none => .error (replacingMiss existing replacing)
    | some position =>
      let sites := (Text.matchIndices existing replacing).map (lineOf existing)
      if 1 < sites.length then .error (sitesNotice sites)
      else if numberedContentLines ≤ countLines content ∧ (stripLineNumbers content).isSome then
        .error (s!"`content` carries `read`'s line-number prefix ({lineNumberWidth} characters then a tab in "
          ++ "front of every line). Writing that into the file would put the numbers in the "
          ++ "source, so it is refused — strip the prefixes and call `edit` again. If you "
          ++ "really do mean to write numbered text, `write` does that and says so.")
      else .ok position

/-- What `edit` goes through before it writes. -/
def planEdit (args : Args) (handle : Option ScopedPath) (faults : Faults) (file : List UInt8) :
    Except String Splice :=
  match handle with
  | none => .error "no adjudicated handle for `path`"
  | some target =>
    match textArg args "content" with
    | none => .error "`content` is required"
    | some content =>
      match textArg args "replacing" with
      | none =>
        .error ("`replacing` is required: `edit` replaces one exact snippet. To create a file or "
          ++ "replace all of it, use `write` instead.")
      | some replacing =>
        if replacing = "" then
          .error ("`replacing` is empty, which would match at the very start of the file and insert "
            ++ "`content` there rather than replace anything. Give the exact snippet to replace, "
            ++ "or use `write` to replace the whole file.")
        else
          match faults.clone with
          | some e => .error e
          | none =>
            match readToString faults file with
            | .error e => .error e
            | .ok existing =>
              (findSite existing replacing.toList content.toList).map fun position =>
                { target, existing, replacing := replacing.toList, position, content := content.toList }

/-- `edit`, with what the file holds behind it. -/
def edit (args : Args) (handle : Option ScopedPath) (faults : Faults) (file : List UInt8) :
    ToolOutcome × List UInt8 :=
  match planEdit args handle faults file with
  | .error why => (failed "edit" why, file)
  | .ok splice =>
    match writeBack faults (fileOf splice.next) file with
    | (.error e, left) => (failed "edit" e, left)
    | (.ok (), left) => (splice.outcome, left)

/-! ## One place or nothing -/

/-- There is one position that the snippet occurs at, and occurrences that overlap have two. -/
def OccursOnce (replacing existing : List Char) : Prop := ∃! position, replacing <+: existing.drop position

/-- An edit that fails leaves the file as it was; one that succeeds found the snippet at one position,
and there the file has the new content instead. -/
def EditsOnePlace (args : Args) (handle : Option ScopedPath) (faults : Faults) (file : List UInt8) : Prop :=
  ((edit args handle faults file).1.failed = true → (edit args handle faults file).2 = file) ∧
    ((edit args handle faults file).1.failed = false → ∃ content replacing before after,
      textArg args "content" = some content ∧ textArg args "replacing" = some replacing ∧
      fromUtf8 file = some (before ++ replacing.toList ++ after) ∧
      OccursOnce replacing.toList (before ++ replacing.toList ++ after) ∧
      (edit args handle faults file).2 = fileOf (before ++ content.toList ++ after))

/-- Nothing is refused before the write-back: there is a snippet and a text, the one occurs in the
other, not twice without an overlap, and what is put there has no line numbers. -/
structure Reaches (args : Args) (handle : Option ScopedPath) (faults : Faults) (file : List UInt8)
    (splice : Splice) : Prop where
  handle : handle = some splice.target
  content : textArg args "content" = some (String.ofList splice.content)
  replacing : textArg args "replacing" = some (String.ofList splice.replacing)
  nonempty : splice.replacing ≠ []
  clone : faults.clone = none
  read : faults.read = none
  text : fromUtf8 file = some splice.existing
  found : Text.find splice.existing splice.replacing = some splice.position
  sites : (Text.matchIndices splice.existing splice.replacing).length ≤ 1
  plain : ¬ (numberedContentLines ≤ countLines splice.content ∧ (stripLineNumbers splice.content).isSome)

/-- The write-back goes through. -/
structure Faults.Clear (faults : Faults) : Prop where
  setLen : faults.setLen = none
  seek : faults.seek = none
  write : faults.write = none
  flush : faults.flush = none

/-- The write-back fails where the file still has, or has again, what it had: before it is emptied, or when
what is written by then is the old content. -/
def LeavesOld (faults : Faults) (next file : List UInt8) : Prop :=
  faults.setLen.isSome = true ∨ faults.setLen = none ∧ faults.seek = none ∧
    ((∃ n e, faults.write = some (n, e) ∧ next.take n = file) ∨
      faults.write = none ∧ faults.flush.isSome = true ∧ next = file)

theorem findSite_eq_ok {existing replacing content : List Char} {position : Nat} (hne : replacing ≠ []) :
    findSite existing replacing content = .ok position ↔
      Text.find existing replacing = some position ∧ (Text.matchIndices existing replacing).length ≤ 1 ∧
        ¬ (numberedContentLines ≤ countLines content ∧ (stripLineNumbers content).isSome) := by
  unfold findSite
  split
  next hempty =>
    refine ⟨nofun, fun ⟨hfind, _⟩ => ?_⟩
    have hstands := (Text.find_eq_some hfind).1
    rw [hempty, List.drop_nil, List.prefix_nil] at hstands
    exact absurd hstands hne
  next =>
    cases Text.find existing replacing with
    | none => simp
    | some found =>
      dsimp only
      rw [List.length_map]
      split
      next hsites => exact ⟨nofun, fun ⟨_, hfew, _⟩ => by omega⟩
      next hsites =>
        split
        next hnumbered => exact ⟨nofun, fun ⟨_, _, hplain⟩ => absurd hnumbered hplain⟩
        next hplain =>
          rw [Except.ok.injEq, Option.some.injEq]
          exact ⟨fun h => ⟨h, by omega, hplain⟩, fun h => h.1⟩

theorem readToString_eq_ok {faults : Faults} {file : List UInt8} {existing : List Char} :
    readToString faults file = .ok existing ↔ faults.read = none ∧ fromUtf8 file = some existing := by
  unfold readToString
  cases faults.read with
  | some e => simp
  | none => cases fromUtf8 file <;> simp

theorem planEdit_eq_ok {args : Args} {handle : Option ScopedPath} {faults : Faults} {file : List UInt8}
    {splice : Splice} : planEdit args handle faults file = .ok splice ↔
      Reaches args handle faults file splice := by
  constructor
  · intro h
    unfold planEdit at h
    split at h
    next => cases h
    next target =>
      split at h
      next => cases h
      next content hcontent =>
        split at h
        next => cases h
        next replacing hreplacing =>
          split at h
          next => cases h
          next hne =>
            split at h
            next => cases h
            next hclone =>
              split at h
              next => cases h
              next existing hread =>
                obtain ⟨hread, htext⟩ := readToString_eq_ok.mp hread
                have hne : replacing.toList ≠ [] := fun hnil => hne (String.toList_eq_nil_iff.mp hnil)
                cases hsite : findSite existing replacing.toList content.toList with
                | error why =>
                  rw [hsite] at h
                  cases h
                | ok position =>
                  obtain ⟨hfound, hsites, hplain⟩ := (findSite_eq_ok hne).mp hsite
                  rw [hsite] at h
                  cases h
                  exact { handle := rfl, content := by rw [String.ofList_toList]; exact hcontent
                          replacing := by rw [String.ofList_toList]; exact hreplacing
                          nonempty := hne, clone := hclone, read := hread, text := htext
                          found := hfound, sites := hsites, plain := hplain }
  · intro h
    have hne : ¬ String.ofList splice.replacing = "" := fun hempty =>
      h.nonempty (by rw [← String.toList_ofList (l := splice.replacing), hempty]; rfl)
    have hsite := (findSite_eq_ok h.nonempty).mpr ⟨h.found, h.sites, h.plain⟩
    unfold planEdit
    rw [h.handle]
    dsimp only
    rw [h.content]
    dsimp only
    rw [h.replacing]
    dsimp only
    rw [if_neg hne, h.clone]
    dsimp only
    rw [readToString_eq_ok.mpr ⟨h.read, h.text⟩]
    dsimp only
    rw [String.toList_ofList, String.toList_ofList, hsite]
    rfl

/-! ## Writing back -/

theorem writeBack_ok {faults : Faults} {next file : List UInt8} (h : faults.Clear) :
    writeBack faults next file = (.ok (), next) := by
  simp [writeBack, h.setLen, h.seek, h.write, h.flush]

/-- A write-back that fails leaves the old content just where it is not lost. -/
theorem writeBack_error {faults : Faults} {next file : List UInt8} (hne : file ≠ []) (h : ¬ faults.Clear) :
    ∃ e left, writeBack faults next file = (.error e, left) ∧ (left = file ↔ LeavesOld faults next file) := by
  unfold writeBack LeavesOld
  cases hsetLen : faults.setLen with
  | some e => exact ⟨e, file, rfl, by simp⟩
  | none =>
    cases hseek : faults.seek with
    | some e => exact ⟨e, [], rfl, by simp [Ne.symm hne]⟩
    | none =>
      cases hwrite : faults.write with
      | some failure => exact ⟨failure.2, next.take failure.1, rfl, by simp [Prod.ext_iff]⟩
      | none =>
        cases hflush : faults.flush with
        | some e => exact ⟨e, next, rfl, by simp⟩
        | none => exact absurd ⟨hsetLen, hseek, hwrite, hflush⟩ h

/-! ## Edits -/

theorem Reaches.existing_eq {args : Args} {handle : Option ScopedPath} {faults : Faults} {file : List UInt8}
    {splice : Splice} (h : Reaches args handle faults file splice) :
    splice.existing = splice.existing.take splice.position ++ splice.replacing ++
      splice.existing.drop (splice.position + splice.replacing.length) := by
  obtain ⟨after, hafter⟩ := (Text.find_eq_some h.found).1
  rw [← List.drop_drop, ← hafter, List.drop_left, List.append_assoc, hafter, List.take_append_drop]

theorem Reaches.file_ne_nil {args : Args} {handle : Option ScopedPath} {faults : Faults} {file : List UInt8}
    {splice : Splice} (h : Reaches args handle faults file splice) : file ≠ [] := by
  rintro rfl
  have hempty : fromUtf8 [] = some [] := fromUtf8_fileOf []
  have hexisting : splice.existing = [] := Option.some.inj (h.text.symm.trans hempty)
  have hstands := (Text.find_eq_some h.found).1
  rw [hexisting, List.drop_nil, List.prefix_nil] at hstands
  exact h.nonempty hstands

section
variable {args : Args} {handle : Option ScopedPath} {faults : Faults} {file : List UInt8} {splice : Splice}

theorem edit_clear (h : Reaches args handle faults file splice) (hclear : faults.Clear) :
    edit args handle faults file = (splice.outcome, fileOf splice.next) := by
  rw [edit, planEdit_eq_ok.mpr h]
  dsimp only
  rw [writeBack_ok hclear]

theorem edit_fails (h : Reaches args handle faults file splice) (hfails : ¬ faults.Clear) :
    ∃ e left, edit args handle faults file = (failed "edit" e, left) ∧
      (left = file ↔ LeavesOld faults (fileOf splice.next) file) := by
  obtain ⟨e, left, hwrite, hleft⟩ := @writeBack_error faults (fileOf splice.next) file h.file_ne_nil hfails
  refine ⟨e, left, ?_, hleft⟩
  rw [edit, planEdit_eq_ok.mpr h]
  dsimp only
  rw [hwrite]

/-- Once the write-back is reached, the edit is as it should be if the snippet occurs once and all of it
is written, or if what a failure leaves is the old content. -/
theorem Reaches.edits_iff (h : Reaches args handle faults file splice) :
    EditsOnePlace args handle faults file ↔
      faults.Clear ∧ OccursOnce splice.replacing splice.existing ∨
        ¬ faults.Clear ∧ LeavesOld faults (fileOf splice.next) file := by
  unfold EditsOnePlace
  by_cases hclear : faults.Clear
  · rw [edit_clear h hclear]
    constructor
    · rintro ⟨-, hsuccess⟩
      obtain ⟨content, replacing, before, after, -, hreplacing, htext, honce, -⟩ := hsuccess rfl
      have hsnippet : replacing.toList = splice.replacing := by
        rw [Option.some.inj (hreplacing.symm.trans h.replacing), String.toList_ofList]
      rw [hsnippet] at htext honce
      rw [Option.some.inj (h.text.symm.trans htext)]
      exact .inl ⟨hclear, honce⟩
    · rintro (⟨-, honce⟩ | ⟨hfails, -⟩)
      · refine ⟨nofun, fun _ => ⟨_, _, splice.existing.take splice.position,
          splice.existing.drop (splice.position + splice.replacing.length), h.content, h.replacing, ?_⟩⟩
        rw [String.toList_ofList, String.toList_ofList, ← h.existing_eq]
        exact ⟨h.text, honce, rfl⟩
      · exact absurd hclear hfails
  · obtain ⟨e, left, hedit, hleft⟩ := edit_fails h hclear
    rw [hedit]
    constructor
    · exact fun hkept => .inr ⟨hclear, hleft.mp (hkept.1 rfl)⟩
    · rintro (⟨hgoes, -⟩ | ⟨-, hleaves⟩)
      · exact absurd hgoes hclear
      · exact ⟨fun _ => hleft.mpr hleaves, nofun⟩

/-- An edit changes one place or nothing just where it does not reach the write-back, or the snippet occurs
once, overlaps counted, and all of it is written, or what a failure leaves is the old content. -/
theorem edits_one_place_iff : EditsOnePlace args handle faults file ↔
    ∀ splice, Reaches args handle faults file splice →
      faults.Clear ∧ OccursOnce splice.replacing splice.existing ∨
        ¬ faults.Clear ∧ LeavesOld faults (fileOf splice.next) file := by
  refine ⟨fun hedits splice h => h.edits_iff.mp hedits, fun hall => ?_⟩
  cases hplan : planEdit args handle faults file with
  | error why =>
    unfold EditsOnePlace edit
    rw [hplan]
    exact ⟨fun _ => rfl, nofun⟩
  | ok splice =>
    have h := planEdit_eq_ok.mp hplan
    exact h.edits_iff.mpr (hall splice h)

end

/-- A snippet that begins again before it ends. -/
def overlapping : Splice where
  target := ⟨0, "a", "a"⟩
  existing := "aaa".toList
  replacing := "aa".toList
  position := 0
  content := "b".toList

/-- Of two occurrences that overlap one is counted, and it is replaced. -/
theorem overlap_replaced : ¬ ∀ args handle faults file, EditsOnePlace args handle faults file := by
  intro h
  have hreaches : Reaches ((Args.empty.withText "content" "b").withText "replacing" "aa")
      (some overlapping.target) ⟨none, none, none, none, none, none⟩ (fileOf "aaa".toList) overlapping :=
    { handle := rfl, content := by decide +kernel, replacing := by decide +kernel, nonempty := by decide
      clone := rfl, read := rfl, text := fromUtf8_fileOf _, found := by decide +kernel
      sites := by decide +kernel, plain := by decide +kernel }
  rcases hreaches.edits_iff.mp (h _ _ _ _) with ⟨-, honce⟩ | ⟨hfails, -⟩
  · have hfirst : overlapping.replacing <+: overlapping.existing.drop 0 := by decide +kernel
    have hsecond : overlapping.replacing <+: overlapping.existing.drop 1 := by decide +kernel
    cases honce.unique hfirst hsecond
  · exact hfails ⟨rfl, rfl, rfl, rfl⟩

end MarloweAgent.Exec
