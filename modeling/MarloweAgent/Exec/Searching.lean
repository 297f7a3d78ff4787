import MarloweAgent.Exec.Editing
import MarloweAgent.Exec.Walking
import MarloweAgent.Library.Paging

/-! The `grep` of a directory. What is emitted of a file are the lines close to a match, and a
budget ends the emission; every match is counted all the same. -/

namespace MarloweAgent.Exec
open Contract Library Net Permission Tools Loop

/-! ## Lines that are emitted -/

def maxMatchLines : Nat := 200

def maxMatchLineBytes : Nat := 512

def maxGrepContext : Nat := 20

def namesInANotice : Nat := 10

def grepParams : List String := ["pattern", "path", "glob", "context"]

/-- `clip_line`: the cut is marked in the line. -/
def clipLine (line : List Char) : List Char :=
  if Text.byteLen line ≤ maxMatchLineBytes then line
  else
    let cut := upToBoundary line maxMatchLineBytes
    cut ++ (s!"…[line continues, {Text.byteLen line - Text.byteLen cut} more bytes]").toList

/-- The lines that match. -/
def matchedAt (isMatch : String → Bool) (lines : List String) : List Nat :=
  (List.range lines.length).filter fun i => isMatch (lines.getD i "")

/-- The lines to emit: those close to a match, each with whether it is one. -/
def wanted (isMatch : String → Bool) (context : Nat) (lines : List String) : List (Nat × Bool) :=
  let matched := matchedAt isMatch lines
  (windows context (lines.length - 1) 0 matched).map fun i => (i, decide (i ∈ matched))

/-- One emitted line: a match is marked by its separators. -/
def rendered (relative : String) (lines : List String) (place : Nat × Bool) : List Char :=
  let sep := if place.2 then ':' else '-'
  relative.toList ++ sep :: Nat.toDigits 10 (place.1 + 1) ++ sep :: clipLine (lines.getD place.1 "").toList

/-- What is emitted, and whether a line was turned away. -/
structure Emission where
  lines : List (List Char)
  bytes : Nat
  spent : Bool
  deriving DecidableEq, Repr

namespace Emission

/-- The display budget is reached. -/
def full (emission : Emission) : Bool :=
  maxMatchLines ≤ emission.lines.length || readWindowBytes ≤ emission.bytes

def push (emission : Emission) (line : List Char) : Emission :=
  { emission with lines := emission.lines ++ [line], bytes := emission.bytes + Text.byteLen line + 1 }

/-- The lines of one file: the budget is looked at before each. -/
def emit (emission : Emission) (lines : List (List Char)) : Emission :=
  scan full (fun emission => { emission with spent := true }) push emission lines

end Emission

/-! ## The search -/

/-- What a search has counted and emitted. -/
structure Search where
  emission : Emission
  perFile : List (String × Nat)
  totalMatches : Nat
  scanned : Nat
  notText : Nat
  partRead : List String
  deriving DecidableEq, Repr

namespace Search

def empty : Search := ⟨⟨[], 0, false⟩, [], 0, 0, 0, []⟩

/-- One file whose text was read. Once the budget is spent its matches are still counted. -/
def text (isMatch : String → Bool) (context : Nat) (search : Search) (relative : String) (text : List Char) :
    Search :=
  let lines := Text.lines (String.ofList text)
  let matched := matchedAt isMatch lines
  let search := { search with scanned := search.scanned + 1 }
  if matched = [] then search
  else
    let search := { search with
      totalMatches := search.totalMatches + matched.length
      perFile := search.perFile ++ [(relative, matched.length)] }
    if search.emission.spent then search
    else
      { search with
        emission := search.emission.emit ((wanted isMatch context lines).map (rendered relative lines)) }

/-- One candidate, with what reading it brought. -/
def candidate (isMatch : String → Bool) (context : Nat) (search : Search) (found : String × ReadOutcome) :
    Search :=
  match found.2 with
  | .notText _ => { search with notText := search.notText + 1 }
  | .capped content =>
    text isMatch context { search with partRead := search.partRead ++ [found.1] } found.1 content
  | .whole content => text isMatch context search found.1 content

/-- The loop over the files that could be opened and read. -/
def run (isMatch : String → Bool) (context : Nat) (found : List (String × ReadOutcome)) : Search :=
  found.foldl (candidate isMatch context) empty

/-- The notice that lines were turned away. -/
def budgetNotice (search : Search) : Option String :=
  if search.emission.spent then
    let worst := (search.perFile.mergeSort fun a b =>
      decide (b.2 < a.2) || (a.2 = b.2 && decide (a.1 ≤ b.1))).take namesInANotice
    some (s!"\n[{search.totalMatches} matches in {search.perFile.length} file(s); the first "
      ++ s!"{search.emission.lines.length} lines are shown and the rest were "
      ++ "counted, not returned. Most matches: "
      ++ Text.join ", " (worst.map fun (path, n) => path ++ s!" ({n})")
      ++ ". Tighten `pattern`, set `glob`, or search a subdirectory to see the rest.]")
  else none

/-- The notice of files that were read in part. -/
def partNotice (search : Search) : String :=
  if search.partRead = [] then ""
  else
    let total := search.partRead.length
    let names := (search.partRead.mergeSort (· ≤ ·)).take namesInANotice
    let more := if namesInANotice < total then s!" and {total - namesInANotice} more" else ""
    s!"\n[{total} file(s) were searched only as far as {maxReadBytes} bytes, so "
      ++ "anything later in them was not looked at: " ++ Text.join ", " names ++ more ++ "]"

/-- What stands in place of the lines when nothing matched. -/
def nothingFound (search : Search) (pattern : String) (fileGlob : Option String) (seen : Nat) : String :=
  if seen = 0 then "no files under this path at all (`" ++ pattern ++ "` was not the reason)"
  else if search.scanned = 0 then
    match fileGlob with
    | some glob =>
      s!"no file was searched: {seen} file(s) are under this path, and none of them "
        ++ "matched `glob: \"" ++ glob ++ "\"` or could be read as text"
    | none =>
      s!"no file was searched: {seen} file(s) are under this path and none of them "
        ++ "could be read as text"
  else "no line matched `" ++ pattern ++ s!"` in the {search.scanned} file(s) searched"

/-- What the tool reports. -/
def outcome (search : Search) (pattern : String) (fileGlob : Option String) (walk : Walk) : ToolOutcome :=
  let body :=
    if search.totalMatches = 0 then nothingFound search pattern fileGlob walk.seen
    else String.ofList (['\n'].intercalate search.emission.lines)
  let notText :=
    if 0 < search.notText then
      s!"\n[{search.notText} file(s) were not text and were not searched; they are excluded from "
        ++ "the file count.]"
    else ""
  let truncated :=
    if walk.truncated then
      s!"\n[the search stopped after {walkFileCap} files and there is more under this "
        ++ "path. It did not reach everything — narrow it with `glob`, e.g. `glob: \"*.rs\"`, "
        ++ "or search a subdirectory instead of \".\".]"
    else ""
  { summary := .new [.count search.totalMatches "results", .count search.scanned "files"]
    body := .inline (body ++ (budgetNotice search).getD "" ++ partNotice search ++ notText ++ truncated
      ++ skippedNotice walk.skipped)
    trust := .agentObserved, failed := false, wallMs := 0, preview := none }

end Search

/-! ## The tool -/

/-- What is outside the tool: the workspace it is in, the regular expressions, the lower case of a text, and
what reading a file through the scope brings, if it is opened. -/
structure SearchEnv where
  workspace : List String
  compile : String → Except String (String → Bool)
  lowercase : String → String
  openFile : String → Option (List UInt8)

/-- What a `path` turns out to be. -/
inductive Root
  | file
  | directory (base : Pending)

/-- The loop of `glob_match`: `*` does not cross a separator. -/
def globGo : List Char → List Char → Bool
  | [], s => s.isEmpty
  | '*' :: p, [] => globGo p []
  | '*' :: p, c :: s => globGo p (c :: s) || (c ≠ '/' && globGo ('*' :: p) s)
  | '?' :: p, _ :: s => globGo p s
  | d :: p, c :: s => d = c && globGo p s
  | _ :: _, [] => false
termination_by p s => p.length + s.length

/-- `glob_match`, in lower case. -/
def globMatch (lowercase : String → String) (pattern subject : String) : Bool :=
  globGo (lowercase pattern).toList (lowercase subject).toList

/-- A path below the workspace, with forward slashes. -/
def relativeTo (workspace path : List String) : Option String :=
  if workspace.isPrefixOf path then
    let joined := Text.join "/" (path.drop workspace.length)
    some (String.ofList (joined.toList.map fun c => if c = '\\' then '/' else c))
  else none

/-- Whether a file is searched: a glob with a separator is about its path, one without about its name. -/
def keeps (env : SearchEnv) (fileGlob : Option String) (path : List String) : Bool :=
  match fileGlob with
  | none => true
  | some glob =>
    if '/' ∈ glob.toList then (relativeTo env.workspace path).any (globMatch env.lowercase glob)
    else globMatch env.lowercase glob (path.getLast?.getD "")

/-- `context`, which is refused and not reduced. -/
def contextOf (value : Option ArgValue) : Except String Nat :=
  match value with
  | none => .ok 0
  | some value =>
    let number : Option Int := match value with
      | .integer n => some n
      | .text s => if Text.trim s = "" then none else Text.parseI64 (Text.trim s).toList
      | _ => none
    match number with
    | some n =>
      if 0 ≤ n ∧ n ≤ maxGrepContext then .ok n.toNat
      else
        .error (s!"`context` is {n}, and it must be a whole number from 0 to {maxGrepContext}. It was NOT "
          ++ "reduced to fit — say what you want and call again.")
    | none =>
      .error (s!"`context` must be a whole number from 0 to {maxGrepContext} — "
        ++ "how many lines above and below each match to return as well. Omit "
        ++ "it for matching lines only.")

/-- `glob`, which may not be empty. -/
def globOf (value : Option ArgValue) : Except String (Option String) :=
  match value with
  | none => .ok none
  | some value =>
    match value.asText with
    | some glob =>
      if glob = "" then
        .error ("`glob` is empty, which matches no file at all. Give a pattern like "
          ++ "`*.rs`, or omit `glob` to search every file.")
      else .ok (some glob)
    | none =>
      .error ("`glob` is empty, which matches no file at all. Give a pattern like "
        ++ "`*.rs`, or omit `glob` to search every file.")

/-- What a search asks for. -/
structure Query where
  pattern : String
  isMatch : String → Bool
  context : Nat
  fileGlob : Option String

/-- The arguments of a search, or why it is refused. -/
def queryOf (env : SearchEnv) (args : Args) : Except String Query :=
  match args.entries.find? fun (name, _) => name ∉ grepParams with
  | some (name, _) =>
    .error ("`" ++ name ++ "` is not a parameter of `grep`, and the search was NOT run with it "
      ++ "ignored. `grep` takes exactly these: " ++ Text.join ", " grepParams ++ ". To ignore case, start `pattern` "
      ++ "with `(?i)` — `(?i)todo`. To restrict which files are opened, use `glob`, "
      ++ "e.g. `glob: \"*.rs\"`. There is no way to ask for filenames only and no "
      ++ "way to page through results; narrow the search instead.")
  | none =>
    match textArg args "pattern" with
    | none => .error "`pattern` is required"
    | some pattern =>
      if pattern = "" then
        .error ("`pattern` is empty, which matches every line of every file. Give the regular "
          ++ "expression to search for, or use `glob` to list files without searching inside "
          ++ "them.")
      else
        match env.compile pattern with
        | .error e =>
          .error ("`pattern` is not a valid regular expression, and it was NOT searched for "
            ++ "as plain text instead: " ++ e ++ "\nTo search for text that CONTAINS one of "
            ++ "`. * + ? ( ) [ ] \x7b \x7d | ^ $ \\`, put a backslash before each one — "
            ++ "`Cargo\\.toml`, `foo\\(bar\\)`. There is no `\\Q...\\E`. Backreferences "
            ++ "and lookaround do not exist in this engine and always fail here.")
        | .ok isMatch =>
          match contextOf (args.get "context"), globOf (args.get "glob") with
          | .error why, _ => .error why
          | .ok _, .error why => .error why
          | .ok context, .ok fileGlob => .ok { pattern, isMatch, context, fileGlob }

/-- The files of a walk that the scope opens and that can be read. -/
def readable (env : SearchEnv) (files : List (List String)) : List (String × ReadOutcome) :=
  files.filterMap fun path =>
    (relativeTo env.workspace path).bind fun relative =>
      (env.openFile relative).map fun bytes => (relative, cloneAndRead bytes)

/-- `grep`. -/
def grep (env : SearchEnv) (args : Args) (root : Option Root) : ToolOutcome :=
  match queryOf env args with
  | .error why => failed "grep" why
  | .ok query =>
    match root with
    | none => failed "grep" "no adjudicated handle for `path`"
    | some .file =>
      failed "grep" ("`path` is a file, and `grep` searches a DIRECTORY. Pass the directory that "
        ++ "contains it, or use `read` to look at this one file.")
    | some (.directory base) =>
      let walk := collect base walkFileCap (keeps env query.fileGlob)
      (Search.run query.isMatch query.context (readable env walk.files)).outcome query.pattern query.fileGlob walk

/-! ## Lines close to a match -/

/-- The files of a search whose text was read. -/
def texts (found : List (String × ReadOutcome)) : List (String × List Char) :=
  found.filterMap fun (relative, outcome) =>
    match outcome with
    | .whole text | .capped text => some (relative, text)
    | .notText _ => none

/-- The lines of a file that match. -/
def matchesOf (isMatch : String → Bool) (text : List Char) : List String :=
  (Text.lines (String.ofList text)).filter isMatch

/-- The matching lines of files, counted. -/
def matchCount (isMatch : String → Bool) (files : List (String × List Char)) : Nat :=
  (files.map fun file => (matchesOf isMatch file.2).length).sum

/-- The lines of a file within so many of a match, in their order, with the matches marked. -/
def closeLines (isMatch : String → Bool) (context : Nat) (file : String × List Char) : List (List Char) :=
  let lines := Text.lines (String.ofList file.2)
  ((List.range lines.length).filter fun i =>
    (matchedAt isMatch lines).any fun m => m ≤ i + context ∧ i ≤ m + context).map fun i =>
      rendered file.1 lines (i, isMatch (lines.getD i ""))

/-- So many lines, or so many bytes of them, that nothing more is emitted. -/
def BudgetReached (lines : List (List Char)) : Prop :=
  maxMatchLines ≤ lines.length ∨ readWindowBytes ≤ (lines.map fun line => Text.byteLen line + 1).sum

theorem texts_cons (file : String × ReadOutcome) (rest : List (String × ReadOutcome)) :
    texts (file :: rest) = texts [file] ++ texts rest :=
  List.filterMap_append (l := [file])

section
variable {isMatch : String → Bool} {context : Nat}

theorem matchCount_append (a b : List (String × List Char)) :
    matchCount isMatch (a ++ b) = matchCount isMatch a + matchCount isMatch b := by
  rw [matchCount, List.map_append, List.sum_append]
  rfl

theorem mem_matchedAt {lines : List String} {i : Nat} :
    i ∈ matchedAt isMatch lines ↔ i < lines.length ∧ isMatch (lines.getD i "") = true := by
  rw [matchedAt, List.mem_filter, List.mem_range]

theorem matchedAt_sorted (lines : List String) : (matchedAt isMatch lines).Pairwise (· < ·) :=
  List.pairwise_lt_range.filter _

theorem length_matchedAt (lines : List String) :
    (matchedAt isMatch lines).length = (lines.filter isMatch).length := by
  have hlines : lines = (List.range lines.length).map fun i => lines.getD i "" := by
    refine List.ext_getElem (by simp) fun i hi _ => ?_
    simp [hi]
  conv_rhs => rw [hlines]
  rw [List.filter_map, List.length_map]
  rfl

/-- The merged windows of a file are its lines close to a match. -/
theorem wanted_eq (relative : String) (text : List Char) :
    (wanted isMatch context (Text.lines (String.ofList text))).map
      (rendered relative (Text.lines (String.ofList text))) = closeLines isMatch context (relative, text) := by
  generalize hlines : Text.lines (String.ofList text) = lines
  unfold closeLines wanted
  dsimp only
  rw [hlines, windows_eq_filter (matchedAt_sorted lines), List.map_map]
  rcases Nat.eq_zero_or_pos lines.length with hempty | hpos
  · have hnone : matchedAt isMatch lines = [] := by
      rw [matchedAt, hempty]
      rfl
    simp [hnone]
  · rw [Nat.sub_add_cancel hpos]
    refine List.map_congr_left fun i hi => ?_
    have hi := List.mem_range.mp (List.mem_filter.mp hi).1
    have hmark : decide (i ∈ matchedAt isMatch lines) = isMatch (lines.getD i "") := by
      rw [Bool.eq_iff_iff, decide_eq_true_iff, mem_matchedAt]
      exact and_iff_right hi
    rw [Function.comp_apply, hmark]

end

/-! ## Emissions -/

namespace Emission

theorem foldl_push (emission : Emission) (lines : List (List Char)) :
    lines.foldl push emission =
      { lines := emission.lines ++ lines
        bytes := emission.bytes + (lines.map fun line => Text.byteLen line + 1).sum
        spent := emission.spent } := by
  induction lines generalizing emission with
  | nil => simp
  | cons line rest ih =>
    rw [List.foldl_cons, ih]
    simp [push, Nat.add_assoc, Nat.add_left_comm, Nat.add_comm]

theorem full_foldl_push (lines : List (List Char)) :
    (lines.foldl push ⟨[], 0, false⟩).full = true ↔ BudgetReached lines := by
  rw [foldl_push]
  simp [full, BudgetReached]

/-- Lines of two files are emitted as those of one, where the second is left out once the budget is spent. -/
theorem emit_append {emission : Emission} (hspent : emission.spent = false) (a b : List (List Char)) :
    emission.emit (a ++ b) =
      if (emission.emit a).spent then emission.emit a else (emission.emit a).emit b := by
  induction a generalizing emission with
  | nil =>
    rw [List.nil_append]
    exact (if_neg (by rw [emit, scan, hspent]; exact Bool.false_ne_true)).symm
  | cons line rest ih =>
    rw [emit, emit, List.cons_append, scan, scan]
    split
    next => rfl
    next => exact ih hspent

end Emission

/-! ## Searches -/

namespace Search

variable (isMatch : String → Bool) (context : Nat)

theorem text_emission (search : Search) (relative : String) (content : List Char) :
    (text isMatch context search relative content).emission =
      if search.emission.spent then search.emission
      else search.emission.emit (closeLines isMatch context (relative, content)) := by
  rw [← wanted_eq]
  unfold text
  dsimp only
  split
  next hnone =>
    have hnothing : wanted isMatch context (Text.lines (String.ofList content)) = [] := by
      rw [wanted, hnone]
      rfl
    rw [hnothing, List.map_nil, Emission.emit, scan, ite_self]
  next => rw [apply_ite Search.emission]

theorem text_total (search : Search) (relative : String) (content : List Char) :
    (text isMatch context search relative content).totalMatches =
      search.totalMatches + (matchesOf isMatch content).length := by
  unfold text matchesOf
  dsimp only
  rw [← length_matchedAt]
  split
  next hnone => rw [hnone]; rfl
  next => split <;> rfl

theorem text_scanned (search : Search) (relative : String) (content : List Char) :
    (text isMatch context search relative content).scanned = search.scanned + 1 := by
  unfold text
  dsimp only
  split
  next => rfl
  next => split <;> rfl

section
variable (search : Search) (file : String × ReadOutcome)

theorem candidate_emission : (candidate isMatch context search file).emission =
    if search.emission.spent then search.emission
    else search.emission.emit ((texts [file]).flatMap (closeLines isMatch context)) := by
  obtain ⟨relative, outcome⟩ := file
  cases outcome with
  | whole content => simp [candidate, text_emission, texts]
  | capped content => simp [candidate, text_emission, texts]
  | notText => simp [candidate, texts, Emission.emit, scan]

theorem candidate_total : (candidate isMatch context search file).totalMatches =
    search.totalMatches + matchCount isMatch (texts [file]) := by
  obtain ⟨relative, outcome⟩ := file
  cases outcome with
  | whole content => simp [candidate, text_total, texts, matchCount]
  | capped content => simp [candidate, text_total, texts, matchCount]
  | notText => rfl

theorem candidate_scanned : (candidate isMatch context search file).scanned =
    search.scanned + (texts [file]).length := by
  obtain ⟨relative, outcome⟩ := file
  cases outcome with
  | whole content => rw [candidate, text_scanned]; rfl
  | capped content => rw [candidate, text_scanned]; rfl
  | notText => rfl

end

section
variable (found : List (String × ReadOutcome)) (search : Search)

/-- The lines of all files are emitted as those of one, until the budget is spent. -/
theorem foldl_emission : (found.foldl (candidate isMatch context) search).emission =
    if search.emission.spent then search.emission
    else search.emission.emit ((texts found).flatMap (closeLines isMatch context)) := by
  induction found generalizing search with
  | nil => simp [texts, Emission.emit, scan]
  | cons file rest ih =>
    rw [List.foldl_cons, ih, candidate_emission, texts_cons file rest, List.flatMap_append]
    by_cases hspent : search.emission.spent = true
    · rw [if_pos hspent, if_pos hspent, if_pos hspent]
    · rw [if_neg hspent, if_neg hspent, Emission.emit_append (Bool.not_eq_true _ ▸ hspent)]

theorem foldl_total : (found.foldl (candidate isMatch context) search).totalMatches =
    search.totalMatches + matchCount isMatch (texts found) := by
  induction found generalizing search with
  | nil => rfl
  | cons file rest ih =>
    rw [List.foldl_cons, ih, candidate_total, texts_cons file rest, matchCount_append, Nat.add_assoc]

theorem foldl_scanned : (found.foldl (candidate isMatch context) search).scanned =
    search.scanned + (texts found).length := by
  induction found generalizing search with
  | nil => rfl
  | cons file rest ih =>
    rw [List.foldl_cons, ih, candidate_scanned, texts_cons file rest, List.length_append, Nat.add_assoc]

end

/-- What a run has come to, file after file. -/
theorem run_eq (found : List (String × ReadOutcome)) :
    (run isMatch context found).emission =
        (⟨[], 0, false⟩ : Emission).emit ((texts found).flatMap (closeLines isMatch context)) ∧
      (run isMatch context found).totalMatches = matchCount isMatch (texts found) ∧
      (run isMatch context found).scanned = (texts found).length := by
  refine ⟨?_, ?_, ?_⟩
  · exact foldl_emission isMatch context found empty
  · exact (foldl_total isMatch context found empty).trans (Nat.zero_add _)
  · exact (foldl_scanned isMatch context found empty).trans (Nat.zero_add _)

theorem isSome_budgetNotice (search : Search) : search.budgetNotice.isSome = search.emission.spent := by
  unfold budgetNotice
  cases search.emission.spent <;> rfl

end Search

/-! ## What a search shows and counts -/

/-- The lines close to a match are emitted file after file, in their order and up to the budget. It
is told when some were not emitted, and all matches are counted. -/
theorem grep_windows (isMatch : String → Bool) (context : Nat) (found : List (String × ReadOutcome)) :
    let search := Search.run isMatch context found
    let close := (texts found).flatMap (closeLines isMatch context)
    search.emission.lines <+: close ∧
      (∀ before line after, search.emission.lines = before ++ line :: after → ¬ BudgetReached before) ∧
      (search.budgetNotice.isSome ↔ search.emission.lines ≠ close) ∧
      (search.emission.lines ≠ close → BudgetReached search.emission.lines) ∧
      ∀ pattern fileGlob walk,
        (search.outcome pattern fileGlob walk).summary =
            .new [.count (matchCount isMatch (texts found)) "results", .count (texts found).length "files"] ∧
          (0 < matchCount isMatch (texts found) → ∃ rest, (search.outcome pattern fileGlob walk).body =
            .inline (String.ofList (['\n'].intercalate search.emission.lines) ++ search.budgetNotice.getD ""
              ++ rest)) := by
  intro search close
  obtain ⟨hemission, htotal, hscanned⟩ := Search.run_eq isMatch context found
  have hroom : ∀ {lines : List (List Char)}, Room Emission.full Emission.push ⟨[], 0, false⟩ lines →
      ∀ before line after, lines = before ++ line :: after → ¬ BudgetReached before :=
    fun hroom before line after hsplit hreached =>
      Bool.false_ne_true ((hroom before line after hsplit).symm.trans ((Emission.full_foldl_push before).mpr hreached))
  have hreport : ∀ pattern fileGlob walk, (search.outcome pattern fileGlob walk).summary =
        .new [.count (matchCount isMatch (texts found)) "results", .count (texts found).length "files"] ∧
      (0 < matchCount isMatch (texts found) → ∃ rest, (search.outcome pattern fileGlob walk).body =
        .inline (String.ofList (['\n'].intercalate search.emission.lines) ++ search.budgetNotice.getD ""
          ++ rest)) := fun pattern fileGlob walk => by
    rw [Search.outcome, htotal, hscanned]
    refine ⟨rfl, fun hpos => ?_⟩
    rw [if_neg (Nat.ne_of_gt hpos)]
    exact ⟨_, congrArg ToolBody.inline (by simp only [String.append_assoc]; rfl)⟩
  rw [Search.isSome_budgetNotice]
  rcases scan_cases Emission.full (fun emission => { emission with spent := true }) Emission.push
    ⟨[], 0, false⟩ close with ⟨hall, hbefore⟩ | ⟨shown, line, rest, hsplit, hbefore, hfull, hstop⟩
  · have hlines : search.emission = ⟨close, 0 + (close.map fun line => Text.byteLen line + 1).sum, false⟩ :=
      hemission.trans (hall.trans (Emission.foldl_push _ close))
    rw [hlines] at hreport ⊢
    exact ⟨List.prefix_rfl, hroom hbefore, by simp, fun h => absurd rfl h, hreport⟩
  · have hlines : search.emission = ⟨shown, 0 + (shown.map fun line => Text.byteLen line + 1).sum, true⟩ := by
      refine hemission.trans (hstop.trans ?_)
      rw [Emission.foldl_push]
      rfl
    have hless : shown ≠ close := fun heq => by
      have hlength := congrArg List.length (heq.trans hsplit)
      rw [List.length_append, List.length_cons] at hlength
      omega
    rw [hlines] at hreport ⊢
    exact ⟨⟨line :: rest, hsplit.symm⟩, hroom hbefore, by simpa using hless,
      fun _ => (Emission.full_foldl_push shown).mp hfull, hreport⟩

/-- Four files of fifty lines. -/
def fourFiles : List (String × ReadOutcome) :=
  ["a", "b", "c", "d"].map fun relative => (relative, .whole (List.replicate 50 '\n'))

/-- A budget that the last of the lines uses up: nothing is left to tell of. -/
theorem last_line_silent : ¬ ∀ isMatch context found,
    BudgetReached (Search.run isMatch context found).emission.lines →
      (Search.run isMatch context found).budgetNotice.isSome := by
  intro h
  have hrun : maxMatchLines ≤ (Search.run (fun _ => true) 0 fourFiles).emission.lines.length ∧
      (Search.run (fun _ => true) 0 fourFiles).emission.spent = false := by decide +kernel
  have htold := h (fun _ => true) 0 fourFiles (.inl hrun.1)
  rw [Search.isSome_budgetNotice, hrun.2] at htold
  exact Bool.false_ne_true htold

end MarloweAgent.Exec
