import Mathlib.Data.List.DropRight
import Mathlib.Data.String.Basic
import MarloweAgent.Contract.Text
import MarloweAgent.Library.OrderedMap

/-! The front matter of a skill: a strict subset of YAML, where every construct outside it is an error that
names its line. Comments are stripped, keys are split off and lists and scalars are read by four scans that
each keep track of quotes in a way of their own. -/

namespace MarloweAgent.Tools.FrontMatter
open Contract Library

/-- A parsed value. The bindings of a block stand in the order of their keys. -/
inductive Value
  | scalar (s : String)
  | seq (items : List String)
  | map (bindings : List (String × Value))

namespace Value

/-- `Value::as_scalar`. -/
def asScalar : Value → Option String
  | .scalar s => some s
  | _ => none

/-- A list, or a scalar as a list of one item. -/
def asSeq : Value → Option (List String)
  | .seq items => some items
  | .scalar s => some [s]
  | .map _ => none

def asMap : Value → Option (List (String × Value))
  | .map bindings => some bindings
  | .scalar _ | .seq _ => none

/-- The name of the shape, for an error. -/
def kind : Value → String
  | .scalar _ => "a scalar"
  | .seq _ => "a list"
  | .map _ => "a block"

end Value

structure ParseError where
  line : Nat
  detail : String
  deriving DecidableEq, Repr

abbrev Parse (α : Type) := Except ParseError α

def err {α : Type} (line : Nat) (detail : String) : Parse α := .error { line, detail }

abbrev Block := OrderedMap String Value

/-- One line with content: its number, the bytes of its indentation, and what follows them. -/
structure Line where
  no : Nat
  indent : Nat
  content : List Char
  deriving DecidableEq, Repr

/-! ## Characters -/

def trimStart (s : List Char) : List Char := s.dropWhile Text.isWhitespace

def trimEnd (s : List Char) : List Char := s.rdropWhile Text.isWhitespace

def trim (s : List Char) : List Char := trimEnd (trimStart s)

/-- Blank or tab, behind which a comment may open. -/
def isBlank (c : Char) : Bool := c == ' ' || c == '\t'

/-- `str::contains` of a colon and a blank. -/
def hasColonBlank : List Char → Bool
  | ':' :: ' ' :: _ => true
  | _ :: rest => hasColonBlank rest
  | [] => false

/-! ## Lines -/

/-- Copy up to a `#` that opens a comment: outside quotes, and behind a blank or at the start. -/
def stripFrom : Option Char → Bool → List Char → List Char
  | _, _, [] => []
  | some q, _, c :: rest => c :: stripFrom (if c = q then none else some q) (isBlank c) rest
  | none, prevSpace, c :: rest =>
    if c = '"' ∨ c = '\'' then c :: stripFrom (some c) (isBlank c) rest
    else if c = '#' ∧ prevSpace then []
    else c :: stripFrom none (isBlank c) rest

/-- `strip_comment`. -/
def stripComment (s : List Char) : List Char := stripFrom none true s

/-- A line less the carriage returns at its end. -/
def trimCr (raw : List Char) : List Char := raw.rdropWhile (· == '\r')

/-- What a line says once its indentation and its comment are gone. -/
def contentOf (raw : List Char) : List Char := trimEnd (stripComment (trimStart (trimCr raw)))

/-- One line, if it says anything. -/
def readLine (no : Nat) (raw : List Char) : Parse (Option Line) :=
  if (trim (trimCr raw)).isEmpty then .ok none
  else if '\t' ∈ (trimCr raw).takeWhile Text.isWhitespace then
    err no "a tab in the indentation. YAML forbids it; use spaces"
  else if (contentOf raw).isEmpty then .ok none
  else if contentOf raw = "---".toList ∨ contentOf raw = "...".toList then
    err no "a second document marker inside the front matter"
  else
    .ok (some
      { no, indent := Text.byteLen ((trimCr raw).takeWhile Text.isWhitespace), content := contentOf raw })

/-- The lines from number `no` on. -/
def readLines (no : Nat) : List (List Char) → Parse (List Line)
  | [] => .ok []
  | raw :: rest => do
    let line ← readLine no raw
    let lines ← readLines (no + 1) rest
    return line.toList ++ lines

/-! ## Scalars -/

def escapes : List (Char × Char) :=
  [('n', '\n'), ('t', '\t'), ('r', '\r'), ('"', '"'), ('\\', '\\'), ('/', '/'), ('0', '\x00')]

def hexDigit (c : Char) : Option Nat := (List.range 16).find? fun n => Nat.digitChar n = c.toLower

/-- `u32::from_str_radix` in base 16: digits, after an optional plus sign. -/
def hexValue (s : List Char) : Option Nat :=
  let digits := (Text.stripPrefix s ['+']).getD s
  if digits.isEmpty then none else digits.foldlM (fun n c => (hexDigit c).map (n * 16 + ·)) 0

/-- `char::from_u32`. -/
def charOf (code : Nat) : Option Char :=
  if code < 0xD800 ∨ (0xDFFF < code ∧ code < 0x110000) then some (Char.ofNat code) else none

/-- The character of a `\u` escape. -/
def unicodeEscape (hex : List Char) (no : Nat) : Parse Char :=
  if Text.byteLen hex ≠ 4 then err no "a `\\u` escape with fewer than four hex digits"
  else
    match hexValue hex with
    | none => err no ("`\\u" ++ String.ofList hex ++ "` is not hex")
    | some code =>
      match charOf code with
      | some c => .ok c
      | none => err no ("`\\u" ++ String.ofList hex ++ "` is not a character")

/-- The escapes read, after the first `skip` characters. -/
def unescapeFrom (no : Nat) : Nat → List Char → Parse (List Char)
  | _, [] => .ok []
  | skip + 1, _ :: rest => unescapeFrom no skip rest
  | 0, c :: rest =>
    if c ≠ '\\' then (unescapeFrom no 0 rest).map (c :: ·)
    else
      match rest.head? with
      | none => err no "a trailing backslash"
      | some 'u' => do
        let c ← unicodeEscape ((rest.drop 1).take 4) no
        (unescapeFrom no 5 rest).map (c :: ·)
      | some e =>
        match escapes.lookup e with
        | some c => (unescapeFrom no 1 rest).map (c :: ·)
        | none => err no ("unknown escape `\\" ++ String.ofList [e] ++ "`")

def unescape (s : List Char) (no : Nat) : Parse String := (unescapeFrom no 0 s).map String.ofList

/-- One scalar: plain, single-quoted or double-quoted. -/
def scalar (s : List Char) (no : Nat) : Parse String :=
  match s with
  | '"' :: inner =>
    match Text.stripSuffix inner ['"'] with
    | none => err no "an unterminated double-quoted string"
    | some inner => unescape inner no
  | '\'' :: inner =>
    match Text.stripSuffix inner ['\''] with
    | none => err no "an unterminated single-quoted string"
    | some inner => .ok (String.ofList (Text.replace inner "''".toList ['\'']))
  | '&' :: _ | '*' :: _ => err no "a YAML anchor or alias, which is outside the subset"
  | _ => .ok (String.ofList s)

/-! ## Values on one line -/

/-- The items of a flow list, with those before, the one being read and the quote it is in. -/
def flowFrom (no : Nat) (out : List String) (item : List Char) : Option Char → List Char → Parse (List String)
  | some _, [] => err no "an unterminated quoted string"
  | none, [] => if (trim item).isEmpty then .ok out else (scalar (trim item) no).map (out ++ [·])
  | some q, c :: rest => flowFrom no out (item ++ [c]) (if c = q then none else some q) rest
  | none, c :: rest =>
    if c = '"' ∨ c = '\'' then flowFrom no out (item ++ [c]) (some c) rest
    else if c = ',' then do
      let s ← scalar (trim item) no
      flowFrom no (out ++ [s]) [] none rest
    else if c ∈ ['[', ']', '\x7b', '\x7d'] then err no "a nested list or map inside a `[...]` list"
    else flowFrom no out (item ++ [c]) none rest

def parseFlowSeq (rest : List Char) (no : Nat) : Parse (List String) :=
  match (Text.stripPrefix rest ['[']).bind (Text.stripSuffix · [']']) with
  | none =>
    err no ("a `[` list that does not close on the same line. Multi-line flow sequences are " ++
      "outside the subset; use the `- item` form")
  | some inner => if (trim inner).isEmpty then .ok [] else flowFrom no [] [] none inner

def parseInline (rest : List Char) (no : Nat) : Parse Value :=
  match rest with
  | '[' :: _ => (parseFlowSeq rest no).map .seq
  | '\x7b' :: _ =>
    err no ("a flow mapping `\x7b...\x7d`. Write the block form instead — the manifest shape uses " ++
      "indented blocks")
  | '|' :: _ | '>' :: _ =>
    err no ("a block scalar (`|` or `>`). Folding and chomping have several spellings that " ++
      "differ in trailing whitespace, and a description whose bytes depend on which one " ++
      "was meant is not a description this can pin")
  | '&' :: _ | '*' :: _ => err no "a YAML anchor or alias, which is outside the subset"
  | '!' :: _ => err no "a YAML tag, which is outside the subset"
  | _ => (scalar rest no).map .scalar

/-- What stands before and behind the first colon that a blank or the end of the line follows. -/
def cutKey : List Char → Option (List Char × List Char)
  | [] => none
  | c :: rest =>
    if c = ':' ∧ (rest = [] ∨ rest.head? = some ' ') then some ([], rest)
    else (cutKey rest).map fun (before, after) => (c :: before, after)

def splitKey (content : List Char) (no : Nat) : Parse (String × List Char) :=
  match cutKey content with
  | none =>
    err no "expected `key: value`. A bare scalar at block level is not part of the manifest shape"
  | some (before, after) =>
    match trim before with
    | [] => err no "an empty key"
    | '"' :: _ | '\'' :: _ => err no "a quoted key. The manifest shape uses plain keys only"
    | '&' :: _ | '*' :: _ => err no "a YAML anchor or alias, which is outside the subset"
    | key => .ok (String.ofList key, trim after)

/-! ## Blocks -/

/-- The line is an item of a list. -/
def isItem (content : List Char) : Bool := "- ".toList.isPrefixOf content || content == ['-']

/-- The items at one indentation, and the lines behind them. -/
def parseBlockSeq (indent : Nat) : List Line → Parse (List String × List Line)
  | [] => .ok ([], [])
  | line :: rest =>
    if line.indent < indent then .ok ([], line :: rest)
    else if indent < line.indent then err line.no "unexpected indentation inside a list"
    else
      match Text.stripPrefix line.content "- ".toList with
      | none =>
        if line.content = ['-'] then
          err line.no ("a list item with no value. A nested list or block under `-` is outside the " ++
            "manifest shape")
        else .ok ([], line :: rest)
      | some item =>
        if hasColonBlank (trim item) ∨ (trim item).getLast? = some ':' then
          err line.no "a `key: value` inside a list. The manifest shape has no lists of blocks"
        else do
          let s ← scalar (trim item) line.no
          let (items, rest) ← parseBlockSeq indent rest
          return (s :: items, rest)

/-- What follows a key without a value. -/
inductive Under
  | nothing
  | items (indent : Nat)
  | block (indent : Nat)

def under (indent : Nat) : List Line → Under
  | [] => .nothing
  | next :: _ =>
    if indent < next.indent then
      if isItem next.content then .items next.indent else .block next.indent
    else .nothing

/-- What stands for a key: what the line itself says, else what stands deeper under it, and the lines
behind that. -/
def valueOf (block : Nat → List Line → Parse (Block × List Line)) (indent no : Nat) (value : List Char)
    (rest : List Line) : Parse (Value × List Line) :=
  if value.isEmpty then
    match under indent rest with
    | .nothing => .ok (.map [], rest)
    | .items child => do
      let (items, rest) ← parseBlockSeq child rest
      return (.seq items, rest)
    | .block child => do
      let (block, rest) ← block child rest
      return (.map block.bindings, rest)
  else do
    let v ← parseInline value no
    return (v, rest)

/-- The block at one indentation, and the lines behind it. Each step takes a line, so as much fuel as
there are lines is enough. -/
def parseMap : Nat → Nat → Block → List Line → Parse (Block × List Line)
  | 0, _, out, lines => .ok (out, lines)
  | _ + 1, _, out, [] => .ok (out, [])
  | fuel + 1, indent, out, line :: rest =>
    if line.indent < indent then .ok (out, line :: rest)
    else if indent < line.indent then
      err line.no "unexpected indentation: this line is deeper than its block"
    else if isItem line.content then
      err line.no ("a list item where a `key: value` was expected. A top-level sequence is not part " ++
        "of the manifest shape")
    else do
      let (key, value) ← splitKey line.content line.no
      if (out.get? key).isSome then
        err line.no ("`" ++ key ++ "` is declared twice. YAML implementations disagree about which one " ++
          "wins, so a duplicate key is refused rather than resolved")
      else do
        let (v, rest) ← valueOf (fun child lines => parseMap fuel child OrderedMap.empty lines) indent line.no
          value rest
        parseMap fuel indent (out.insert key v) rest

def parseLines (lines : List Line) : Parse Block := do
  let (block, rest) ← parseMap lines.length 0 OrderedMap.empty lines
  match rest with
  | [] => .ok block
  | line :: _ => err line.no "unexpected content after the end of the top-level block"

/-- Parse the subset. -/
def parse (front : String) : Parse Block := do
  let lines ← readLines 1 (front.toList.splitOn '\n')
  parseLines lines

/-! ## What the block parser does with a line -/

theorem map_eq_ok {α β : Type} {f : α → β} {x : Parse α} {b : β} (h : x.map f = .ok b) :
    ∃ a, x = .ok a ∧ b = f a := by
  cases x with
  | error e => cases h
  | ok a => exact ⟨a, rfl, (Except.ok.inj h).symm⟩

theorem bind_eq_ok {α β : Type} {f : α → Parse β} {x : Parse α} {b : β} (h : x >>= f = .ok b) :
    ∃ a, x = .ok a ∧ f a = .ok b := by
  cases x with
  | error e => cases h
  | ok a => exact ⟨a, rfl, h⟩

/-- The ways a value is read. -/
inductive Reads (block : Nat → List Line → Parse (Block × List Line)) (indent no : Nat) :
    List Char → List Line → Value → List Line → Prop
  | inline {value rest v} : value ≠ [] → parseInline value no = .ok v → Reads block indent no value rest v rest
  | nothing {rest} : under indent rest = .nothing → Reads block indent no [] rest (.map []) rest
  | items {rest child items after} : under indent rest = .items child →
      parseBlockSeq child rest = .ok (items, after) → Reads block indent no [] rest (.seq items) after
  | block {rest child b after} : under indent rest = .block child → block child rest = .ok (b, after) →
      Reads block indent no [] rest (.map b.bindings) after

theorem valueOf_ok_iff {block : Nat → List Line → Parse (Block × List Line)} {indent no : Nat}
    {value : List Char} {rest after : List Line} {v : Value} :
    valueOf block indent no value rest = .ok (v, after) ↔ Reads block indent no value rest v after := by
  constructor
  · intro h
    unfold valueOf at h
    split at h
    next hnil =>
      obtain rfl := List.isEmpty_iff.mp hnil
      split at h
      next hu =>
        cases h
        exact .nothing hu
      next child hu =>
        obtain ⟨⟨items, after'⟩, hseq, heq⟩ := bind_eq_ok h
        cases heq
        exact .items hu hseq
      next child hu =>
        obtain ⟨⟨b, after'⟩, hblock, heq⟩ := bind_eq_ok h
        cases heq
        exact .block hu hblock
    next hne =>
      obtain ⟨v', hv, heq⟩ := bind_eq_ok h
      cases heq
      exact .inline (fun hnil => hne (List.isEmpty_iff.mpr hnil)) hv
  · intro h
    cases h with
    | inline hne hv =>
      rw [valueOf, if_neg (by simpa using hne), hv]
      rfl
    | nothing hu => rw [valueOf, if_pos List.isEmpty_nil, hu]
    | items hu hseq =>
      rw [valueOf, if_pos List.isEmpty_nil, hu]
      dsimp only
      rw [hseq]
      rfl
    | block hu hblock =>
      rw [valueOf, if_pos List.isEmpty_nil, hu]
      dsimp only
      rw [hblock]
      rfl

/-- The ways a list goes on at a line. -/
inductive SeqSteps (indent : Nat) (line : Line) (rest : List Line) (items : List String) (after : List Line) :
    Prop
  | back : line.indent < indent ∨ line.indent = indent ∧ isItem line.content = false → items = [] →
      after = line :: rest → SeqSteps indent line rest items after
  | item {item s more} : line.indent = indent → Text.stripPrefix line.content "- ".toList = some item →
      hasColonBlank (trim item) = false → (trim item).getLast? ≠ some ':' → scalar (trim item) line.no = .ok s →
      parseBlockSeq indent rest = .ok (more, after) → items = s :: more → SeqSteps indent line rest items after

theorem isItem_eq_false_iff {content : List Char} :
    isItem content = false ↔ Text.stripPrefix content "- ".toList = none ∧ content ≠ ['-'] := by
  rw [isItem, Bool.or_eq_false_iff, beq_eq_false_iff_ne, Text.stripPrefix]
  split
  next hpre => exact ⟨fun h => absurd (hpre.symm.trans h.1) (by decide), fun h => absurd h.1 (Option.some_ne_none _)⟩
  next hpre => exact and_congr_left' (iff_of_true (Bool.eq_false_iff.mpr hpre) rfl)

theorem parseBlockSeq_cons_iff {indent : Nat} {line : Line} {rest after : List Line} {items : List String} :
    parseBlockSeq indent (line :: rest) = .ok (items, after) ↔ SeqSteps indent line rest items after := by
  constructor
  · intro h
    rw [parseBlockSeq] at h
    split at h
    next hlt =>
      cases h
      exact .back (.inl hlt) rfl rfl
    next hlt =>
      split at h
      next => cases h
      next hgt =>
        split at h
        next hnone =>
          split at h
          next => cases h
          next hdash =>
            cases h
            exact .back (.inr ⟨by omega, isItem_eq_false_iff.mpr ⟨hnone, hdash⟩⟩) rfl rfl
        next item hitem =>
          split at h
          next => cases h
          next hpair =>
            obtain ⟨hblank, hlast⟩ := not_or.mp hpair
            obtain ⟨s, hs, h⟩ := bind_eq_ok h
            obtain ⟨⟨more, after'⟩, hrest, heq⟩ := bind_eq_ok h
            cases heq
            exact .item (by omega) hitem (by simpa using hblank) hlast hs hrest rfl
  · intro h
    cases h with
    | back hback hitems hafter =>
      subst hitems hafter
      rw [parseBlockSeq]
      obtain hlt | ⟨hindent, hitem⟩ := hback
      · exact if_pos hlt
      · obtain ⟨hstrip, hdash⟩ := isItem_eq_false_iff.mp hitem
        rw [if_neg (by omega), if_neg (by omega), hstrip]
        exact if_neg hdash
    | item hindent hitem hblank hlast hs hrest hitems =>
      subst hitems
      rw [parseBlockSeq, if_neg (by omega), if_neg (by omega), hitem]
      dsimp only
      rw [if_neg (by simp [hblank, hlast]), hs, hrest]
      rfl

/-- The block parser read below, as the values of a block see it. -/
def nested (fuel : Nat) (child : Nat) (lines : List Line) : Parse (Block × List Line) :=
  parseMap fuel child OrderedMap.empty lines

/-- The ways the block parser goes on at a line. -/
inductive Steps (fuel indent : Nat) (out : Block) (line : Line) (rest : List Line) (m : Block)
    (after : List Line) : Prop
  | back : line.indent < indent → m = out → after = line :: rest → Steps fuel indent out line rest m after
  | entry {key value v rest'} : line.indent = indent → isItem line.content = false →
      splitKey line.content line.no = .ok (key, value) → out.get? key = none →
      Reads (nested fuel) indent line.no value rest v rest' →
      parseMap fuel indent (out.insert key v) rest' = .ok (m, after) →
      Steps fuel indent out line rest m after

theorem parseMap_cons_iff {fuel indent : Nat} {out m : Block} {line : Line} {rest after : List Line} :
    parseMap (fuel + 1) indent out (line :: rest) = .ok (m, after) ↔
      Steps fuel indent out line rest m after := by
  constructor
  · intro h
    rw [parseMap] at h
    split at h
    next hback =>
      cases h
      exact .back hback rfl rfl
    next hback =>
      split at h
      next => cases h
      next hdeep =>
        split at h
        next => cases h
        next hitem =>
          obtain ⟨⟨key, value⟩, hkey, h⟩ := bind_eq_ok h
          dsimp only at h
          split at h
          next => cases h
          next hfresh =>
            obtain ⟨⟨v, rest'⟩, hv, h⟩ := bind_eq_ok h
            exact .entry (by omega) (by simpa using hitem) hkey (by simpa using hfresh)
              (valueOf_ok_iff.mp hv) h
  · intro h
    cases h with
    | back hlt hm hafter =>
      subst hm hafter
      rw [parseMap, if_pos hlt]
    | entry hindent hitem hkey hfresh hv h =>
      rw [parseMap, if_neg (by omega), if_neg (by omega), if_neg (by simp [hitem]), hkey]
      show (if _ then _ else _) = _
      rw [if_neg (by simp [hfresh])]
      have hval : valueOf (fun child lines => parseMap fuel child OrderedMap.empty lines) indent line.no _ _ =
        _ := valueOf_ok_iff.mpr hv
      rw [hval]
      exact h

/-- What is bound stays bound: no key is written twice. -/
theorem get?_of_parseMap {fuel indent : Nat} {out m : Block} {lines after : List Line} {key : String} {v : Value}
    (h : parseMap fuel indent out lines = .ok (m, after)) (hv : out.get? key = some v) :
    m.get? key = some v := by
  induction fuel generalizing indent out lines with
  | zero =>
    cases h
    exact hv
  | succ fuel ih =>
    cases lines with
    | nil =>
      cases h
      exact hv
    | cons line rest =>
      cases parseMap_cons_iff.mp h with
      | back _ hm _ => exact hm ▸ hv
      | entry _ _ _ hfresh _ h =>
        refine ih h ?_
        rw [OrderedMap.get?_insert, if_neg, hv]
        rintro rfl
        rw [hv] at hfresh
        cases hfresh

/-! ## The lines that are used -/

/-- A line that is an item, if it is one, of a list without pairs. -/
def Line.NoPair (line : Line) : Prop :=
  ∀ item, Text.stripPrefix line.content "- ".toList = some item → hasColonBlank (trim item) = false

theorem noPair_of_parseBlockSeq {indent : Nat} {lines after : List Line} {items : List String}
    (h : parseBlockSeq indent lines = .ok (items, after)) :
    ∃ used, lines = used ++ after ∧ ∀ line ∈ used, line.NoPair := by
  induction lines generalizing items with
  | nil =>
    cases h
    exact ⟨[], rfl, nofun⟩
  | cons line rest ih =>
    cases parseBlockSeq_cons_iff.mp h with
    | back _ _ hafter =>
      subst hafter
      exact ⟨[], rfl, nofun⟩
    | item _ hitem hblank _ _ hrest _ =>
      obtain ⟨used, rfl, hused⟩ := ih hrest
      refine ⟨line :: used, rfl, List.forall_mem_cons.mpr ⟨fun item' hitem' => ?_, hused⟩⟩
      obtain rfl := Option.some.inj (hitem.symm.trans hitem')
      exact hblank

theorem noPair_of_reads {block : Nat → List Line → Parse (Block × List Line)} {indent no : Nat}
    {value : List Char} {rest after : List Line} {v : Value} (h : Reads block indent no value rest v after)
    (hblock : ∀ child b, block child rest = .ok (b, after) →
      ∃ used, rest = used ++ after ∧ ∀ line ∈ used, line.NoPair) :
    ∃ used, rest = used ++ after ∧ ∀ line ∈ used, line.NoPair := by
  cases h with
  | inline _ _ => exact ⟨[], rfl, nofun⟩
  | nothing _ => exact ⟨[], rfl, nofun⟩
  | items _ hseq => exact noPair_of_parseBlockSeq hseq
  | block _ hb => exact hblock _ _ hb

/-- No item that is read holds a pair, wherever in the block it stands. -/
theorem noPair_of_parseMap {fuel indent : Nat} {out m : Block} {lines after : List Line}
    (h : parseMap fuel indent out lines = .ok (m, after)) :
    ∃ used, lines = used ++ after ∧ ∀ line ∈ used, line.NoPair := by
  induction fuel generalizing indent out m lines after with
  | zero =>
    cases h
    exact ⟨[], rfl, nofun⟩
  | succ fuel ih =>
    cases lines with
    | nil =>
      cases h
      exact ⟨[], rfl, nofun⟩
    | cons line rest =>
      cases parseMap_cons_iff.mp h with
      | back _ _ hafter =>
        subst hafter
        exact ⟨[], rfl, nofun⟩
      | entry _ hitem _ _ hv hrest =>
        obtain ⟨usedRest, hrestEq, hpre⟩ := noPair_of_reads hv fun child b hb => ih hb
        obtain ⟨used, hafterEq, hpost⟩ := ih hrest
        refine ⟨line :: (usedRest ++ used), by rw [hrestEq, hafterEq]; simp, ?_⟩
        refine List.forall_mem_cons.mpr ⟨fun item hstrip => ?_, fun l hl => ?_⟩
        · rw [(isItem_eq_false_iff.mp hitem).1] at hstrip
          cases hstrip
        · exact (List.mem_append.mp hl).elim (hpre l) (hpost l)

theorem valueOf_congr {block block' : Nat → List Line → Parse (Block × List Line)} {rest : List Line}
    (h : ∀ child, block child rest = block' child rest) (indent no : Nat) (value : List Char) :
    valueOf block indent no value rest = valueOf block' indent no value rest := by
  unfold valueOf
  split
  next =>
    split
    next => rfl
    next => rfl
    next child _ => rw [h child]
  next => rfl

/-- More fuel than there are lines changes nothing, so the parser never stops for want of it. -/
theorem parseMap_fuel {fuel fuel' indent : Nat} {out : Block} {lines : List Line} (h : lines.length ≤ fuel)
    (h' : lines.length ≤ fuel') : parseMap fuel indent out lines = parseMap fuel' indent out lines := by
  induction fuel generalizing fuel' indent out lines with
  | zero =>
    obtain rfl := List.length_eq_zero_iff.mp (Nat.le_zero.mp h)
    cases fuel' <;> rfl
  | succ fuel ih =>
    cases lines with
    | nil => cases fuel' <;> rfl
    | cons line rest =>
      obtain ⟨fuel', rfl⟩ : ∃ n, fuel' = n + 1 := ⟨fuel' - 1, by simp at h'; omega⟩
      have hrest : rest.length ≤ fuel := by simpa using h
      have hrest' : rest.length ≤ fuel' := by simpa using h'
      have hnested : ∀ child, nested fuel child rest = nested fuel' child rest := fun child => ih hrest hrest'
      rw [parseMap, parseMap]
      split
      next => rfl
      next =>
        split
        next => rfl
        next =>
          split
          next => rfl
          next =>
            cases splitKey line.content line.no with
            | error e => rfl
            | ok pair =>
              obtain ⟨key, value⟩ := pair
              show (if _ then _ else _) = if _ then _ else _
              split
              next => rfl
              next =>
                change (valueOf (nested fuel) indent line.no value rest >>= _) =
                  (valueOf (nested fuel') indent line.no value rest >>= _)
                rw [valueOf_congr hnested]
                cases hv : valueOf (nested fuel') indent line.no value rest with
                | error e => rfl
                | ok read =>
                  obtain ⟨v, after⟩ := read
                  obtain ⟨used, hused, -⟩ := noPair_of_reads (valueOf_ok_iff.mp hv)
                    fun child b hb => noPair_of_parseMap hb
                  have hlen : after.length ≤ rest.length := by
                    rw [hused, List.length_append]
                    exact Nat.le_add_left _ _
                  exact ih (hlen.trans hrest) (hlen.trans hrest')

end MarloweAgent.Tools.FrontMatter
