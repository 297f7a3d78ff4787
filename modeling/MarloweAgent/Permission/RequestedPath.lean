import MarloweAgent.Tools.Manifest

/-! A requested path before any system call: the spellings that are refused, and
the declared globs a request is matched against. Unicode normalization is the
host library's and a parameter here. -/

namespace MarloweAgent.Permission
open Contract Tools

/-- The tables of `unicode_normalization`. -/
structure Normalizer where
  isNfc : String → Bool
  nfc : String → String

/-- `normalize_for_match`. -/
def Normalizer.normalizeForMatch (unicode : Normalizer) (s : String) : String :=
  if unicode.isNfc s then s else unicode.nfc s

inductive RequestError
  | notRelative (requested : String)
  | parentComponent (requested : String)
  | emptyComponent (requested : String)
  | colon (component : String)
  | nul (component : String)
  | trailingDotOrSpace (component : String)
  | reservedDeviceName (component : String)
  | shortName (component : String)
  | homoglyphSeparator (component : String)
  | controlCharacter (component : String)
  deriving DecidableEq, Repr

def RequestError.render : RequestError → String
  | notRelative requested =>
    s!"`{requested}` is absolute or drive-qualified. A tool's paths are declared relative to " ++
    "the workspace, and an absolute request is a request to leave it"
  | parentComponent requested =>
    s!"`{requested}` contains a `..` component. It is refused rather than collapsed: a " ++
    "relative request inside a workspace never needs one, and collapsing is where a check " ++
    "and a kernel disagree"
  | emptyComponent requested => s!"`{requested}` contains an empty path component"
  | colon component =>
    s!"component `{component}` contains a colon. On Windows that is an alternate data stream " ++
    "or a drive specifier — `allowed.txt:hidden` is a different file from `allowed.txt`"
  | nul component => s!"component `{component}` contains a NUL byte"
  | trailingDotOrSpace component =>
    s!"component `{component}` ends with a dot or a space. Win32 strips both, so two " ++
    "different strings would name one file and only one of them would be checked"
  | reservedDeviceName component =>
    s!"component `{component}` is a reserved device name. `CON`, `NUL`, `COM1` and their " ++
    "kin resolve to devices rather than files, whatever directory they appear in"
  | shortName component =>
    s!"component `{component}` looks like an 8.3 short name. A short name is a second " ++
    "spelling of a file that a declared glob written against the long name would not " ++
    "match. Rename the request to the long form"
  | homoglyphSeparator component =>
    s!"component `{component}` contains a character that looks like a path separator and is " ++
    "not (U+2215 or U+FF0F). One component pretending to be two"
  | controlCharacter component => s!"component `{component}` contains a control character"

/-- A path that passed `validate`: its components, normalized. -/
structure RequestedPath where
  components : List String
  deriving DecidableEq, Repr

def RequestedPath.asRelative (path : RequestedPath) : String := Text.join "/" path.components

/-! ## Validation -/

def reservedNames : List String :=
  ["CON", "PRN", "AUX", "NUL", "COM1", "COM2", "COM3", "COM4", "COM5", "COM6", "COM7", "COM8",
    "COM9", "LPT1", "LPT2", "LPT3", "LPT4", "LPT5", "LPT6", "LPT7", "LPT8", "LPT9"]

def separatorHomoglyphs : List Char :=
  [Char.ofNat 0x2215, Char.ofNat 0xFF0F, Char.ofNat 0x29F8, Char.ofNat 0xFE68]

/-- Up to six bytes, a tilde and one or two digits, with an extension of at most three. -/
def looksLikeShortName (component : List Char) : Bool :=
  let (stem, ext) := match Text.rsplitOnce component '.' with
    | some (stem, ext) => (stem, some ext)
    | none => (component, none)
  if ext.any fun e => 3 < Text.byteLen e || e.isEmpty then false
  else
    match Text.rsplitOnce stem '~' with
    | none => false
    | some (before, after) =>
      !before.isEmpty && Text.byteLen before ≤ 6 && !after.isEmpty && Text.byteLen after ≤ 2
        && after.all Char.isDigit

/-- Absolute or drive-qualified, on the raw text. -/
def isRooted : List Char → Bool
  | [] => false
  | c :: rest => c = '/' || c = '\\' || (rest.head? = some ':' && c.isAlpha)

def isSeparator (c : Char) : Bool := c = '/' || c = '\\'

/-- What is wrong with one nonempty component, in the order it is looked for. -/
def componentError (raw : String) (part : List Char) : Option RequestError :=
  let component := String.ofList part
  if part = ['.', '.'] then some (.parentComponent raw)
  else if Char.ofNat 0 ∈ part then some (.nul component)
  else if part.any Text.isControl then some (.controlCharacter component)
  else if ':' ∈ part then some (.colon component)
  else if part.any (· ∈ separatorHomoglyphs) then some (.homoglyphSeparator component)
  else if part.getLast? = some '.' ∨ part.getLast? = some ' ' then
    some (.trailingDotOrSpace component)
  else if Text.toAsciiUppercase (String.ofList (part.takeWhile (· ≠ '.'))) ∈ reservedNames then
    some (.reservedDeviceName component)
  else if looksLikeShortName part then some (.shortName component)
  else none

/-- The components of `raw` from its pieces between separators. `.` is dropped, and
so is the empty piece behind a trailing separator. -/
def componentsOf (unicode : Normalizer) (raw : String) :
    List (List Char) → Except RequestError (List String)
  | [] => .ok []
  | part :: rest =>
    if part = ['.'] then componentsOf unicode raw rest
    else if part.isEmpty then
      if raw.toList.getLast?.any isSeparator then componentsOf unicode raw rest
      else .error (.emptyComponent raw)
    else
      match componentError raw part with
      | some e => .error e
      | none => do
        let components ← componentsOf unicode raw rest
        pure (unicode.normalizeForMatch (String.ofList part) :: components)

def validate (unicode : Normalizer) (requested : String) : Except RequestError RequestedPath :=
  if isRooted requested.toList then .error (.notRelative requested)
  else do
    let components ← componentsOf unicode requested (requested.toList.splitOnP isSeparator)
    pure ⟨components⟩

/-! ## Declared globs -/

/-- The literals between stars, each found after the one before it. -/
def findMiddles : List (List Char) → List Char → Option (List Char)
  | [], rest => some rest
  | middle :: more, rest =>
    if middle.isEmpty then findMiddles more rest
    else
      match Text.find rest middle with
      | some i => findMiddles more (rest.drop (i + middle.length))
      | none => none

/-- `*` inside one segment: the first literal is at the start and the last at the end. -/
def matchWithinSegment (pat s : List Char) : Bool :=
  match pat.splitOn '*' with
  | [] => false
  | [whole] => whole = s
  | first :: rest =>
    match Text.stripPrefix s first with
    | none => false
    | some s =>
      match findMiddles rest.dropLast s with
      | none => false
      | some s => (rest.getLast?.getD []).isSuffixOf s

def matchSegments : List (List Char) → List (List Char) → Bool
  | [], seg => seg.isEmpty
  | p :: pat, seg =>
    if p = ['*', '*'] then
      (List.range (seg.length + 1)).any fun skip => matchSegments pat (seg.drop skip)
    else
      match seg with
      | [] => false
      | s :: seg => matchWithinSegment p s && matchSegments pat seg

def segments (path : List Char) : List (List Char) := (path.splitOn '/').filter (!·.isEmpty)

def matchesOne (unicode : Normalizer) (pattern : PathGlob) (path : String) : Bool :=
  let pattern := (unicode.normalizeForMatch pattern.text).toList
  matchSegments (segments ((Text.stripPrefix pattern ['.', '/']).getD pattern))
    (segments path.toList)

/-- Some declared glob admits the request. -/
def admits (unicode : Normalizer) (declared : List PathGlob) (request : RequestedPath) : Bool :=
  declared.any (matchesOne unicode · request.asRelative)

end MarloweAgent.Permission
