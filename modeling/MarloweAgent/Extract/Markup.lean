import MarloweAgent.Contract.Text
import MarloweAgent.Library.Utf8

/-! The text functions of the HTML extractor. Texts are sliced by bytes, and a slice that is not one is
a panic; a function that slices gives nothing then, and nothing when its loop has not ended. -/

namespace MarloweAgent.Extract.Html
open Contract Library

/-! ## Elements -/

/-- Elements whose contents are not prose. -/
def skipContent : List String :=
  ["script", "style", "svg", "noscript", "iframe", "canvas", "template", "object", "embed", "math"]

/-- Elements whose contents are not markup. -/
def rawText : List String := ["script", "style", "title", "textarea"]

def boilerplate : List String := ["nav", "footer", "header", "aside", "menu", "form", "figcaption"]

def block : List String :=
  ["p", "div", "br", "hr", "li", "ul", "ol", "table", "tr", "td", "th", "h1", "h2", "h3", "h4",
    "h5", "h6", "section", "article", "main", "blockquote", "pre", "dd", "dt", "dl", "figure"]

def content : List String := ["article", "main"]

/-- Whether an element ends the block of text before it. -/
def isBlock (name : String) : Bool := block.contains name || boilerplate.contains name || content.contains name

def isVoid (name : String) : Bool :=
  ["area", "base", "br", "col", "embed", "hr", "img", "input", "link", "meta", "param", "source",
    "track", "wbr"].contains name

/-! ## Slices -/

def trimStart (s : List Char) : List Char := s.dropWhile Text.isWhitespace

def trimEnd (s : List Char) : List Char := s.rdropWhile Text.isWhitespace

def trim (s : List Char) : List Char := trimEnd (trimStart s)

/-- `str::find` of a string that is not empty, by byte. -/
def find (s pat : List Char) : Option Nat :=
  (Utf8.split pat.isPrefixOf s).map fun cut => Text.byteLen cut.1

/-- `&s[start..]`. -/
def sliceFrom (s : List Char) (start : Nat) : Option (List Char) := Utf8.slice s start (Text.byteLen s)

/-- The last character boundary up to byte `i`. -/
def floorCharBoundary : List Char → Nat → Nat
  | [], _ => 0
  | c :: rest, i => if c.utf8Size ≤ i then c.utf8Size + floorCharBoundary rest (i - c.utf8Size) else 0

/-- Runs of blanks become one space; there is none at the beginning. -/
def squeeze : Bool → List Char → List Char
  | _, [] => []
  | space, c :: rest =>
    if Text.isWhitespace c then
      if space then squeeze true rest else ' ' :: squeeze true rest
    else c :: squeeze false rest

def collapse (s : List Char) : List Char := (squeeze true s).rdropWhile (· == ' ')

/-! ## Entities -/

def entities : List (String × String) :=
  [("amp", "&"), ("lt", "<"), ("gt", ">"), ("quot", "\""), ("apos", "'"), ("nbsp", " "),
    ("ndash", "–"), ("mdash", "—"), ("lsquo", "‘"), ("rsquo", "’"), ("ldquo", "“"),
    ("rdquo", "”"), ("hellip", "…"), ("copy", "©"), ("reg", "®"), ("trade", "™"),
    ("deg", "°"), ("plusmn", "±"), ("times", "×"), ("divide", "÷"), ("frac12", "½"),
    ("frac14", "¼"), ("frac34", "¾"), ("sup2", "²"), ("sup3", "³"), ("micro", "µ"),
    ("para", "¶"), ("sect", "§"), ("bull", "•"), ("dagger", "†"), ("Dagger", "‡"),
    ("permil", "‰"), ("prime", "′"), ("Prime", "″"), ("euro", "€"), ("pound", "£"),
    ("yen", "¥"), ("cent", "¢"), ("laquo", "«"), ("raquo", "»"), ("lsaquo", "‹"),
    ("rsaquo", "›"), ("larr", "←"), ("rarr", "→"), ("harr", "↔"), ("uarr", "↑"),
    ("darr", "↓"), ("alpha", "α"), ("beta", "β"), ("gamma", "γ"), ("delta", "δ"),
    ("epsilon", "ε"), ("lambda", "λ"), ("mu", "μ"), ("pi", "π"), ("sigma", "σ"),
    ("tau", "τ"), ("phi", "φ"), ("omega", "ω"), ("Omega", "Ω"), ("infin", "∞"),
    ("ne", "≠")]

/-- `char::to_digit`. -/
def toDigit (radix : Nat) (c : Char) : Option Nat :=
  let d :=
    if '0' ≤ c ∧ c ≤ '9' then c.toNat - '0'.toNat
    else if 'a' ≤ c ∧ c ≤ 'z' then c.toNat - 'a'.toNat + 10
    else if 'A' ≤ c ∧ c ≤ 'Z' then c.toNat - 'A'.toNat + 10
    else radix
  if d < radix then some d else none

/-- `u32::from_str_radix`: digits, after a plus sign or none. -/
def parseU32 (radix : Nat) (s : List Char) : Option Nat :=
  let digits := if s.head? = some '+' then s.tail else s
  match digits.mapM (toDigit radix) with
  | some (d :: ds) =>
    let n := (d :: ds).foldl (fun n d => n * radix + d) 0
    if n < 2 ^ 32 then some n else none
  | _ => none

/-- `char::from_u32`. -/
def charFromU32 (n : Nat) : Option Char := if n.isValidChar then some (Char.ofNat n) else none

/-- What stands for an entity that is one. -/
def entityValue (body : List Char) : Option (List Char) :=
  match Text.stripPrefix body ['#'] with
  | some stripped =>
    let number :=
      match stripped with
      | 'x' :: hex | 'X' :: hex => parseU32 16 hex
      | _ => parseU32 10 stripped
    (number.bind charFromU32).map ([·])
  | none => (entities.find? fun entity => entity.1.toList == body).map (·.2.toList)

/-- The loop of `decode_entities`, at byte `i`. -/
def decodeFrom (s : List Char) : Nat → Nat → List Char → Option (List Char)
  | 0, _, _ => none
  | fuel + 1, i, out =>
    if i < Text.byteLen s then
      if (Utf8.bytes s)[i]? ≠ some (Utf8.byteOf '&') then do
        let next := (Utf8.memchr '&' ((Utf8.bytes s).drop i)).elim (Text.byteLen s) (i + ·)
        let part ← Utf8.slice s i next
        decodeFrom s fuel next (out ++ part)
      else do
        let limit := floorCharBoundary s (min (i + 32) (Text.byteLen s))
        let window ← Utf8.slice s i limit
        match find window [';'] with
        | none => decodeFrom s fuel (i + 1) (out ++ ['&'])
        | some rel => do
          let semi := i + rel
          let body ← Utf8.slice s (i + 1) semi
          match entityValue body with
          | some value => decodeFrom s fuel (semi + 1) (out ++ value)
          | none => do
            let verbatim ← Utf8.slice s i (semi + 1)
            decodeFrom s fuel (semi + 1) (out ++ verbatim)
    else some out

def decodeEntities (s : List Char) : Option (List Char) :=
  if '&' ∉ s then some s else decodeFrom s (Text.byteLen s + 1) 0 []

/-! ## Tags -/

def tagName (raw : List Char) : Option String := do
  let s := (raw.dropWhile (· == '<')).dropWhile (· == '/')
  let stop := (Utf8.split (fun l => l.head?.any fun c => Text.isWhitespace c || c == '>' || c == '/') s).elim
    (Text.byteLen s) fun cut => Text.byteLen cut.1
  let name ← Utf8.slice s 0 stop
  some (String.ofList (name.map Text.toAsciiLowercaseChar))

/-- The value of an attribute, of what stands after its equals sign. -/
def attrValue (rest : List Char) : List Char :=
  match rest with
  | '"' :: r => r.takeWhile (· ≠ '"')
  | '\'' :: r => r.takeWhile (· ≠ '\'')
  | _ => (rest.takeWhile fun c => !(c == ' ' || c == '\t' || c == '\n' || c == '\r' || c == '>')).rdropWhile (· == '/')

/-- The loop of `attr`, from byte `start`. -/
def attrFrom (raw lower name : List Char) : Nat → Nat → Option (Option (List Char))
  | 0, _ => none
  | fuel + 1, start => do
    let tail ← sliceFrom lower start
    match find tail name with
    | none => some none
    | some rel => do
      let hit := start + rel
      let before ← Utf8.slice lower 0 hit
      let beforeOk := before.getLast?.any fun c => Text.isWhitespace c || c == '"' || c == '\''
      let after := trimStart (← sliceFrom lower (hit + Text.byteLen name))
      match if beforeOk then Text.stripPrefix after ['='] else none with
      | some rest => do
        let value ← sliceFrom raw (Text.byteLen raw - Text.byteLen rest)
        some (some (attrValue (trimStart value)))
      | none => attrFrom raw lower name fuel (hit + Text.byteLen name)

/-- An attribute of a tag. -/
def attr (raw : List Char) (name : String) : Option (Option (List Char)) :=
  attrFrom raw (raw.map Text.toAsciiLowercaseChar) name.toList (Text.byteLen raw + 1) 0

/-- The rest of `resolve`, of a reference that is neither empty nor a whole address. -/
def resolveUnder (base href lower : List Char) : Option (Option (List Char)) :=
  if "//".toList.isPrefixOf href then some (some (base.takeWhile (· ≠ ':') ++ ':' :: href))
  else
    match find base "://".toList with
    | none => some none
    | some rel => do
      let schemeEnd := rel + 3
      let authorityEnd := (find (← sliceFrom base schemeEnd) ['/']).elim (Text.byteLen base) (schemeEnd + ·)
      let origin ← Utf8.slice base 0 authorityEnd
      let head := lower.takeWhile (· ≠ ':')
      if href.head? = some '/' then some (some (origin ++ href))
      else if ':' ∈ lower ∧ href.head? ≠ some '.' ∧ head ≠ [] ∧
          head.all (fun c => c.isAlphanum || c == '+' || c == '-') then some none
      else do
        let path := (← sliceFrom base authorityEnd).takeWhile fun c => !(c == '?' || c == '#')
        let dir ← match Text.rsplitOnce path '/' with
          | some (before, _) => Utf8.slice path 0 (Text.byteLen before + 1)
          | none => some ['/']
        some (some (origin ++ (dir ++ href)))

/-- `href` against the document's own address. -/
def resolve (base : Option (List Char)) (href : List Char) : Option (Option (List Char)) :=
  let href := trim href
  let lower := href.map Text.toAsciiLowercaseChar
  if href = [] ∨ href.head? = some '#' then some none
  else if ["javascript:", "data:", "vbscript:", "about:"].any (·.toList.isPrefixOf lower) then some none
  else if "http://".toList.isPrefixOf lower || "https://".toList.isPrefixOf lower then some (some href)
  else
    match base with
    | none => some none
    | some base => resolveUnder base href lower

theorem trim_eq_nil {s : List Char} : trim s = [] ↔ ∀ c ∈ s, Text.isWhitespace c = true := by
  constructor
  · intro h
    have hfront : s.dropWhile Text.isWhitespace = [] := by
      by_contra hsome
      have hfirst := List.rdropWhile_eq_nil_iff.mp h
      obtain ⟨c, rest, hcons⟩ := List.exists_cons_of_ne_nil hsome
      have hc := hfirst c (by rw [trimStart, hcons]; exact List.mem_cons_self)
      have hnot := List.head_dropWhile_not Text.isWhitespace hsome
      simp only [hcons, List.head_cons] at hnot
      rw [hc] at hnot
      cases hnot
    exact List.dropWhile_eq_nil_iff.mp hfront
  · intro h
    rw [trim, trimStart, List.dropWhile_eq_nil_iff.mpr h]
    rfl

/-! ## No function panics, and each ends -/

theorem byteLen_eq (s : List Char) : Text.byteLen s = (Utf8.bytes s).length := (Utf8.length_bytes s).symm

theorem byteLen_append (s t : List Char) : Text.byteLen (s ++ t) = Text.byteLen s + Text.byteLen t := by
  rw [Text.byteLen, List.map_append, List.sum_append, Text.byteLen, Text.byteLen]

theorem byteLen_cons (c : Char) (s : List Char) : Text.byteLen (c :: s) = c.utf8Size + Text.byteLen s := by
  rw [Text.byteLen, List.map_cons, List.sum_cons, Text.byteLen]

theorem slice_mid (before mid after : List Char) :
    Utf8.slice (before ++ (mid ++ after)) (Text.byteLen before) (Text.byteLen before + Text.byteLen mid) =
      some mid :=
  Utf8.slice_append before mid after (byteLen_eq before) (by rw [byteLen_eq mid])

theorem slice_before (before after : List Char) : Utf8.slice (before ++ after) 0 (Text.byteLen before) = some before :=
  Utf8.slice_append [] before after rfl (by rw [byteLen_eq, Nat.zero_add])

theorem sliceFrom_append (before after : List Char) : sliceFrom (before ++ after) (Text.byteLen before) = some after := by
  have hslice := slice_mid before after []
  rwa [List.append_nil, ← byteLen_append] at hslice

theorem find_some {s pat : List Char} {n : Nat} (h : find s pat = some n) :
    ∃ before after, s = before ++ (pat ++ after) ∧ n = Text.byteLen before := by
  obtain ⟨⟨before, found⟩, hsplit, rfl⟩ := Option.map_eq_some_iff.mp h
  obtain ⟨hs, -, hfound, -⟩ := Utf8.split_eq_some hsplit
  obtain ⟨after, hafter⟩ := List.isPrefixOf_iff_prefix.mp hfound
  exact ⟨before, after, by rw [hafter, hs], rfl⟩

/-- What is rounded down is the length of a beginning of the text. -/
theorem floorCharBoundary_eq (s : List Char) (i : Nat) :
    ∃ before after, s = before ++ after ∧ floorCharBoundary s i = Text.byteLen before := by
  induction s generalizing i with
  | nil => exact ⟨[], [], rfl, rfl⟩
  | cons c rest ih =>
    rw [floorCharBoundary]
    split
    · obtain ⟨before, after, hrest, hfloor⟩ := ih (i - c.utf8Size)
      exact ⟨c :: before, after, by rw [hrest, List.cons_append], by rw [hfloor, byteLen_cons]⟩
    · exact ⟨[], c :: rest, rfl, rfl⟩

theorem floorCharBoundary_append {before : List Char} {i : Nat} (h : Text.byteLen before ≤ i) (after : List Char) :
    floorCharBoundary (before ++ after) i =
      Text.byteLen before + floorCharBoundary after (i - Text.byteLen before) := by
  induction before generalizing i with
  | nil => simp [Text.byteLen]
  | cons c rest ih =>
    rw [byteLen_cons] at h
    rw [List.cons_append, floorCharBoundary, if_pos (by omega), ih (by omega), byteLen_cons, Nat.add_assoc, Nat.sub_sub]

/-- The slice up to a rounded end. -/
theorem slice_floor {before : List Char} {i : Nat} (h : Text.byteLen before ≤ i) (after : List Char) :
    ∃ mid rest, after = mid ++ rest ∧
      Utf8.slice (before ++ after) (Text.byteLen before) (floorCharBoundary (before ++ after) i) = some mid := by
  obtain ⟨mid, rest, rfl, hfloor⟩ := floorCharBoundary_eq after (i - Text.byteLen before)
  refine ⟨mid, rest, rfl, ?_⟩
  rw [floorCharBoundary_append h, hfloor]
  exact slice_mid before mid rest

theorem drop_byteLen (before after : List Char) :
    (Utf8.bytes (before ++ after)).drop (Text.byteLen before) = Utf8.bytes after :=
  Utf8.drop_bytes before after (byteLen_eq before)

theorem byteLen_pos {s : List Char} (h : s ≠ []) : 0 < Text.byteLen s := by
  obtain ⟨c, rest, rfl⟩ := List.exists_cons_of_ne_nil h
  rw [byteLen_cons]
  exact Nat.add_pos_left c.utf8Size_pos _

theorem decodeFrom_total (before rest : List Char) {fuel : Nat} (hfuel : Text.byteLen rest < fuel)
    (out : List Char) : ∃ decoded, decodeFrom (before ++ rest) fuel (Text.byteLen before) out = some decoded := by
  induction fuel generalizing before rest out with
  | zero => omega
  | succ fuel ih =>
    -- the loop goes on behind what it has read
    have hnext {mid after : List Char} (hrest : rest = mid ++ after) (hmid : mid ≠ []) {i : Nat}
        (hi : i = Text.byteLen before + Text.byteLen mid) (out' : List Char) :
        ∃ decoded, decodeFrom (before ++ rest) fuel i out' = some decoded := by
      have hpos := byteLen_pos hmid
      rw [hrest, byteLen_append] at hfuel
      rw [hi, hrest, ← byteLen_append, ← List.append_assoc]
      exact ih (before ++ mid) after (by omega) out'
    have hbyte : (Utf8.bytes (before ++ rest))[Text.byteLen before]? = (Utf8.bytes rest).head? := by
      rw [← List.head?_drop, drop_byteLen]
    rw [decodeFrom, hbyte, drop_byteLen]
    split
    · rename_i hmore
      have hsome : rest ≠ [] := by
        rintro rfl
        rw [List.append_nil] at hmore
        exact Nat.lt_irrefl _ hmore
      split
      · rename_i hnot
        rw [ne_eq, Utf8.head?_bytes (by decide)] at hnot
        rw [Utf8.memchr_bytes (by decide)]
        cases hsplit : Utf8.split (fun s => s.head? == some '&') rest with
        | none =>
          have hwhole := slice_mid before rest []
          rw [List.append_nil, ← byteLen_append] at hwhole
          simp only [Option.map_none, Option.elim_none, hwhole, Option.bind_eq_bind, Option.bind_some]
          exact hnext (List.append_nil rest).symm hsome (byteLen_append _ _) _
        | some cut =>
          obtain ⟨mid, after⟩ := cut
          obtain ⟨hrest, -, hfound, -⟩ := Utf8.split_eq_some hsplit
          have hmid : mid ≠ [] := by
            rintro rfl
            rw [hrest] at hnot
            exact hnot (eq_of_beq hfound)
          have hpart := slice_mid before mid after
          rw [← hrest, byteLen_eq mid] at hpart
          simp only [Option.map_some, Option.elim_some, hpart, Option.bind_eq_bind, Option.bind_some]
          exact hnext hrest hmid (by rw [byteLen_eq mid]) _
      · rename_i hamp
        rw [ne_eq, not_not, Utf8.head?_bytes (by decide)] at hamp
        obtain ⟨after, rfl⟩ : ∃ after, rest = '&' :: after := by
          cases rest with
          | nil => cases hamp
          | cons c after => exact ⟨after, by rw [Option.some_inj.mp hamp]⟩
        have hroom : Text.byteLen before ≤
            min (Text.byteLen before + 32) (Text.byteLen (before ++ '&' :: after)) := by
          rw [byteLen_append]
          exact Nat.le_min.mpr ⟨Nat.le_add_right _ _, Nat.le_add_right _ _⟩
        obtain ⟨window, tail, hwindow, hslice⟩ := slice_floor hroom ('&' :: after)
        simp only [hslice, Option.bind_eq_bind, Option.bind_some]
        cases hfind : find window [';'] with
        | none => exact hnext (List.singleton_append ..).symm (List.cons_ne_nil _ _) rfl _
        | some rel =>
          obtain ⟨pre, post, rfl, rfl⟩ := find_some hfind
          obtain ⟨body, rfl⟩ : ∃ body, pre = '&' :: body := by
            cases pre with
            | nil => cases hwindow
            | cons c body =>
              rw [List.append_assoc, List.cons_append] at hwindow
              exact ⟨body, by rw [(List.cons.inj hwindow).1]⟩
          have hmark : Text.byteLen ['&'] = 1 := rfl
          have hend : Text.byteLen [';'] = 1 := rfl
          have hall : before ++ '&' :: after = before ++ (('&' :: body ++ [';']) ++ (post ++ tail)) := by
            rw [hwindow]
            simp
          have hbody := slice_mid (before ++ ['&']) body ([';'] ++ (post ++ tail))
          have hverbatim := slice_mid before ('&' :: body ++ [';']) (post ++ tail)
          have hsemi : Text.byteLen before + Text.byteLen ('&' :: body) + 1 =
              Text.byteLen before + Text.byteLen ('&' :: body ++ [';']) := by
            rw [byteLen_append, hend, Nat.add_assoc]
          have hopen : Text.byteLen ('&' :: body) = 1 + Text.byteLen body := byteLen_cons '&' body
          have hstart : Text.byteLen (before ++ ['&']) + Text.byteLen body =
              Text.byteLen before + Text.byteLen ('&' :: body) := by
            rw [byteLen_append, hopen, hmark, Nat.add_assoc]
          rw [hstart, byteLen_append, hmark] at hbody
          rw [← hall, ← hsemi] at hverbatim
          have hslices : before ++ ['&'] ++ (body ++ ([';'] ++ (post ++ tail))) = before ++ '&' :: after := by
            rw [hall]
            simp
          rw [hslices] at hbody
          simp only [hbody, Option.bind_some]
          have hafter : '&' :: after = ('&' :: body ++ [';']) ++ (post ++ tail) := List.append_cancel_left hall
          cases hvalue : entityValue body with
          | some value => exact hnext hafter (by simp) hsemi _
          | none =>
            simp only [hverbatim, Option.bind_some]
            exact hnext hafter (by simp) hsemi _
    · exact ⟨out, rfl⟩

theorem decodeEntities_total (s : List Char) : ∃ decoded, decodeEntities s = some decoded := by
  rw [decodeEntities]
  split
  · exact ⟨s, rfl⟩
  · exact decodeFrom_total [] s (Nat.lt_succ_self _) []

theorem tagName_total (raw : List Char) : ∃ name, tagName raw = some name := by
  rw [tagName]
  generalize (raw.dropWhile (· == '<')).dropWhile (· == '/') = s
  cases hsplit : Utf8.split (fun l => l.head?.any fun c => Text.isWhitespace c || c == '>' || c == '/') s with
  | none =>
    have hslice := slice_before s []
    rw [List.append_nil] at hslice
    simp only [Option.elim_none, hslice, Option.bind_eq_bind, Option.bind_some]
    exact ⟨_, rfl⟩
  | some cut =>
    obtain ⟨rfl, -⟩ := Utf8.split_eq_some hsplit
    simp only [Option.elim_some, slice_before, Option.bind_eq_bind, Option.bind_some]
    exact ⟨_, rfl⟩

/-- Lowering ASCII characters keeps their sizes. -/
theorem utf8Size_toAsciiLowercaseChar (c : Char) : (Text.toAsciiLowercaseChar c).utf8Size = c.utf8Size := by
  by_cases hc : 'A' ≤ c ∧ c ≤ 'Z'
  · have hlow : 65 ≤ c.toNat := hc.1
    have hhigh : c.toNat ≤ 90 := hc.2
    have hletters : ∀ n < 26, (Text.toAsciiLowercaseChar (Char.ofNat (n + 65))).utf8Size =
        (Char.ofNat (n + 65)).utf8Size := by decide
    have hcode := hletters (c.toNat - 65) (by omega)
    rwa [Nat.sub_add_cancel hlow, Char.ofNat_toNat] at hcode
  · rw [Text.toAsciiLowercaseChar, if_neg hc]

theorem byteLen_lower (s : List Char) : Text.byteLen (s.map Text.toAsciiLowercaseChar) = Text.byteLen s := by
  induction s with
  | nil => rfl
  | cons c rest ih => rw [List.map_cons, byteLen_cons, byteLen_cons, ih, utf8Size_toAsciiLowercaseChar]

/-- What stands at an end of the lowered tag is sliced off the tag by its length. -/
theorem sliceFrom_raw {raw before rest : List Char} (h : raw.map Text.toAsciiLowercaseChar = before ++ rest) :
    ∃ tail, sliceFrom raw (Text.byteLen raw - Text.byteLen rest) = some tail := by
  obtain ⟨front, tail, rfl, -, rfl⟩ := List.map_eq_append_iff.mp h
  rw [byteLen_lower, byteLen_append, Nat.add_sub_cancel]
  exact ⟨tail, sliceFrom_append front tail⟩

theorem attrFrom_total {raw name : List Char} (hname : name ≠ []) {before rest : List Char}
    (hlower : raw.map Text.toAsciiLowercaseChar = before ++ rest) {fuel : Nat} (hfuel : Text.byteLen rest < fuel) :
    ∃ value, attrFrom raw (raw.map Text.toAsciiLowercaseChar) name fuel (Text.byteLen before) = some value := by
  induction fuel generalizing before rest with
  | zero => omega
  | succ fuel ih =>
    rw [attrFrom, hlower]
    simp only [sliceFrom_append, Option.bind_eq_bind, Option.bind_some]
    cases hfind : find rest name with
    | none => exact ⟨none, rfl⟩
    | some rel =>
      obtain ⟨skipped, after, rfl, rfl⟩ := find_some hfind
      have hhit := slice_before (before ++ skipped) (name ++ after)
      have hbehind := sliceFrom_append (before ++ skipped ++ name) after
      rw [byteLen_append, List.append_assoc] at hhit
      rw [byteLen_append, byteLen_append, List.append_assoc, List.append_assoc] at hbehind
      simp only [hhit, hbehind, Option.bind_some]
      split
      · rename_i found hfound
        split at hfound
        · obtain ⟨blanks, hblanks⟩ := List.dropWhile_suffix (l := after) Text.isWhitespace
          have hequals := Text.stripPrefix_eq_some hfound
          have hsplit : raw.map Text.toAsciiLowercaseChar = (before ++ (skipped ++ (name ++ (blanks ++ ['='])))) ++ found := by
            rw [hlower, ← hblanks, ← trimStart, hequals]
            simp
          obtain ⟨tail, htail⟩ := sliceFrom_raw hsplit
          simp only [htail, Option.bind_some]
          exact ⟨_, rfl⟩
        · cases hfound
      · have hpos := byteLen_pos hname
        rw [byteLen_append, byteLen_append] at hfuel
        have hsplit : raw.map Text.toAsciiLowercaseChar = (before ++ skipped ++ name) ++ after := by
          rw [hlower]
          simp
        have hon := ih hsplit (by omega)
        rwa [byteLen_append, byteLen_append, hlower] at hon

theorem attr_total (raw : List Char) (name : String) (hname : name.toList ≠ []) :
    ∃ value, attr raw name = some value := by
  have hlower : raw.map Text.toAsciiLowercaseChar = [] ++ raw.map Text.toAsciiLowercaseChar := rfl
  refine attrFrom_total hname hlower ?_
  rw [byteLen_lower]
  exact Nat.lt_succ_self _

theorem resolveUnder_total (base href lower : List Char) : ∃ url, resolveUnder base href lower = some url := by
  rw [resolveUnder]
  split
  · exact ⟨_, rfl⟩
  · cases hscheme : find base "://".toList with
    | none => exact ⟨none, rfl⟩
    | some rel =>
      obtain ⟨scheme, after, rfl, rfl⟩ := find_some hscheme
      have hmark : Text.byteLen "://".toList = 3 := by decide
      have hafter := sliceFrom_append (scheme ++ "://".toList) after
      rw [byteLen_append, hmark, List.append_assoc] at hafter
      -- the origin ends where a character begins
      obtain ⟨origin, tail, hbase, hend⟩ : ∃ origin tail, scheme ++ ("://".toList ++ after) = origin ++ tail ∧
          (find after ['/']).elim (Text.byteLen (scheme ++ ("://".toList ++ after))) (Text.byteLen scheme + 3 + ·) =
            Text.byteLen origin := by
        cases hslash : find after ['/'] with
        | none => exact ⟨_, [], (List.append_nil _).symm, rfl⟩
        | some i =>
          obtain ⟨authority, path, rfl, rfl⟩ := find_some hslash
          refine ⟨scheme ++ "://".toList ++ authority, ['/'] ++ path, by simp, ?_⟩
          rw [Option.elim_some, byteLen_append, byteLen_append, hmark]
      simp only [hafter, Option.bind_eq_bind, Option.bind_some, hend]
      rw [hbase, slice_before, Option.bind_some, sliceFrom_append]
      split
      · exact ⟨_, rfl⟩
      · split
        · exact ⟨_, rfl⟩
        · rw [Option.bind_some]
          generalize tail.takeWhile (fun c => !(c == '?' || c == '#')) = path
          cases hsplit : Text.rsplitOnce path '/' with
          | none => exact ⟨_, rfl⟩
          | some cut =>
            obtain ⟨before, last⟩ := cut
            obtain ⟨rfl, -⟩ := Text.rsplitOnce_eq_some hsplit
            have hdir := slice_before (before ++ ['/']) last
            rw [byteLen_append, List.append_assoc] at hdir
            have hslash : Text.byteLen ['/'] = 1 := rfl
            rw [hslash] at hdir
            exact ⟨_, congrArg (Option.bind · fun dir => some (some (origin ++ (dir ++ href)))) hdir⟩

theorem resolve_total (base : Option (List Char)) (href : List Char) : ∃ url, resolve base href = some url := by
  unfold resolve
  dsimp only
  split
  · exact ⟨none, rfl⟩
  · split
    · exact ⟨none, rfl⟩
    · split
      · exact ⟨_, rfl⟩
      · cases base with
        | none => exact ⟨none, rfl⟩
        | some base => exact resolveUnder_total base _ _

end MarloweAgent.Extract.Html
