import MarloweAgent.Extract.Document
import MarloweAgent.Extract.Markup

/-! The HTML extractor's parser: one pass over the bytes of a page, which keeps no tree. Text stands in
the block that is being filled, unless an element whose contents are not prose is counted open. -/

namespace MarloweAgent.Extract.Html
open Contract Library

/-- One run of text with the context it was found in. -/
structure TextBlock where
  text : List Char
  boilerplate : Bool
  content : Bool
  linkChars : Nat
  deriving DecidableEq, Repr

structure Parser where
  pos : Nat
  blocks : List TextBlock
  blockChars : Nat
  current : List Char
  currentLinks : Nat
  stack : List String
  boilerDepth : Nat
  contentDepth : Nat
  skipDepth : Nat
  title : Option (List Char)
  lang : Option (List Char)
  description : Option (List Char)
  links : List Link
  headings : List Heading
  scriptChars : Nat
  anchor : Option (List Char × Nat)
  heading : Option (UInt8 × Nat)
  deriving DecidableEq, Repr

def maxStack : Nat := 512

def maxLinks : Nat := 5000

def maxTitleBytes : Nat := 4096

def maxHeadings : Nat := 2000

def maxTextChars : Nat := 8 * 1024 * 1024

/-! ## Searching the bytes -/

/-- `find_from`. -/
def findFrom (hay : List UInt8) (start : Nat) (needle : List Char) : Option Nat :=
  if hay.length ≤ start then none
  else (Utf8.search (Utf8.bytes needle).isPrefixOf (hay.drop start)).map (start + ·)

/-- `u8::to_ascii_lowercase`. -/
def lowerByte (b : UInt8) : UInt8 := if 65 ≤ b.toNat ∧ b.toNat ≤ 90 then b + 32 else b

def eqIgnoreCase (a b : UInt8) : Bool := lowerByte a == lowerByte b

/-- `find_ci`. -/
def findCi (hay : List UInt8) (start : Nat) (needle : List Char) : Option Nat :=
  if hay.length ≤ start ∨ needle = [] then none
  else (Utf8.search (Utf8.beginsAs eqIgnoreCase (Utf8.bytes needle)) (hay.drop start)).map (start + ·)

/-- What may follow the name in a closing tag. -/
def terminators : List Char := [' ', '\t', '\n', '\r', '\x0c', '/', '>']

/-- The loop of `find_close_tag`. -/
def findCloseTag (hay : List UInt8) (needle : List Char) : Nat → Nat → Option Nat
  | 0, _ => none
  | fuel + 1, start =>
    match findCi hay start needle with
    | none => none
    | some hit =>
      if hay[hit + needle.length]?.all fun b => (terminators.map Utf8.byteOf).contains b then some hit
      else findCloseTag hay needle fuel (hit + 1)

/-- The loop of `tag_end`: the quote that is open, the bytes to read and their place. -/
def tagEndFrom : Option UInt8 → List UInt8 → Nat → Option Nat
  | _, [], _ => none
  | some q, c :: rest, i => tagEndFrom (if c == q then none else some q) rest (i + 1)
  | none, c :: rest, i =>
    if c == Utf8.byteOf '"' || c == Utf8.byteOf '\'' then tagEndFrom (some c) rest (i + 1)
    else if c == Utf8.byteOf '>' then some (i + 1)
    else tagEndFrom none rest (i + 1)

/-- `tag_end`. -/
def tagEnd (src : List UInt8) (start : Nat) : Option Nat := tagEndFrom none (src.drop (start + 1)) (start + 1)

namespace Parser

def new : Parser :=
  { pos := 0, blocks := [], blockChars := 0, current := [], currentLinks := 0, stack := [], boilerDepth := 0
    contentDepth := 0, skipDepth := 0, title := none, lang := none, description := none, links := []
    headings := [], scriptChars := 0, anchor := none, heading := none }

/-- `push_text`, of a slice. -/
def pushSlice (p : Parser) (raw : List Char) : Option Parser :=
  if trim raw = [] then
    some { p with
      current := if p.current.getLast? ≠ some ' ' ∧ p.current ≠ [] then p.current ++ [' '] else p.current }
  else do
    let decoded ← decodeEntities raw
    some { p with current := p.current ++ decoded }

def pushText (text : List Char) (p : Parser) (start stop : Nat) : Option Parser :=
  if 0 < p.skipDepth ∨ stop ≤ start then some p
  else do
    let raw ← Utf8.slice text start stop
    p.pushSlice raw

def flushBlock (p : Parser) : Parser :=
  let text := collapse p.current
  let p := { p with current := [], currentLinks := 0 }
  if text = [] ∨ maxTextChars ≤ p.blockChars then p
  else
    { p with
      blockChars := p.blockChars + Text.byteLen text
      blocks := p.blocks ++
        [⟨text, decide (0 < p.boilerDepth), decide (0 < p.contentDepth), p.currentLinks⟩] }

/-- The text of the block from `mark` of a place on. -/
def since (p : Parser) (place : Nat) : Option (List Char) :=
  sliceFrom p.current (floorCharBoundary p.current (min place (Text.byteLen p.current)))

/-! ## Opening -/

/-- The attributes that are read of an opening tag. -/
def readAttributes (base : Option (List Char)) (p : Parser) (name : String) (raw : List Char) : Option Parser :=
  if name = "a" then do
    match ← attr raw "href" with
    | none => some p
    | some href => do
      let href ← decodeEntities href
      match ← resolve base href with
      | none => some p
      | some url => some { p with anchor := some (url, Text.byteLen p.current) }
  else if name = "html" then
    if p.lang = none then do
      let lang ← attr raw "lang"
      some { p with lang := (lang.map trim).filter (· ≠ []) }
    else some p
  else if name = "meta" then do
    let names ← attr raw "name"
    let property ← attr raw "property"
    let said (value : Option (List Char)) (of : String) : Bool :=
      value.any fun v => v.map Text.toAsciiLowercaseChar == of.toList
    if (said names "description" || said property "og:description") ∧ p.description = none then do
      match ← attr raw "content" with
      | none => some p
      | some content => do
        let content ← decodeEntities content
        some { p with description := (some (collapse content)).filter (· ≠ []) }
    else some p
  else if name = "img" then do
    match ← attr raw "alt" with
    | none => some p
    | some alt => do
      let alt := collapse (← decodeEntities alt)
      if 3 ≤ Text.byteLen alt ∧ p.skipDepth = 0 then some { p with current := p.current ++ alt ++ [' '] }
      else some p
  else some p

def noteHeading (p : Parser) (name : String) : Parser :=
  match name.toList with
  | ['h', d] =>
    if '1' ≤ d ∧ d ≤ '6' then
      { p with heading := some (UInt8.ofNat (d.toNat - '0'.toNat), Text.byteLen p.current) }
    else p
  | _ => p

/-- What is kept of a raw-text element: the title of the page, or how much script there is. -/
def readRaw (text : List Char) (p : Parser) (name : String) (bodyEnd : Nat) : Option Parser :=
  if name = "title" then
    if p.title = none then do
      let stop := floorCharBoundary text (min (min bodyEnd (p.pos + maxTitleBytes)) (Text.byteLen text))
      let title ← Utf8.slice text p.pos (max stop p.pos)
      some { p with title := some title }
    else some p
  else if name = "script" ∨ name = "style" then
    if p.pos ≤ bodyEnd then some { p with scriptChars := p.scriptChars + (bodyEnd - p.pos) } else none
  else some p

/-- A raw-text element is passed over, to its closing tag or the end. -/
def skipRaw (text : List Char) (p : Parser) (name : String) : Option Parser := do
  let src := Utf8.bytes text
  let stop := findCloseTag src ("</".toList ++ name.toList) (src.length + 1) p.pos
  let bodyEnd := stop.getD src.length
  let p ← p.readRaw text name bodyEnd
  some { p with pos := stop.elim src.length fun i => (tagEnd src i).getD src.length }

/-- The counters and the stack of an element that is opened. -/
def enter (p : Parser) (name : String) (selfClosing : Bool) : Parser :=
  { p with
    skipDepth := if skipContent.contains name then p.skipDepth + 1 else p.skipDepth
    boilerDepth := if boilerplate.contains name then p.boilerDepth + 1 else p.boilerDepth
    contentDepth := if content.contains name then p.contentDepth + 1 else p.contentDepth
    stack := if !selfClosing && decide (p.stack.length < maxStack) then p.stack ++ [name] else p.stack }

/-- `open`. -/
def openTag (text : List Char) (base : Option (List Char)) (p : Parser) (name : String) (raw : List Char)
    (selfClosing : Bool) : Option Parser := do
  let p := noteHeading (← p.readAttributes base name raw) name
  let p := if isBlock name then p.flushBlock else p
  if rawText.contains name && !selfClosing then p.skipRaw text name else some (p.enter name selfClosing)

/-! ## Closing -/

/-- The stack unwound to the last element of the name, if there is one. -/
def unwind (stack : List String) (name : String) : List String :=
  if name ∈ stack then (stack.rdropWhile (· ≠ name)).dropLast else stack

def closeAnchor (p : Parser) : Option Parser :=
  match p.anchor with
  | none => some p
  | some (url, place) => do
    let linked := collapse (← p.since place)
    some { p with
      anchor := none
      currentLinks := p.currentLinks + Text.byteLen linked
      links := if p.links.length < maxLinks ∧ url ≠ [] then
        p.links ++ [⟨String.ofList url, String.ofList linked⟩] else p.links }

def closeHeading (p : Parser) : Option Parser :=
  match p.heading with
  | none => some p
  | some (level, place) => do
    let titled := collapse (← p.since place)
    some { p with
      heading := none
      headings := if titled ≠ [] ∧ p.headings.length < maxHeadings then
        p.headings ++ [⟨level, String.ofList titled⟩] else p.headings }

/-- The counters and the stack of an element that is closed. -/
def leave (p : Parser) (name : String) : Parser :=
  { p with
    skipDepth := if skipContent.contains name && p.stack.contains name then p.skipDepth - 1 else p.skipDepth
    boilerDepth := if boilerplate.contains name then p.boilerDepth - 1 else p.boilerDepth
    contentDepth := if content.contains name then p.contentDepth - 1 else p.contentDepth
    stack := unwind p.stack name }

/-- `close`. -/
def closeTag (p : Parser) (name : String) : Option Parser := do
  let p ← (if name = "a" then p.closeAnchor else some p)
  let p ← p.closeHeading
  let p := if isBlock name then p.flushBlock else p
  some (p.leave name)

/-! ## The pass -/

/-- Whether a mark stands at a byte. -/
def startsAt (src : List UInt8) (pos : Nat) (mark : String) : Bool := (Utf8.bytes mark.toList).isPrefixOf (src.drop pos)

/-- `u8::is_ascii_alphabetic`, or the slash of a closing tag. -/
def opensTagByte (c : UInt8) : Bool :=
  (65 ≤ c.toNat && c.toNat ≤ 90) || (97 ≤ c.toNat && c.toNat ≤ 122) || c == Utf8.byteOf '/'

/-- The tag at the parser's place. -/
def consumeTag (text : List Char) (base : Option (List Char)) (p : Parser) : Option Parser :=
  match tagEnd (Utf8.bytes text) p.pos with
  | none => some { p with pos := (Utf8.bytes text).length }
  | some stop => do
    let raw ← Utf8.slice text p.pos stop
    let name ← tagName raw
    let p := { p with pos := stop }
    if name = "" then some p
    else if "</".toList.isPrefixOf raw then p.closeTag name
    else p.openTag text base name raw ("/>".toList.isSuffixOf (trimEnd raw) || isVoid name)

def consumeMarkup (text : List Char) (base : Option (List Char)) (p : Parser) : Option Parser :=
  let src := Utf8.bytes text
  if startsAt src p.pos "<!--" then
    some { p with pos := (findFrom src (p.pos + 4) "-->".toList).elim src.length (· + 3) }
  else if startsAt src p.pos "<![CDATA[" then do
    let stop := findFrom src (p.pos + 9) "]]>".toList
    let p ← p.pushText text (p.pos + 9) (stop.getD src.length)
    some { p with pos := stop.elim src.length (· + 3) }
  else if startsAt src p.pos "<!" || startsAt src p.pos "<?" then
    some { p with pos := (Utf8.memchr '>' (src.drop p.pos)).elim src.length (p.pos + · + 1) }
  else if (src.drop p.pos)[1]?.any opensTagByte then p.consumeTag text base
  else do
    let p ← p.pushText text p.pos (p.pos + 1)
    some { p with pos := p.pos + 1 }

/-- `run`: what is none has panicked, or not ended after so many rounds. -/
def run (text : List Char) (base : Option (List Char)) : Nat → Parser → Option Parser
  | 0, _ => none
  | fuel + 1, p =>
    let src := Utf8.bytes text
    if p.pos < src.length then
      match Utf8.memchr '<' (src.drop p.pos) with
      | none => do
        let p ← p.pushText text p.pos src.length
        some p.flushBlock
      | some rel => do
        let lt := p.pos + rel
        let p ← (if p.pos < lt then p.pushText text p.pos lt else some p)
        let p ← consumeMarkup text base { p with pos := lt }
        run text base fuel p
    else some p.flushBlock

end Parser

/-- The parser over a page. -/
def parse (text : List Char) (base : Option (List Char)) : Option Parser :=
  Parser.new.run text base (text.length + 1)

end MarloweAgent.Extract.Html
