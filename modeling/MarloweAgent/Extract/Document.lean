import MarloweAgent.Contract.Text

/-! What extraction makes of a page: its text, what it says of itself, and everything
the extraction could not do. -/

namespace MarloweAgent.Extract
open Contract

inductive Format
  | html
  | xml
  | pdf
  | plainText
  | markdown
  | json
  | csv
  | docx
  | xlsx
  | pptx
  | epub
  | unsupported
  deriving DecidableEq, Repr

def Format.asStr : Format → String
  | html => "html"
  | xml => "xml"
  | pdf => "pdf"
  | plainText => "text"
  | markdown => "markdown"
  | json => "json"
  | csv => "csv"
  | docx => "docx"
  | xlsx => "xlsx"
  | pptx => "pptx"
  | epub => "epub"
  | unsupported => "unsupported"

structure Link where
  url : String
  text : String
  deriving DecidableEq, Repr

structure Heading where
  level : UInt8
  text : String
  deriving DecidableEq, Repr

/-- Something the extraction could not do. -/
inductive Warning
  | noTextLayer (pages : Nat)
  | encrypted (detail : String)
  | unknownCharset (declared used : String)
  | lossyDecode (replacements : Nat)
  | truncated (kept limit : Nat)
  | recovered (detail : String)
  | likelyClientRendered (textChars scriptChars : Nat)
  | partSkipped (name detail : String)
  deriving DecidableEq, Repr

def Warning.render : Warning → String
  | noTextLayer pages =>
    "no extractable text layer across " ++ toString pages ++ " page(s) — this looks like a scanned "
      ++ "document and reading it needs OCR, which this build does not have"
  | encrypted detail => "encrypted or DRM-protected: " ++ detail
  | unknownCharset declared used =>
    "declared charset " ++ Text.debugString declared ++ " is not known; decoded as " ++ used
  | lossyDecode replacements =>
    toString replacements ++ " byte sequence(s) were invalid and were replaced"
  | truncated kept limit =>
    "output truncated to " ++ toString kept ++ " of a " ++ toString limit ++ " character limit"
  | recovered detail => "malformed markup recovered: " ++ detail
  | likelyClientRendered textChars scriptChars =>
    "only " ++ toString textChars ++ " characters of text against " ++ toString scriptChars
      ++ " of script — the page is probably rendered client-side, so this is not what a reader "
      ++ "would see"
  | partSkipped name detail => "skipped " ++ name ++ ": " ++ detail

/-- The fixed name of a warning's kind. -/
def warningKind : Warning → String
  | .noTextLayer _ => "no-text-layer(needs-ocr)"
  | .encrypted _ => "encrypted"
  | .unknownCharset _ _ => "unknown-charset"
  | .lossyDecode _ => "lossy-decode"
  | .truncated _ _ => "truncated"
  | .recovered _ => "recovered"
  | .likelyClientRendered _ _ => "likely-client-rendered"
  | .partSkipped _ _ => "part-skipped"

structure Document where
  format : Format
  title : Option String
  text : String
  links : List Link
  headings : List Heading
  lang : Option String
  description : Option String
  bytesIn : Nat
  encoding : String
  warnings : List Warning
  deriving DecidableEq, Repr

namespace Document

def empty (format : Format) (bytesIn : Nat) : Document :=
  { format, title := none, text := "", links := [], headings := [], lang := none
    description := none, bytesIn, encoding := "none", warnings := [] }

/-- How the parse went is not shown to a reader; every other warning is. -/
def shown : Warning → Bool
  | .recovered _ => false
  | _ => true

/-- What stands before the text: the title, then the warnings. -/
def preamble (document : Document) : String :=
  let title := match document.title with
    | some title => title ++ "\n\n"
    | none => ""
  let notes := (document.warnings.filter shown).map fun w => "[note: " ++ w.render ++ "]\n"
  title ++ String.join notes

/-- `corpus::render`: a document as its reader is given it. -/
def render (document : Document) : String :=
  let head := document.preamble
  let spaced := if !Text.isEmpty head && !Text.endsWith head "\n\n" then head ++ "\n" else head
  spaced ++ document.text

/-- Two documents that a reader cannot tell apart. -/
structure ReadsAs (a b : Document) : Prop where
  title : a.title = b.title
  warnings : a.warnings = b.warnings
  text : a.text = b.text

namespace ReadsAs

variable {a b c : Document}

instance (a b : Document) : Decidable (ReadsAs a b) :=
  decidable_of_iff (a.title = b.title ∧ a.warnings = b.warnings ∧ a.text = b.text)
    ⟨fun ⟨title, warnings, text⟩ => ⟨title, warnings, text⟩, fun h => ⟨h.title, h.warnings, h.text⟩⟩

@[refl] theorem refl (a : Document) : ReadsAs a a := ⟨rfl, rfl, rfl⟩

theorem symm (h : ReadsAs a b) : ReadsAs b a := ⟨h.title.symm, h.warnings.symm, h.text.symm⟩

theorem trans (hab : ReadsAs a b) (hbc : ReadsAs b c) : ReadsAs a c :=
  ⟨hab.title.trans hbc.title, hab.warnings.trans hbc.warnings, hab.text.trans hbc.text⟩

theorem render_eq (h : ReadsAs a b) : a.render = b.render := by
  have hpreamble : a.preamble = b.preamble := by simp only [preamble, h.title, h.warnings]
  rw [render, render, hpreamble, h.text]

end ReadsAs

end Document

/-! ## One extraction -/

inductive ExtractError
  | tooLarge (bytes : Nat)
  | unsupported (format detail : String)
  | malformed (detail : String)
  | backend (format detail : String)
  deriving DecidableEq, Repr

def maxInputBytes : Nat := 64 * 1024 * 1024

namespace ExtractError

def render : ExtractError → String
  | tooLarge bytes =>
    "input is " ++ toString bytes ++ " bytes, above the " ++ toString maxInputBytes ++ " byte ceiling"
  | unsupported format detail =>
    format ++ " is recognised but this build does not extract it: " ++ detail
  | malformed detail => "the document is malformed beyond recovery: " ++ detail
  | backend format detail => "extracting " ++ format ++ ": " ++ detail

/-- The fixed name of what went wrong. -/
def kind : ExtractError → String
  | tooLarge _ => "too-large"
  | unsupported _ _ => "unsupported-format"
  | malformed _ => "malformed"
  | backend _ _ => "backend-error"

end ExtractError

structure Input where
  bytes : List UInt8
  contentType : Option String
  url : Option String
  deriving DecidableEq, Repr

def maxTitleChars : Nat := 512

def maxDescriptionChars : Nat := 4 * 1024

def enforceMetadataCaps (document : Document) : Document :=
  let cap (max : Nat) (s : String) := String.ofList (s.toList.take max)
  { document with
    title := document.title.map (cap maxTitleChars)
    description := document.description.map (cap maxDescriptionChars) }

/-- `extract`. What the extractor of the detected format does is a parameter, with
nothing for a panic. -/
def extract (byFormat : Input → Option (Except ExtractError Document)) (input : Input) :
    Except ExtractError Document :=
  if maxInputBytes < input.bytes.length then .error (.tooLarge input.bytes.length)
  else if input.bytes.isEmpty then .ok (.empty .plainText 0)
  else
    match byFormat input with
    | some result => result.map enforceMetadataCaps
    | none =>
      .error (.backend "unknown"
        ("the extractor panicked on this document (recovered; the rest of the batch "
          ++ "is unaffected)"))

end MarloweAgent.Extract
