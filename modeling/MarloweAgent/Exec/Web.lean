import MarloweAgent.Extract.Document
import MarloweAgent.Extract.Store
import MarloweAgent.Loop.Driver
import MarloweAgent.Net.Fetch
import MarloweAgent.Net.Quoting

/-! From one response to what the harness says of it, and the `web` tool over it. A response is a
redirect whose location was checked, a document, or a failure to read one. -/

namespace MarloweAgent.Exec
open Contract Extract Net

/-- A `Location` header, after validation. -/
inductive RedirectTo
  | url (u : String)
  | hostOnly (h : String)
  | unusable
  deriving DecidableEq, Repr

namespace RedirectTo

def render : RedirectTo → String
  | url u => "to " ++ u
  | hostOnly h =>
    "to a URL on " ++ h ++ ". Its path was not echoed: it contained characters a location "
      ++ "does not need, which is how a redirect header is used to smuggle instructions"
  | unusable => "to a location that is not a valid https URL, so it was not echoed"

def host : RedirectTo → Option String
  | url u =>
    (Text.stripPrefix u.toList "https://".toList).map fun rest =>
      String.ofList (rest.takeWhile (· ≠ '/'))
  | hostOnly h => some h
  | unusable => none

end RedirectTo

def maxEchoedPath : Nat := 256

/-- More words than an identifier has. -/
def looksLikeProse (path : String) : Bool :=
  6 < ((path.toList.splitOnP (! Char.isAlpha ·)).filter (3 ≤ ·.length)).length

def pathIsSafe (path : String) : Bool :=
  path.utf8ByteSize ≤ maxEchoedPath && !Text.contains path ".."
    && path.toList.all (fun c => c.isAlphanum || c ∈ "-._~:/?#[]@$&=%".toList)
    && !looksLikeProse path

def hostIsSafe (host : String) : Bool :=
  if Text.isEmpty host ∨ 253 < host.utf8ByteSize then false
  else
    (host.toList.splitOn '.').all (fun label =>
        !label.isEmpty && Text.byteLen label ≤ 63 && label.all fun c => c.isAlphanum || c = '-')
      && !looksLikeProse host

def sanitizeLocation (raw : String) : RedirectTo :=
  match Target.parse raw with
  | .ok t =>
    if !hostIsSafe t.host then .unusable
    else if pathIsSafe t.path then
      let port := if t.port = 443 then "" else s!":{t.port}"
      .url ("https://" ++ t.host ++ port ++ t.path)
    else .hostOnly t.host
  | .error _ => .unusable

/-- What happened to one URL. -/
inductive Outcome
  | read (url : String) (status : UInt16) (document : Document) (wireBytes : Nat)
  | redirect (url : String) (status : UInt16) (location : RedirectTo)
  | unreachable (url detail : String)
  | unreadable (url : String) (status : UInt16) (detail kind : String)
  deriving DecidableEq, Repr

/-- `corpus::read`. -/
def Outcome.ofFetched (byFormat : Input → Option (Except ExtractError Document)) (url : String)
    (res : Fetched) : Outcome :=
  match res.redirectTo with
  | some location => .redirect url res.status (sanitizeLocation location)
  | none =>
    match extract byFormat { bytes := res.bytes, contentType := res.contentType, url := some url } with
    | .ok document => .read url res.status document res.wireBytes
    | .error e => .unreadable url res.status e.render e.kind

end MarloweAgent.Exec

/-! ## The tool

The `web` tool. Every result of it is the harness's own observation: no page is
handed over, and what the result says is what the harness measured, or why the fetch
failed. -/

namespace MarloweAgent.Exec
open Contract Library Extract Net Permission Tools Loop

/-- A failure, with its reason in the body. -/
def failed (verb detail : String) : ToolOutcome :=
  { summary := .withDetail [.state verb] detail, body := .inline detail, trust := .agentObserved
    failed := true, wallMs := 0, preview := none }

/-! ## Bodies by size -/

def maxInlineBytes : Nat := 8192

def previewBytes : Nat := 4000

/-- The text up to the last character boundary within so many bytes. -/
def upToBoundary : List Char → Nat → List Char
  | [], _ => []
  | c :: rest, n => if c.utf8Size ≤ n then c :: upToBoundary rest (n - c.utf8Size) else []

/-- The text from the first character boundary after so many bytes. -/
def fromBoundary : List Char → Nat → List Char
  | s, 0 => s
  | [], _ + 1 => []
  | c :: rest, n + 1 => fromBoundary rest (n + 1 - c.utf8Size)

def headAndTail (text : String) : String :=
  if text.utf8ByteSize ≤ previewBytes then text
  else
    let head := upToBoundary text.toList (previewBytes / 2)
    let tailLen := Text.byteLen (upToBoundary text.toList (previewBytes / 4))
    let tail := fromBoundary text.toList (text.utf8ByteSize - tailLen)
    let omitted := text.utf8ByteSize - Text.byteLen tail - Text.byteLen head
    String.ofList head ++ "\n…[" ++ toString omitted
      ++ " characters omitted from the middle; the tool read the whole file]…\n" ++ String.ofList tail

/-- Sixteen hexadecimal digits. -/
def hex16 (n : UInt64) : String :=
  let digits := Nat.toDigits 16 n.toNat
  String.ofList (List.replicate (16 - digits.length) '0' ++ digits)

/-- `body_for`: inline if small, a reference with a preview if not. -/
def bodyFor (text : String) : ToolBody × Option String :=
  if text.utf8ByteSize ≤ maxInlineBytes then (.inline text, none)
  else (.reference (hex16 (fnv1a text.toUTF8.toList)) text.utf8ByteSize, some (headAndTail text))

/-! ## The tool -/

def knownMedia : List String :=
  ["text/html", "text/plain", "text/markdown", "text/csv", "text/xml", "application/xml",
    "application/json", "application/pdf", "application/zip", "application/epub+zip",
    "application/octet-stream",
    "application/vnd.openxmlformats-officedocument.wordprocessingml.document",
    "application/vnd.openxmlformats-officedocument.spreadsheetml.sheet",
    "application/vnd.openxmlformats-officedocument.presentationml.presentation"]

def normalizeContentType (contentType : Option String) : String :=
  match contentType with
  | none => "no content-type"
  | some ct =>
    let media := Text.toAsciiLowercase (Text.trim (String.ofList (ct.toList.takeWhile (· ≠ ';'))))
    (knownMedia.find? (· = media)).getD "an unrecognised content-type"

/-- The code outside the tool: the decompressors, the extractor of each format, and the
hash that documents are filed under. -/
structure Env where
  decoders : Decoders
  byFormat : Input → Option (Except ExtractError Document)
  contentHash : String → String

/-- What stands before the reference when the server refused. -/
def statusNote (status : UInt16) (text : String) : String :=
  if 500 ≤ status then
    s!"The server returned HTTP {status}. What follows is what came back with that "
      ++ "error, not the document you asked for.\n" ++ text
  else if 400 ≤ status then
    s!"The server returned HTTP {status}: it refused this request. What follows is "
      ++ "the error page, not the document you asked for.\n" ++ text
  else text

def redirectNotice (url : String) (location : RedirectTo) : String :=
  url ++ " redirected " ++ location.render ++ ". It was NOT followed: a redirect target "
    ++ "is chosen by the site, so it is checked like any other target. Call "
    ++ "`web` again with that URL if it is what you want."

def unreadableNotice (url : String) (rawBytes : Nat) (kind : String) : String :=
  url ++ s!" returned {rawBytes} bytes that could not be turned into text (" ++ kind
    ++ "). Nothing was read."

def webOutcome (env : Env) (store : DocumentStore) (url : String) (status : UInt16)
    (contentType : Option String) (rawBytes wire : Nat) (outcome : Outcome) :
    ToolOutcome × DocumentStore :=
  match outcome with
  | .redirect _ status location =>
    ({ summary := .withDetail [.state "redirect"]
        (s!"{status} -> " ++ location.host.getD "an unusable location")
       body := .inline (redirectNotice url location)
       trust := .agentObserved, failed := false, wallMs := 0, preview := none }, store)
  | .unreadable _ _ _ kind =>
    ({ summary := .withDetail [.state "unreadable", .bytes rawBytes]
        (s!"{status} " ++ normalizeContentType contentType)
       body := .inline (unreadableNotice url rawBytes kind)
       trust := .agentObserved, failed := true, wallMs := 0, preview := none }, store)
  | .unreachable _ detail => (failed "web" detail, store)
  | .read _ _ document wireBytes =>
    let (reference, store) := store.put env.contentHash url wireBytes document
    let (body, preview) := bodyFor (statusNote status reference.render)
    let state := if 500 ≤ status then "http 5xx" else if 400 ≤ status then "http 4xx" else "ok"
    ({ summary := .withDetail [.state state, .count reference.chars "chars"]
        (s!"{status} " ++ reference.format.asStr ++ " · " ++ contentType.getD "no content-type"
          ++ s!" · {wire} B wire · read it with ref " ++ reference.hash)
       body, trust := .agentObserved, failed := decide (400 ≤ status), wallMs := 0, preview }, store)

/-- `web`, with nothing for a panic. -/
def web (env : Env) (args : Args) (server : Server) (store : DocumentStore) :
    Option (ToolOutcome × DocumentStore) :=
  match (args.get "url").bind ArgValue.asText with
  | none =>
    some (failed "web"
      ("`url` is required. This build fetches a single URL and does not search, so "
        ++ "`query` alone cannot be answered — supply a full https:// URL."), store)
  | some url =>
    match Target.parse url with
    | .error e => some (failed "web" e.render, store)
    | .ok target =>
      match fetch env.decoders target.host server with
      | .error fault => (fault.error target.host).map fun e => (failed "web" e.render, store)
      | .ok fetched =>
        some (webOutcome env store url fetched.status fetched.contentType fetched.bytes.length
          fetched.wireBytes (.ofFetched env.byFormat url fetched))

end MarloweAgent.Exec
