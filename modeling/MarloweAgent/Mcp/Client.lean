import MarloweAgent.Contract.Text
import MarloweAgent.Library.Stateful
import MarloweAgent.Loop.Driver

/-! A JSON-RPC client over the pipes of a child process, one message a line. What
the server writes is a byte stream; the parser of one line's text is a parameter. -/

namespace MarloweAgent.Mcp
open Contract Library

/-! ## Values -/

inductive Json
  | null
  | bool (b : Bool)
  | integer (n : Int)
  | decimal (text : String)
  | string (s : String)
  | array (items : List Json)
  | object (fields : List (String × Json))

namespace Json

/-- `Value::get` of a key: nothing but an object has one. -/
def get? (value : Json) (key : String) : Option Json :=
  match value with
  | object fields => (fields.find? (·.1 = key)).map Prod.snd
  | _ => none

def asStr : Json → Option String
  | string s => some s
  | _ => none

def asBool : Json → Option Bool
  | bool b => some b
  | _ => none

def asArray : Json → Option (List Json)
  | array items => some items
  | _ => none

def asI64 : Json → Option Int
  | integer n => if -2 ^ 63 ≤ n ∧ n < 2 ^ 63 then some n else none
  | _ => none

end Json

/-! ## The pipes of one server -/

/-- What the operating system says of a read or a write that failed. -/
structure IoError where
  text : String
  deriving DecidableEq, Repr

/-- The child's side of the pipes, as the harness meets it: what the server has
written and nobody has read, how reading ends once that is used up, and what the
coming looks at the deadline and the coming writes answer. -/
structure Pipe where
  stdout : List UInt8
  ending : Option IoError
  deadlines : List Bool
  writes : List (Option IoError)
  deriving DecidableEq, Repr

def requestTimeoutMs : Nat := 30000

inductive McpError
  | spawn (id command detail : String)
  | protocol (id detail : String)
  | timeout (id method : String)
  | remote (id method message : String)
  | registration (id tool detail : String)
  deriving DecidableEq, Repr

def McpError.render : McpError → String
  | spawn id command detail =>
    "mcp server `" ++ id ++ "`: the command `" ++ command ++ "` could not be started: " ++ detail
  | protocol id detail => "mcp server `" ++ id ++ "`: " ++ detail
  | timeout id method =>
    "mcp server `" ++ id ++ "` did not answer `" ++ method ++ "` within "
      ++ toString requestTimeoutMs ++ " ms"
  | remote id method message =>
    "mcp server `" ++ id ++ "` returned an error for `" ++ method ++ "`: " ++ message
  | registration id tool detail =>
    "mcp server `" ++ id ++ "`: tool `" ++ tool ++ "` cannot be registered: " ++ detail

/-- A live connection, with the messages written to it so far. -/
structure McpClient where
  id : String
  pipe : Pipe
  nextId : Int
  sent : List Json

/-! ## Requests -/

/-- What each `read_line` reads: up to and with the newline, or to the end. -/
def cutLines : List UInt8 → List (List UInt8)
  | [] => []
  | b :: rest =>
    if b = 10 then [b] :: cutLines rest
    else
      match cutLines rest with
      | [] => [[b]]
      | line :: more => (b :: line) :: more

def lineText (line : List UInt8) : Option String := String.fromUTF8? ⟨line.toArray⟩

/-- What a read of bytes that are not UTF-8 says. -/
def notUtf8 : IoError := ⟨"stream did not contain valid UTF-8"⟩

/-- `send`. -/
def send (message : Json) : Stateful McpClient (Except McpError Unit) :=
  ⟨fun client =>
    let answered := { client with pipe := { client.pipe with writes := client.pipe.writes.tail } }
    match client.pipe.writes.head?.join with
    | some e => (.error (.protocol client.id ("writing to the server failed: " ++ e.text)), answered)
    | none => (.ok (), { answered with sent := client.sent ++ [message] })⟩

/-- The message of a JSON-RPC error, or the harness's own words for none. -/
def remoteMessage (error : Json) : String := ((error.get? "message").bind Json.asStr).getD "no message"

/-- What is left of a pipe: the unread lines and the coming looks at the deadline. -/
structure Unread where
  lines : List (List UInt8)
  deadlines : List Bool

/-- Read until the reply with this id: other lines, and other ids, are skipped. -/
def awaitReply (parse : String → Option Json) (server method : String) (id : Int)
    (ending : Option IoError) : List (List UInt8) → List Bool → Except McpError Json × Unread
  | [], deadlines =>
    let left : Unread := ⟨[], deadlines.tail⟩
    if deadlines.headD false then (.error (.timeout server method), left)
    else
      match ending with
      | some e =>
        (.error (.protocol server ("reading a reply to `" ++ method ++ "` failed: " ++ e.text)), left)
      | none =>
        (.error (.protocol server
          ("the server closed its output while `" ++ method ++ "` was pending")), left)
  | line :: rest, deadlines =>
    if deadlines.headD false then (.error (.timeout server method), ⟨line :: rest, deadlines.tail⟩)
    else
      match lineText line with
      | none =>
        (.error (.protocol server
          ("reading a reply to `" ++ method ++ "` failed: " ++ notUtf8.text)), ⟨rest, deadlines.tail⟩)
      | some text =>
        match parse (Text.trim text) with
        | none => awaitReply parse server method id ending rest deadlines.tail
        | some value =>
          if (value.get? "id").bind Json.asI64 ≠ some id then
            awaitReply parse server method id ending rest deadlines.tail
          else
            let left : Unread := ⟨rest, deadlines.tail⟩
            match value.get? "error" with
            | some error => (.error (.remote server method (remoteMessage error)), left)
            | none => (.ok ((value.get? "result").getD .null), left)

def requestMessage (id : Int) (method : String) (params : Json) : Json :=
  .object [("jsonrpc", .string "2.0"), ("id", .integer id), ("method", .string method),
    ("params", params)]

def request (parse : String → Option Json) (method : String) (params : Json) :
    Stateful McpClient (Except McpError Json) := do
  let client ← Stateful.read
  Stateful.update fun client => { client with nextId := client.nextId + 1 }
  match ← send (requestMessage client.nextId method params) with
  | .error e => pure (.error e)
  | .ok () =>
    ⟨fun waiting =>
      let (reply, left) := awaitReply parse waiting.id method client.nextId waiting.pipe.ending
        (cutLines waiting.pipe.stdout) waiting.pipe.deadlines
      (reply, { waiting with
        pipe := { waiting.pipe with stdout := left.lines.flatten, deadlines := left.deadlines } })⟩

/-! ## Tool calls -/

/-- One more part of the text, on a line of its own. -/
def appendPart (text part : String) : String :=
  if text.isEmpty then text ++ part else text ++ "\n" ++ part

/-- The text of a result's content. A part this build cannot read is named. -/
def contentText (content : List Json) : String :=
  content.foldl (fun text part =>
    match (part.get? "type").bind Json.asStr with
    | some kind =>
      if kind = "text" then
        match (part.get? "text").bind Json.asStr with
        | some s => appendPart text s
        | none => text
      else appendPart text ("[" ++ kind ++ " content, which this build cannot read]")
    | none => text) ""

/-- `call_tool`: the text of the reply, and whether the tool says it failed. -/
def callTool (parse : String → Option Json) (tool : String) (arguments : Json) :
    Stateful McpClient (Except McpError (String × Bool)) := do
  match ← request parse "tools/call" (.object [("name", .string tool), ("arguments", arguments)]) with
  | .error e => pure (.error e)
  | .ok reply =>
    let isError := ((reply.get? "isError").bind Json.asBool).getD false
    pure (.ok (contentText (((reply.get? "content").bind Json.asArray).getD []), isError))

end MarloweAgent.Mcp

/-! ## The host

The tool host of the installed servers. A call goes to the server its id names;
what comes back is untrusted content, and a call that could not be made is refused
in the harness's name. -/

namespace MarloweAgent.Mcp
open Contract Library Tools Permission Loop

/-- Everything one profile's servers contribute. -/
structure McpFleet where
  clients : List McpClient
  registrations : List ToolRegistration

/-- `str::split_once` at a string. -/
def splitOnce (s sep : String) : Option (String × String) :=
  (Text.find s.toList sep.toList).map fun i =>
    (String.ofList (s.toList.take i), String.ofList (s.toList.drop (i + sep.toList.length)))

def jsonOf : ArgValue → Json
  | .text s => .string s
  | .integer n => .integer n
  | .amount micros => .integer micros
  | .boolean b => .bool b

/-- A refusal of the harness's own. -/
def refused (detail : String) : ToolOutcome :=
  { summary := .new [.state "unavailable"], body := .inline detail, trust := .agentObserved
    failed := true, wallMs := 0, preview := none }

/-- What a server answered, whatever it answered. -/
def answered (text : String) (isError : Bool) : ToolOutcome :=
  { summary := .new [.bytes text.utf8ByteSize, .state (if isError then "tool error" else "ok")]
    body := .inline text, trust := .untrustedContent, failed := isError, wallMs := 0, preview := none }

/-- Run on the first client `p` picks. -/
def onFirst {α : Type} (p : McpClient → Bool) (f : Stateful McpClient α) :
    List McpClient → Option α × List McpClient
  | [] => (none, [])
  | client :: rest =>
    if p client then
      let (a, client) := f.run client
      (some a, client :: rest)
    else
      let (a, rest) := onFirst p f rest
      (a, client :: rest)

namespace McpFleet

def serves (fleet : McpFleet) (tool : ToolId) : Bool := fleet.registrations.any (·.id = tool)

/-- What an answer to a call becomes. -/
def outcomeOf : Except McpError (String × Bool) → ToolOutcome
  | .error e => refused e.render
  | .ok (text, isError) => answered text isError

/-- `McpTools::call`. -/
def call (parse : String → Option Json) (tool : ToolId) (args : Args) :
    Stateful McpFleet ToolOutcome :=
  match splitOnce tool.text "__" with
  | none => pure (refused ("`" ++ tool.text ++ "` is not a namespaced MCP tool id"))
  | some (server, remote) =>
    ⟨fun fleet =>
      let arguments := Json.object (args.entries.map fun (name, value) => (name, jsonOf value))
      match onFirst (·.id = server) (callTool parse remote arguments) fleet.clients with
      | (none, _) => (refused ("the MCP server `" ++ server ++ "` is not connected"), fleet)
      | (some answer, clients) => (outcomeOf answer, { fleet with clients })⟩

/-- `McpTools::execute`, over an inner host. -/
def execute {σ : Type} (parse : String → Option Json)
    (inner : ToolId → Args → Adjudication → Stateful σ ToolOutcome) (tool : ToolId) (args : Args)
    (adjudication : Adjudication) : Stateful (McpFleet × σ) ToolOutcome :=
  ⟨fun (fleet, s) =>
    if fleet.serves tool then
      let (outcome, fleet) := (call parse tool args).run fleet
      (outcome, fleet, s)
    else
      let (outcome, s) := (inner tool args adjudication).run s
      (outcome, fleet, s)⟩

end McpFleet

end MarloweAgent.Mcp
