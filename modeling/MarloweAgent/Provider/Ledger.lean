import MarloweAgent.Provider.ParseStep
import MarloweAgent.Provider.Think

/-! One streamed call, and the ledger of its tokens. Every frame that brings text costs one
token, charged to the channel its text goes to: reasoning, speech, or the buffer that has not
chosen yet. At the end the engine's own count is set against what was charged. -/

namespace MarloweAgent.Mcp

def Json.asU64 : Json → Option Nat
  | .integer n => if 0 ≤ n ∧ n < 2 ^ 64 then some n.toNat else none
  | _ => none

end MarloweAgent.Mcp

namespace MarloweAgent.Provider
open Contract Loop
open Mcp (Json)

/-- What the caller is told while the call streams, one callback each. A delta is kept with
the tokens charged to speech for it, which its callback does not carry. -/
inductive Told
  | delta (text : List Char) (charged : Nat)
  | reasoning (text : List Char) (tokens : Nat)
  | retract (tokens : Nat)
  deriving DecidableEq, Repr

/-- What `call_streaming_split` keeps between two frames. -/
structure Streaming where
  text : List Char := []
  splitter : ThinkSplitter := {}
  held : List Char := []
  closed : Bool
  toolCalls : List Json := []
  usage : Usage := { promptTokens := 0, completionTokens := 0, microsUsd := 0, wallMs := 0 }
  reasoningTokens : Nat := 0
  speechTokens : Nat := 0
  heldTokens : Nat := 0
  told : List Told := []

/-- A text in a field of a message; an empty one counts as none. -/
def textIn (msg : Json) (field : String) : List Char :=
  (((msg.get? field).bind Json.asStr).getD "").toList

/-- The spellings of the reasoning channel. -/
def reasoningFields : List String := ["thinking", "reasoning", "reasoning_content"]

namespace Streaming

/-! ## One frame -/

/-- One spelling of the reasoning channel, and whether the frame has been charged. -/
def hearField (msg : Json) (s : Streaming × Bool) (field : String) : Streaming × Bool :=
  let r := textIn msg field
  if r = [] then s
  else
    let charge := if s.2 then 0 else 1
    ({ s.1 with
        reasoningTokens := s.1.reasoningTokens + charge
        told := s.1.told ++ [.reasoning r charge]
        closed := true }, true)

/-- Held back, never rendered: the buffer goes to the reasoning. -/
def routeHeld (s : Streaming) : Streaming :=
  if s.held = [] then s
  else
    { s with
      reasoningTokens := s.reasoningTokens + s.heldTokens
      told := s.told ++ [.reasoning s.held s.heldTokens]
      heldTokens := 0
      held := [] }

/-- Already streamed, so it is taken back. -/
def takeBack (s : Streaming) : Streaming :=
  if s.text = [] then s
  else
    { s with
      text := []
      reasoningTokens := s.reasoningTokens + s.speechTokens
      told := s.told ++ [.retract s.speechTokens]
      speechTokens := 0 }

/-- A closing tag proved that everything before it was reasoning. -/
def retract (s : Streaming) : Streaming := { s.routeHeld.takeBack with closed := true }

/-- One segment of a frame, and what the frame still has to pay. -/
def hearSegment (s : Streaming × Nat) : Segment → Streaming × Nat
  | .reasoning r =>
    ({ s.1 with
        reasoningTokens := s.1.reasoningTokens + s.2
        told := s.1.told ++ [.reasoning r s.2] }, 0)
  | .speech t =>
    if s.1.closed then
      ({ s.1 with
          speechTokens := s.1.speechTokens + s.2
          told := s.1.told ++ [.delta t s.2]
          text := s.1.text ++ t }, 0)
    else ({ s.1 with heldTokens := s.1.heldTokens + s.2, held := s.1.held ++ t }, 0)

/-- What the splitter makes of a frame's content. A frame it swallows whole is paid for by the
buffer. -/
def hearSplit (s : Streaming) (split : Split) (charge : Nat) : Streaming :=
  let s := if split.retractSpeech then s.retract else s
  let (s, charge) := split.segments.foldl hearSegment (s, charge)
  { s with heldTokens := s.heldTokens + charge }

def hearContent (s : Streaming) (content : List Char) (charge : Nat) : Streaming :=
  if content = [] then s
  else
    let (splitter, split) := s.splitter.feed content
    { s with splitter }.hearSplit split charge

def hearMessage (s : Streaming) (msg : Json) : Streaming :=
  let (s, charged) := reasoningFields.foldl (hearField msg) (s, false)
  let s := s.hearContent (textIn msg "content") (if charged then 0 else 1)
  { s with toolCalls := s.toolCalls ++ ((msg.get? "tool_calls").bind Json.asArray).getD [] }

def counter (frame : Json) (field : String) : Nat := ((frame.get? field).bind Json.asU64).getD 0

/-- The counters come with the final frame. -/
def readCounters (s : Streaming) (frame : Json) : Streaming :=
  if (frame.get? "done").bind Json.asBool = some true then
    { s with
      usage :=
        { s.usage with
          promptTokens := counter frame "prompt_eval_count"
          completionTokens := counter frame "eval_count"
          wallMs := counter frame "total_duration" / 1000000 } }
  else s

def hearFrame (s : Streaming) (frame : Json) : Streaming :=
  let s := match frame.get? "message" with
    | some msg => s.hearMessage msg
    | none => s
  s.readCounters frame

/-! ## The end of the call -/

/-- A fragment held back in case it grew into a tag. Its tokens were charged as it arrived. -/
def hearTail (s : Streaming) : Segment → Streaming
  | .reasoning r => { s with told := s.told ++ [.reasoning r 0] }
  | .speech t =>
    if s.closed then { s with told := s.told ++ [.delta t 0], text := s.text ++ t }
    else { s with held := s.held ++ t }

def hearEnd (s : Streaming) : Streaming :=
  let (splitter, split) := s.splitter.finish
  split.segments.foldl hearTail { s with splitter }

/-- The buffer is resolved: it is the answer, or what was said on the way to a tool call. -/
def release (s : Streaming) : Streaming :=
  if s.held = [] then s
  else if s.toolCalls.isEmpty ∧ (s.closed ∨ ! s.splitter.sawTag) then
    { s with
      speechTokens := s.speechTokens + s.heldTokens
      told := s.told ++ [.delta s.held s.heldTokens]
      text := s.text ++ s.held
      heldTokens := 0
      held := [] }
  else s.routeHeld

/-- Nothing claimed the buffer: its tokens are counted as reasoning. -/
def settle (s : Streaming) : Streaming :=
  { s with reasoningTokens := s.reasoningTokens + s.heldTokens, heldTokens := 0 }

/-- The correction, from the engine's own count. -/
def correct (s : Streaming) : Streaming :=
  let owed := s.usage.completionTokens - (s.reasoningTokens + s.speechTokens)
  if 0 < s.reasoningTokens ∧ 0 < owed then { s with told := s.told ++ [.reasoning [] owed] } else s

def finish (s : Streaming) : Streaming := s.hearEnd.release.settle.correct

/-- The message that is read for the step. -/
def message (s : Streaming) : Json :=
  .object
    (("content", .string (String.ofList s.text)) ::
      if s.toolCalls.isEmpty then [] else [("tool_calls", .array s.toolCalls)])

end Streaming

/-- The call, with every frame received. -/
def callStreaming (thinking : Bool) (frames : List Json) : Streaming :=
  (frames.foldl Streaming.hearFrame { closed := !thinking }).finish

/-- What the call returns. -/
def callStreamingSplit (thinking : Bool) (frames : List Json) : Except SlicePanic ModelCall := do
  let call := callStreaming thinking frames
  let step ← parseStep call.message
  .ok { usage := call.usage, step }

end MarloweAgent.Provider
