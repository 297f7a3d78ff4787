import MarloweAgent.Library.Gather
import MarloweAgent.Provider.Ledger

/-! One call's state, folded across the chunks of a streamed completion: text through the think
splitter, tool calls joined by their index, and the engine's running count of tokens. The JSON
parser and the rounding of the two timings are parameters. -/

namespace MarloweAgent.Provider
open Contract Library Loop
open Mcp (Json)

/-- What the fold takes from outside: `from_str`, and the two timings added and rounded, where
they come to more than nothing. -/
structure Wire where
  fromStr : String → Option Json
  totalMs : Json → Option Nat

/-- What has arrived of one tool call. -/
structure PartialCall where
  id : String := ""
  name : String := ""
  arguments : String := ""
  deriving DecidableEq, Repr

structure Fold where
  text : List Char := []
  splitter : ThinkSplitter := {}
  toolCalls : OrderedMap Nat PartialCall := .empty
  closed : Bool
  held : List Char := []
  promptTokens : Nat := 0
  completionTokens : Nat := 0
  wallMs : Nat := 0
  /-- The engine's running total; nothing where it reports none. -/
  predictedN : Nat := 0
  charged : Nat := 0
  lastWasReasoning : Bool := true
  speechCharged : Nat := 0
  heldCharged : Nat := 0
  told : List Told := []

/-- One fragment of a call, added to what has arrived. -/
def PartialCall.absorb (entry : PartialCall) (call : Json) : PartialCall :=
  let entry := match (call.get? "id").bind Json.asStr with
    | some id => if id = "" then entry else { entry with id }
    | none => entry
  match call.get? "function" with
  | none => entry
  | some f =>
    let entry := match (f.get? "name").bind Json.asStr with
      | some n => if n = "" then entry else { entry with name := entry.name ++ n }
      | none => entry
    match (f.get? "arguments").bind Json.asStr with
    | some a => { entry with arguments := entry.arguments ++ a }
    | none => entry

/-- The index a fragment is joined by. -/
def callIndex (call : Json) (position : Nat) : Nat := ((call.get? "index").bind Json.asU64).getD position

/-- Streamed chunks have the payload under `delta`, the others under `message`. -/
def deltaOf (value : Json) : Option Json :=
  ((value.get? "choices").bind Json.asArray).bind fun choices =>
    choices.head?.bind fun choice => (choice.get? "delta").or (choice.get? "message")

def deltaFields : List String := ["reasoning_content", "reasoning"]

namespace Fold

/-- What a chunk is worth: the engine's own increment, or else one token. -/
def charge (f : Fold) : Fold × Nat :=
  if f.predictedN = 0 then ({ f with charged := f.charged + 1 }, 1)
  else ({ f with charged := f.predictedN }, f.predictedN - f.charged)

/-- One charge a chunk. -/
def chargeOnce (f : Fold) (charged : Bool) : Fold × Nat := if charged then (f, 0) else f.charge

def absorbUsage (f : Fold) (value : Json) : Fold :=
  match value.get? "usage" with
  | none => f
  | some u =>
    { f with
      promptTokens := ((u.get? "prompt_tokens").bind Json.asU64).getD f.promptTokens
      completionTokens := ((u.get? "completion_tokens").bind Json.asU64).getD f.completionTokens }

def absorbTimings (w : Wire) (f : Fold) (value : Json) : Fold :=
  match value.get? "timings" with
  | none => f
  | some t =>
    { f with
      promptTokens := if f.promptTokens = 0 then Streaming.counter t "prompt_n" else f.promptTokens
      completionTokens :=
        if f.completionTokens = 0 then Streaming.counter t "predicted_n" else f.completionTokens
      predictedN := max f.predictedN (Streaming.counter t "predicted_n")
      wallMs := (w.totalMs t).getD f.wallMs }

/-- One spelling of the reasoning channel, and whether the chunk has been charged. -/
def absorbField (delta : Json) (s : Fold × Bool) (field : String) : Fold × Bool :=
  let r := textIn delta field
  if r = [] then s
  else
    let (f, charge) := s.1.chargeOnce s.2
    ({ f with lastWasReasoning := true, told := f.told ++ [.reasoning r charge], closed := true }, true)

def retract (f : Fold) : Fold :=
  let f := if f.held = [] then f
    else { f with told := f.told ++ [.reasoning f.held f.heldCharged], held := [], heldCharged := 0 }
  let f := if f.text = [] then f
    else { f with told := f.told ++ [.retract f.speechCharged], text := [], speechCharged := 0 }
  { f with closed := true }

def absorbSegment (s : Fold × Nat) : Segment → Fold × Nat
  | .reasoning r =>
    ({ s.1 with lastWasReasoning := true, told := s.1.told ++ [.reasoning r s.2] }, 0)
  | .speech t =>
    if s.1.closed then
      ({ s.1 with
          lastWasReasoning := false
          speechCharged := s.1.speechCharged + s.2
          told := s.1.told ++ [.delta t s.2]
          text := s.1.text ++ t }, 0)
    else ({ s.1 with heldCharged := s.1.heldCharged + s.2, held := s.1.held ++ t }, 0)

def absorbContent (f : Fold) (content : List Char) (charged : Bool) : Fold :=
  if content = [] then f
  else
    let (f, charge) := f.chargeOnce charged
    let (splitter, split) := f.splitter.feed content
    let f := { f with splitter }
    let f := if split.retractSpeech then f.retract else f
    let (f, charge) := split.segments.foldl absorbSegment (f, charge)
    { f with heldCharged := f.heldCharged + charge }

def absorbText (f : Fold) (delta : Json) : Fold :=
  let (f, charged) := deltaFields.foldl (absorbField delta) (f, false)
  f.absorbContent (textIn delta "content") charged

/-- One fragment, under its index or its position in the chunk. -/
def absorbCall (toolCalls : OrderedMap Nat PartialCall) (call : Json × Nat) : OrderedMap Nat PartialCall :=
  let index := callIndex call.1 call.2
  toolCalls.insert index (((toolCalls.get? index).getD {}).absorb call.1)

def absorbCalls (f : Fold) (delta : Json) : Fold :=
  match (delta.get? "tool_calls").bind Json.asArray with
  | none => f
  | some calls => { f with toolCalls := calls.zipIdx.foldl absorbCall f.toolCalls }

def absorb (w : Wire) (f : Fold) (value : Json) : Fold :=
  let f := (f.absorbUsage value).absorbTimings w value
  match deltaOf value with
  | none => f
  | some delta => (f.absorbText delta).absorbCalls delta

/-! ## The end of the stream -/

def finishSegment (f : Fold) : Segment → Fold
  | .reasoning r => { f with told := f.told ++ [.reasoning r 0] }
  | .speech t =>
    if f.closed then { f with told := f.told ++ [.delta t 0], text := f.text ++ t }
    else { f with held := f.held ++ t }

/-- A call that ends in a tool call has not answered. -/
def release (f : Fold) : Fold :=
  if f.held = [] then f
  else if f.toolCalls.bindings.isEmpty ∧ (f.closed ∨ ! f.splitter.sawTag) then
    { f with
      held := []
      speechCharged := f.speechCharged + f.heldCharged
      heldCharged := 0
      told := f.told ++ [.delta f.held f.heldCharged]
      text := f.text ++ f.held }
  else { f with held := [], heldCharged := 0, told := f.told ++ [.reasoning f.held f.heldCharged] }

/-- What the engine generated and never streamed. -/
def settle (f : Fold) : Fold :=
  let total := max f.predictedN f.completionTokens
  let owed := total - f.charged
  if 0 < owed then
    { f with
      charged := total
      told := if f.lastWasReasoning then f.told ++ [.reasoning [] owed] else f.told }
  else f

def finish (f : Fold) : Fold :=
  let (splitter, split) := f.splitter.finish
  (split.segments.foldl finishSegment { f with splitter }).release.settle

/-! ## The step -/

/-- The arguments as `parse_step` reads them. What does not parse is an empty object. -/
def argumentsOf (w : Wire) (call : PartialCall) : Json :=
  (w.fromStr (Text.trim call.arguments)).getD (.object [])

def callJson (w : Wire) (call : PartialCall) : Json :=
  .object
    [("id", .string call.id),
      ("function", .object [("name", .string call.name), ("arguments", argumentsOf w call)])]

def message (w : Wire) (f : Fold) : Json :=
  let calls := (f.toolCalls.values.filter (·.name ≠ "")).map (callJson w)
  .object (("content", .string (String.ofList f.text)) ::
    if calls.isEmpty then [] else [("tool_calls", .array calls)])

def intoStep (w : Wire) (f : Fold) : Except SlicePanic ModelStep := parseStep (f.message w)

end Fold

/-- The fold over a whole stream. -/
def folded (w : Wire) (thinking : Bool) (values : List Json) : Fold :=
  (values.foldl (Fold.absorb w) { closed := !thinking }).finish

end MarloweAgent.Provider
