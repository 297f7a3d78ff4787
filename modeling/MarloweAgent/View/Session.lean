import MarloweAgent.Loop.Driver

/-! What the surface draws: the transcript, the status band, the pager and the panes. Only
what the daemon's projection writes is here. -/

namespace MarloweAgent.View
open Loop Tools

inductive Tone
  | green
  | amber
  | red
  | accent
  | normal
  | dim
  deriving DecidableEq, Repr

/-! ## The panes -/

/-- A row of a pane. -/
structure Item where
  label : String
  id : Option String
  key : Option Char
  lines : List (String × Tone)
  tone : Tone
  editable : Bool
  deriving DecidableEq, Repr

namespace Item

def new (label : String) (key : Char) (tone : Tone) (lines : List (String × Tone)) : Item :=
  { label, id := none, key := some key, lines, tone, editable := false }

def unkeyed (label : String) (tone : Tone) (lines : List (String × Tone)) : Item :=
  { new label 'a' tone lines with key := none }

def identified (item : Item) (id : String) : Item := { item with id := some id }

end Item

/-- A choice among options, one of which is taken. -/
structure Picker where
  options : List String
  selected : Nat
  valid : selected < options.length

/-- The option with this name, or the first. -/
def Picker.naming (options : List String) (name : String) (h : options ≠ []) : Picker where
  options := options
  selected := (options.findIdx? (· == name)).getD 0
  valid := by
    cases hfind : options.findIdx? (· == name) with
    | none => exact List.length_pos_iff.mpr h
    | some n =>
      obtain ⟨hlt, -⟩ := List.findIdx?_eq_some_iff_getElem.mp hfind
      exact hlt

/-! ## The band -/

inductive StatusState
  | listening
  | thinking
  | speaking
  | writing
  | running
  | waiting
  | idle
  deriving DecidableEq, Repr

inductive DegradedPath
  | denseRetrievalOffline
  | voiceUnavailable
  | providerFailedOver
  | unclassified
  | trustFloorLatched
  | engineFellBackToOllama
  | binaryBehindSource
  deriving DecidableEq, Repr

/-- A reading of how fast a turn came. -/
structure Cadence where
  ttftMs : Nat
  tokens : Nat
  sinceFirstMs : Nat
  warm : Bool
  elapsed : sinceFirstMs ≠ 0
  counted : 2 ≤ tokens

/-- Refused where a rate would divide by nothing. -/
def Cadence.new (ttftMs tokens sinceFirstMs : Nat) (warm : Bool) : Option Cadence :=
  if h : sinceFirstMs = 0 ∨ tokens < 2 then none
  else some ⟨ttftMs, tokens, sinceFirstMs, warm, fun hz => h (.inl hz), by omega⟩

structure StatusBand where
  state : StatusState
  detail : String
  figures : List String
  degraded : Option DegradedPath
  cadence : Option Cadence

structure Pager where
  turn : Nat
  compacted : Nat
  lineage : Nat
  deriving DecidableEq, Repr

structure Ambient where
  fillPct : Nat
  spendCents : Nat
  elapsedMin : Nat
  deriving DecidableEq, Repr

/-! ## The transcript -/

/-- Prose in Marlowe's voice: the model's, or one of the harness's own notices. -/
inductive Speech
  | model (text : String)
  | harness (notice : String)
  deriving DecidableEq, Repr

structure ToolCall where
  id : Nat
  verb : String
  target : String
  state : ToolLineState
  collapsed : List String
  expanded : Bool
  summaryLine : Option String
  deriving DecidableEq, Repr

def ToolCall.ok (id : Nat) (verb target : String) (metrics : List Metric) : ToolCall :=
  { id, verb, target, state := .ok (.new metrics), collapsed := [], expanded := false
    summaryLine := none }

inductive Entry
  | user (text : String)
  | said (speech : Speech)
  | tools (calls : List ToolCall)
  | reasoning (text : String) (tokens : Nat) (done : Bool)
  | compacted (turns : Nat)
  deriving DecidableEq, Repr

/-- What the projection of the daemon's events keeps. -/
structure SessionView where
  model : Picker
  status : StatusBand
  transcript : List Entry
  pager : Pager
  ambient : Ambient
  runs : List Item
  statusPane : List Item

/-- A view with nothing in it. -/
def SessionView.blank : SessionView where
  model := ⟨["local"], 0, Nat.zero_lt_one⟩
  status := ⟨.idle, "", [], none, none⟩
  transcript := []
  pager := ⟨0, 0, 0⟩
  ambient := ⟨0, 0, 0⟩
  runs := []
  statusPane := []

end MarloweAgent.View
