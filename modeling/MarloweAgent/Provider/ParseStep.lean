import MarloweAgent.Loop.Driver
import MarloweAgent.Mcp.Client

/-! One message of the model, turned into a step. Structured calls come first; a control tool
among them ends the reading. Without any, the prose is searched for a call that leaked into it
as markup, and what cannot be recovered is said, its markup made harmless. A slice of the prose
whose ends are out of order stops the program. -/

namespace MarloweAgent.Provider
open Contract Tools Permission Loop
open Mcp (Json)

/-! ## Values -/

def escapeChar (c : Char) : List Char :=
  if c = '"' then ['\\', '"']
  else if c = '\\' then ['\\', '\\']
  else if c = Char.ofNat 8 then ['\\', 'b']
  else if c = Char.ofNat 12 then ['\\', 'f']
  else if c = '\n' then ['\\', 'n']
  else if c = '\r' then ['\\', 'r']
  else if c = '\t' then ['\\', 't']
  else if c.toNat < 32 then
    ['\\', 'u', '0', '0', Nat.digitChar (c.toNat / 16), Nat.digitChar (c.toNat % 16)]
  else [c]

def quoted (s : String) : String := String.ofList ('"' :: s.toList.flatMap escapeChar ++ ['"'])

mutual

/-- `Value::to_string`, without blanks. -/
def renderJson : Json → String
  | .null => "null"
  | .bool b => toString b
  | .integer n => toString n
  | .decimal text => text
  | .string s => quoted s
  | .array items => "[" ++ ",".intercalate (renderItems items) ++ "]"
  | .object fields => "\x7b" ++ ",".intercalate (renderFields fields) ++ "\x7d"

def renderItems : List Json → List String
  | [] => []
  | item :: rest => renderJson item :: renderItems rest

def renderFields : List (String × Json) → List String
  | [] => []
  | (key, value) :: rest => (quoted key ++ ":" ++ renderJson value) :: renderFields rest

end

/-- One argument of a structured call. -/
def argValue (value : Json) : ArgValue :=
  match value, value.asI64 with
  | .string s, _ => .text s
  | _, some n => .integer n
  | .bool b, none => .boolean b
  | other, none => .text (renderJson other)

def callName (call : Json) : String :=
  (((call.get? "function").bind (Json.get? · "name")).bind Json.asStr).getD ""

def callArgs (call : Json) : Args :=
  match (call.get? "function").bind (Json.get? · "arguments") with
  | some (.object fields) => fields.foldl (fun args (k, v) => args.insert k (argValue v)) Args.empty
  | _ => Args.empty

/-! ## Control steps -/

def controlTools : List String := ["ask", "remember", "run"]

def textArg (args : Args) (key : String) : Option String := (args.get key).bind ArgValue.asText

def contentOf (message : Json) : String := ((message.get? "content").bind Json.asStr).getD ""

/-- What a reply that was made as a call says: the first of its texts, or else the prose. -/
def doneBody (args : Args) (message : Json) : String :=
  let prose := ((message.get? "content").bind Json.asStr).filter fun s => ! Text.isEmpty (Text.trim s)
  (textArg args "result" <|> textArg args "answer" <|> textArg args "content" <|> textArg args "text" <|>
    prose).getD ""

def controlStep (name : String) (args : Args) (message : Json) : ModelStep :=
  let body := doneBody args message
  if name = "done" then .say body
  else if name = "ask" then .ask ((textArg args "question").getD body)
  else if name = "remember" then
    .memoryWrite
      { text := (textArg args "text").getD body
        payloadKind := (textArg args "payload_kind").getD "fact"
        derivedFrom := (textArg args "derived_from").toList }
  else if name = "run" then .spawn (SpawnRequest.fromArgs args)
  else .say body

/-! ## Structured calls -/

/-- The loop over `tool_calls`: the batch, or the step that a control tool returns at once. -/
def structured (message : Json) : List (Json × Nat) → List ToolInvocation →
    Except ModelStep (List ToolInvocation)
  | [], batch => .ok batch
  | (call, i) :: rest, batch =>
    let name := callName call
    if name = "" then structured message rest batch
    else
      let args := callArgs call
      if name = "done" then .error (.say (doneBody args message))
      else if name ∈ controlTools then .error (controlStep name args message)
      else structured message rest (batch ++ [{ id := s!"call_{i + 1}", tool := ⟨name⟩, args }])

def structuredStep (message : Json) : Option ModelStep :=
  match (message.get? "tool_calls").bind Json.asArray with
  | none => none
  | some calls =>
    match structured message calls.zipIdx [] with
    | .error step => some step
    | .ok [] => none
    | .ok (first :: rest) => some (.toolCall (first :: rest))

/-! ## Leaked calls -/

/-- A slice whose ends are out of order, or past the end of the text. -/
structure SlicePanic where
  start : Nat
  stop : Nat
  len : Nat
  deriving DecidableEq, Repr

def slice (s : List Char) (start stop : Nat) : Except SlicePanic (List Char) :=
  if start ≤ stop ∧ stop ≤ s.length then .ok ((s.take stop).drop start)
  else .error { start, stop, len := s.length }

def sliceFrom (s : List Char) (start : Nat) : Except SlicePanic (List Char) := slice s start s.length

def functionOpening : List Char := "<function=".toList
def functionClosing : List Char := "</function>".toList
def parameterOpening : List Char := "<parameter=".toList
def parameterClosing : List Char := "</parameter>".toList

def trimmed (s : List Char) : String := Text.trim (String.ofList s)

/-- One round of the loop over the parameters, and where the next one starts. -/
def parameter (cursor : List Char) (args : Args) : Except SlicePanic (Args × Option (List Char)) :=
  match Text.find cursor parameterOpening with
  | none => .ok (args, none)
  | some p => do
    let after ← sliceFrom cursor (p + parameterOpening.length)
    match Text.find after ['>'] with
    | none => .ok (args, none)
    | some keyEnd =>
      let key := trimmed (← slice after 0 keyEnd)
      let valueRegion ← sliceFrom after (keyEnd + 1)
      let valueEnd := (Text.find valueRegion parameterClosing).getD valueRegion.length
      let value := trimmed (← slice valueRegion 0 valueEnd)
      let args :=
        if Text.isEmpty key then args
        else
          args.insert key
            (match Text.parseI64 value.toList with
              | some n => .integer n
              | none => .text value)
      let cursor ← sliceFrom valueRegion (min valueEnd valueRegion.length)
      if cursor = [] then .ok (args, none)
      else
        let closing := (Text.find cursor parameterClosing).map (· + parameterClosing.length)
        .ok (args, some (← sliceFrom cursor (closing.getD 0)))

theorem slice_ok {s : List Char} {start stop : Nat} (h : start ≤ stop ∧ stop ≤ s.length) :
    slice s start stop = .ok ((s.take stop).drop start) := if_pos h

theorem sliceFrom_ok {s : List Char} {start : Nat} (h : start ≤ s.length) :
    sliceFrom s start = .ok (s.drop start) := by
  rw [sliceFrom, slice_ok ⟨h, Nat.le_refl _⟩, List.take_length]

theorem find_le {s sub : List Char} {pos : Nat} (h : Text.find s sub = some pos) (hne : sub ≠ []) :
    pos + sub.length ≤ s.length := by
  have hpre := (Text.find_eq_some h).1.length_le
  have hpos := List.length_pos_iff.mpr hne
  rw [List.length_drop] at hpre
  omega

/-- Every slice of a round is in order, and the next round has less to read. -/
theorem parameter_ok (cursor : List Char) (args : Args) :
    ∃ args' next, parameter cursor args = .ok (args', next) ∧
      ∀ more ∈ next, more.length < cursor.length := by
  unfold parameter
  cases hp : Text.find cursor parameterOpening with
  | none => exact ⟨args, none, rfl, by simp⟩
  | some p =>
    have hopening := find_le hp (by decide)
    rw [show parameterOpening.length = 11 from rfl] at hopening ⊢
    simp only [sliceFrom_ok hopening, bind, Except.bind]
    cases hkey : Text.find (cursor.drop (p + 11)) ['>'] with
    | none => exact ⟨args, none, rfl, by simp⟩
    | some keyEnd =>
      have hafter := find_le hkey (by decide)
      rw [List.length_singleton] at hafter
      have hkeySlice := slice_ok (s := cursor.drop (p + 11)) ⟨Nat.zero_le keyEnd, by omega⟩
      simp only [hkeySlice, sliceFrom_ok hafter]
      generalize hregion : (cursor.drop (p + 11)).drop (keyEnd + 1) = valueRegion
      have hshorter : valueRegion.length < cursor.length := by
        rw [← hregion, List.length_drop, List.length_drop]
        omega
      generalize hend : (Text.find valueRegion parameterClosing).getD valueRegion.length = valueEnd
      have hvalueEnd : valueEnd ≤ valueRegion.length := by
        rw [← hend]
        cases hclosing : Text.find valueRegion parameterClosing with
        | none => exact Nat.le_refl _
        | some stop =>
          have hle := find_le hclosing (by decide)
          rw [Option.getD_some]
          omega
      have hvalueSlice := slice_ok (s := valueRegion) ⟨Nat.zero_le valueEnd, hvalueEnd⟩
      simp only [hvalueSlice, Nat.min_eq_left hvalueEnd, sliceFrom_ok hvalueEnd]
      split
      next => exact ⟨_, none, rfl, by simp⟩
      next =>
        generalize hclose : ((Text.find (valueRegion.drop valueEnd) parameterClosing).map
          (· + parameterClosing.length)).getD 0 = skip
        have hskip : skip ≤ (valueRegion.drop valueEnd).length := by
          rw [← hclose]
          cases hclosing : Text.find (valueRegion.drop valueEnd) parameterClosing with
          | none => exact Nat.zero_le _
          | some stop => exact find_le hclosing (by decide)
        simp only [sliceFrom_ok hskip]
        refine ⟨_, _, rfl, fun more hmore => ?_⟩
        obtain rfl := Option.some.inj hmore
        rw [List.length_drop, List.length_drop]
        omega

/-- The loop over the parameters of a leaked call. -/
def parameters (cursor : List Char) (args : Args) : Except SlicePanic Args :=
  match _hround : parameter cursor args with
  | .error panic => .error panic
  | .ok (found, none) => .ok found
  | .ok (found, some next) => parameters next found
termination_by cursor.length
decreasing_by
  obtain ⟨args', next', heq, hless⟩ := parameter_ok cursor args
  rw [_hround] at heq
  cases heq
  exact hless next rfl

theorem parameters_ok (cursor : List Char) (args : Args) :
    ∃ args', parameters cursor args = .ok args' := by
  fun_induction parameters cursor args with
  | case1 cursor args panic hround =>
    obtain ⟨args', next, heq, -⟩ := parameter_ok cursor args
    rw [hround] at heq
    cases heq
  | case2 cursor args args' hround => exact ⟨args', rfl⟩
  | case3 cursor args args' next hround ih => exact ih

/-- `recover_leaked_call`. -/
def recoverLeakedCall (content : List Char) : Except SlicePanic (Option ModelStep) :=
  match Text.find content functionOpening with
  | none => .ok none
  | some start => do
    let rest ← sliceFrom content (start + functionOpening.length)
    match Text.find rest ['>'] with
    | none => .ok none
    | some nameEnd =>
      let name := trimmed (← slice rest 0 nameEnd)
      if Text.isEmpty name then .ok none
      else
        let bodyEnd := (Text.find rest functionClosing).getD rest.length
        let body ← slice rest (nameEnd + 1) bodyEnd
        let args ← parameters body Args.empty
        if name ∈ controlTools then .ok (some (controlStep name args .null))
        else .ok (some (ModelStep.oneCall ⟨name⟩ args))

/-! ## The step -/

/-- `defang_tool_markup`. -/
def defangToolMarkup (content : String) : String :=
  if ! Text.contains content "<function" && ! Text.contains content "<parameter" then content
  else
    let s := Text.replace content.toList "</function>".toList "[/function]".toList
    let s := Text.replace s "</parameter>".toList "[/parameter]".toList
    let s := Text.replace s "<function".toList "[function".toList
    String.ofList (Text.replace s "<parameter".toList "[parameter".toList)

def parseStep (message : Json) : Except SlicePanic ModelStep :=
  match structuredStep message with
  | some step => .ok step
  | none =>
    let content := contentOf message
    let bare := Text.trim content
    if bare ∈ controlTools then .ok (controlStep bare Args.empty message)
    else do
      match ← recoverLeakedCall content.toList with
      | some step => .ok step
      | none => .ok (.say (defangToolMarkup content))

end MarloweAgent.Provider
