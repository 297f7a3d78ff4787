import MarloweAgent.EventLog.Journal
import MarloweAgent.Loop.Budget
import MarloweAgent.Loop.Context

/-! Runs, their output contracts and the condensed results a contract admits. -/

namespace MarloweAgent.Loop
open Contract Library EventLog

abbrev RunId := Nat
abbrev EscalationId := Nat

inductive OrphanPolicy
  | adopt (by_ : RunId)
  | detach
  | terminate
  deriving DecidableEq, Repr

def OrphanPolicy.word : OrphanPolicy → String
  | terminate => "terminate"
  | detach => "detach"
  | adopt _ => "adopt"

inductive PauseReason
  | budgetExhausted (dimension : String)
  | awaitingApproval
  | awaitingAnswer
  | awaitingEscalation (id : EscalationId)
  deriving DecidableEq, Repr

inductive RunStatus
  | queued
  | running
  | waitingApproval (decision : Nat)
  | waitingEvent (until_ : Option Int)
  | paused (reason : PauseReason)
  | completed
  | failed (error : String)
  | cancelled
  deriving DecidableEq, Repr

/-! ## Output contracts -/

inductive FieldType
  | text
  | line
  deriving DecidableEq, Repr

structure FieldSpec where
  name : String
  ty : FieldType
  maxChars : Nat
  deriving DecidableEq, Repr

def defaultFieldMaxChars : Nat := 2000

namespace FieldSpec

def text (name : String) : FieldSpec := { name, ty := .text, maxChars := defaultFieldMaxChars }

def line (name : String) : FieldSpec := { name, ty := .line, maxChars := 200 }

def capped (spec : FieldSpec) (maxChars : Nat) : FieldSpec := { spec with maxChars }

end FieldSpec

inductive ContractViolation
  | unknownField (field : String)
  | missingField (field : String)
  | tooLong (chars max : Nat)
  | fieldTooLong (field : String) (chars max : Nat)
  | disallowedCharacter (field : String) (codepoint : Nat)
  deriving DecidableEq, Repr

def ContractViolation.render : ContractViolation → String
  | unknownField field => s!"the output contract does not name a field `{field}`"
  | missingField field => s!"the output contract requires a field `{field}` and the result has none"
  | tooLong chars max =>
    s!"a result of {chars} characters exceeds the contract's {max}. A parent's context must " ++
    "never accumulate a child's raw history (§10.2), and this cap is what makes that " ++
    "structural rather than hoped for"
  | fieldTooLong field chars max => s!"field `{field}` is {chars} characters and the contract caps it at {max}"
  | disallowedCharacter field codepoint =>
    let code := String.ofList (Text.hex4 codepoint)
    s!"field `{field}` contains the control character U+{code}, which a returned value " ++
    "may not carry. ESC (U+001B) is the one that matters: a fetched page must not be able to " ++
    "write terminal escape sequences through a child and onto a screen"

/-- The first character a field of this type may not carry. -/
def firstDisallowed (ty : FieldType) (value : String) : Option Char :=
  value.toList.find? fun c =>
    !(if c = '\n' ∨ c = '\t' then ty = .text else Text.isRenderable c)

def FieldSpec.validateValue (spec : FieldSpec) (value : String) : Except ContractViolation Unit :=
  let chars := value.toList.length
  if spec.maxChars < chars then .error (.fieldTooLong spec.name chars spec.maxChars)
  else
    match firstDisallowed spec.ty value with
    | some c => .error (.disallowedCharacter spec.name c.toNat)
    | none => .ok ()

/-- A child's result: named fields, in name order. -/
structure CondensedResult where
  fields : OrderedMap String String

namespace CondensedResult

def empty : CondensedResult := ⟨OrderedMap.empty⟩

def insert (result : CondensedResult) (field value : String) : CondensedResult :=
  ⟨result.fields.insert field value⟩

def get (result : CondensedResult) (field : String) : Option String := result.fields.get? field

def renderField (field : String × String) : String :=
  field.1 ++ ":\n" ++ String.join ((Text.lines field.2).map fun line => "  " ++ line ++ "\n")

def render (result : CondensedResult) : String :=
  Text.trimEnd (String.join (result.fields.bindings.map renderField))

/-- A line that opens a contract field: the field and what follows the colon. -/
def headerOf (fields : List FieldSpec) (line : String) : Option (String × String) :=
  let chars := line.toList
  if ':' ∈ chars then
    let name := String.ofList (chars.takeWhile (· ≠ ':'))
    let rest := String.ofList ((chars.dropWhile (· ≠ ':')).drop 1)
    (fields.find? (·.name == name)).map fun f => (f.name, rest)
  else none

/-- Close the open field; the first text under a name is the one kept. -/
def flush (out : CondensedResult) (current : Option String) (buf : List String) : CondensedResult :=
  match current with
  | some name =>
    if (out.get name).isSome then out else out.insert name (Text.trim (Text.join "\n" buf))
  | none => out

def parseLines (fields : List FieldSpec) :
    List String → CondensedResult → Option String → List String → CondensedResult
  | [], out, current, buf => flush out current buf
  | line :: rest, out, current, buf =>
    match headerOf fields line with
    | some (name, after) =>
      parseLines fields rest (flush out current buf) (some name)
        (if Text.isEmpty (Text.trim after) then [] else [Text.trimStart after])
    | none => parseLines fields rest out current (buf ++ [line])

/-- Split a reply at its field headers. -/
def parseFields (text : String) (fields : List FieldSpec) : Option CondensedResult :=
  let out := parseLines fields (Text.lines text) empty none []
  if out.fields.bindings.isEmpty then none else some out

end CondensedResult

def defaultResultMaxChars : Nat := 4000

structure OutputContract where
  description : String
  fields : List FieldSpec
  maxChars : Nat
  deriving DecidableEq, Repr

namespace OutputContract

def new (description : String) (fields : List String) : OutputContract :=
  { description, fields := fields.map FieldSpec.text, maxChars := defaultResultMaxChars }

/-- The sum of the caps. `Iterator::sum` adds with `+`, which wraps in a release build. -/
def capSum (fields : List FieldSpec) : Nat :=
  fields.foldl (fun acc f => (acc + f.maxChars) % 2 ^ 64) 0

def structured (description : String) (fields : List FieldSpec) : OutputContract :=
  let headroom := satMul u64Max fields.length 64
  { description, fields
    maxChars := max (satAdd u64Max (capSum fields) headroom) defaultResultMaxChars }

/-- The contract of a conversation turn: one field without a cap (`usize::MAX`). -/
def answer : OutputContract :=
  { description := "answer the user's request"
    fields := [{ name := "answer", ty := .text, maxChars := u64Max }]
    maxChars := u64Max }

/-- Check each declared field in turn. -/
def validateFields (result : CondensedResult) : List FieldSpec → Except ContractViolation Unit
  | [] => .ok ()
  | spec :: rest =>
    match result.get spec.name with
    | none => .error (.missingField spec.name)
    | some value =>
      match spec.validateValue value with
      | .error v => .error v
      | .ok () => validateFields result rest

def validate (contract : OutputContract) (result : CondensedResult) : Except ContractViolation Unit :=
  match result.fields.keys.find? fun name => !contract.fields.any (·.name == name) with
  | some name => .error (.unknownField name)
  | none =>
    match validateFields result contract.fields with
    | .error v => .error v
    | .ok () =>
      let total := (result.fields.values.map fun v => v.toList.length).sum
      if contract.maxChars < total then .error (.tooLong total contract.maxChars) else .ok ()

end OutputContract

/-! ## Runs -/

structure Run where
  id : RunId
  parent : Option RunId
  session : SessionId
  traceId : TraceId
  status : RunStatus
  profile : CapabilityProfile
  budget : Budget
  spent : Budget
  orphanPolicy : OrphanPolicy
  outputContract : OutputContract
  lastCheckpoint : Option Nat
  trustFloor : TrustClass

namespace Run

/-- Lower the floor to what was observed; the new floor when it moved. -/
def latchTrustFloor (run : Run) (observed : TrustClass) : Run × Option TrustClass :=
  if observed < run.trustFloor then ({ run with trustFloor := observed }, some observed)
  else (run, none)

/-- A child inherits its parent's floor and trace and starts with nothing spent. -/
def child (id : RunId) (parent : Run) (session : SessionId) (profile : CapabilityProfile)
    (budget : Budget) (orphanPolicy : OrphanPolicy) (outputContract : OutputContract) : Run :=
  { id, parent := some parent.id, session, traceId := parent.traceId, status := .queued
    profile, budget, spent := {}, orphanPolicy, outputContract, lastCheckpoint := none
    trustFloor := parent.trustFloor }

def root (id : RunId) (session : SessionId) (profile : CapabilityProfile) (budget : Budget)
    (outputContract : OutputContract) : Run :=
  { id, parent := none, session, traceId := ⟨toString id⟩, status := .queued
    profile, budget, spent := {}, orphanPolicy := .terminate, outputContract
    lastCheckpoint := none, trustFloor := .userAsserted }

theorem latchTrustFloor_floor (run : Run) (observed : TrustClass) :
    (run.latchTrustFloor observed).1.trustFloor = min run.trustFloor observed := by
  unfold latchTrustFloor
  split
  · rename_i h
    exact (min_eq_right (le_of_lt h)).symm
  · rename_i h
    exact (min_eq_left (not_lt.mp h)).symm

/-- Latching touches the floor and nothing else. -/
theorem latchTrustFloor_eq (run : Run) (observed : TrustClass) :
    (run.latchTrustFloor observed).1 = { run with trustFloor := min run.trustFloor observed } := by
  rw [← latchTrustFloor_floor]
  unfold latchTrustFloor
  split <;> rfl

end Run

end MarloweAgent.Loop
