import MarloweAgent.Contract.Text
import MarloweAgent.Library.OrderedMap
import Mathlib.Order.Basic
import Mathlib.Data.String.Basic

/-! Tool identifiers, capability manifests, the registry and the exposed set, and
the harness-rendered summary of a result. A registered tool is filed under the
tool its own manifest names, and an exposed set is within its cap by construction. -/

namespace MarloweAgent.Tools
open Contract Library

structure ToolId where
  text : String
  deriving DecidableEq, Repr

theorem ToolId.text_injective : Function.Injective ToolId.text := by
  intro a b h
  cases a
  cases b
  exact congrArg ToolId.mk h

instance : LinearOrder ToolId := LinearOrder.lift' ToolId.text ToolId.text_injective

inductive ConsequenceLevel
  | inert
  | reversible
  | consequential
  | irreversible
  deriving DecidableEq, Repr

namespace ConsequenceLevel

/-- The discriminant. -/
def rank : ConsequenceLevel → Nat
  | inert => 0
  | reversible => 1
  | consequential => 2
  | irreversible => 3

theorem rank_injective : Function.Injective rank := by
  intro a b h
  cases a <;> cases b <;> first | rfl | cases h

instance : LinearOrder ConsequenceLevel := LinearOrder.lift' rank rank_injective

end ConsequenceLevel

/-- What a parameter chooses: what the tool acts on, or only what it carries. -/
inductive ArgumentRole
  | target
  | payload
  deriving DecidableEq, Repr

inductive ParamType
  | text
  | path
  | writePath
  | url
  | amount
  | identifier
  | integer
  | boolean
  deriving DecidableEq, Repr

structure ParamSpec where
  name : String
  role : ArgumentRole
  ty : ParamType
  required : Bool
  deriving DecidableEq, Repr

structure PathGlob where
  text : String
  deriving DecidableEq, Repr

structure HostPattern where
  text : String
  deriving DecidableEq, Repr

/-- What a tool declares it may touch. Credentials, provenance and the parameter
descriptions are read by other layers and left out. -/
structure CapabilityManifest where
  tool : ToolId
  paths : List PathGlob
  hosts : List HostPattern
  consequence : ConsequenceLevel
  params : List ParamSpec
  deriving DecidableEq, Repr

namespace CapabilityManifest

def specOf (manifest : CapabilityManifest) (param : String) : Option ParamSpec :=
  manifest.params.find? (·.name == param)

def roleOf (manifest : CapabilityManifest) (param : String) : Option ArgumentRole :=
  (manifest.params.find? (·.name == param)).map ParamSpec.role

end CapabilityManifest

/-! ## Loading -/

inductive ManifestProvenance
  | firstParty
  | thirdParty
  | userReviewed (at_ : Int)
  deriving DecidableEq, Repr

structure RawParamSpec where
  name : String
  role : Option ArgumentRole
  ty : ParamType
  required : Bool
  deriving DecidableEq, Repr

structure RawManifest where
  tool : ToolId
  paths : List String
  hosts : List String
  consequence : Option ConsequenceLevel
  params : List RawParamSpec
  deriving DecidableEq, Repr

inductive LoadError
  | thirdPartySelfDeclaredLow (tool : ToolId) (declared : ConsequenceLevel)
  | unroledParameter (tool : ToolId) (param : String)
  | duplicateParameter (tool : ToolId) (param : String)
  | emptyParameterName (tool : ToolId)
  deriving DecidableEq, Repr

/-- The `Debug` rendering. -/
def ConsequenceLevel.debug : ConsequenceLevel → String
  | inert => "Inert"
  | reversible => "Reversible"
  | consequential => "Consequential"
  | irreversible => "Irreversible"

def LoadError.render : LoadError → String
  | thirdPartySelfDeclaredLow tool declared =>
    "tool `" ++ tool.text ++ "` is third-party and declares consequence `" ++ declared.debug ++
    "`, below `consequential`. Third-party code cannot self-declare its way down"
  | unroledParameter tool param =>
    "tool `" ++ tool.text ++ "` parameter `" ++ param ++ "` has no declared role. Every " ++
    "parameter is `target` or `payload`; there is no default, because the default would decide " ++
    "which arguments untrusted content may shape"
  | duplicateParameter tool param =>
    "tool `" ++ tool.text ++ "` declares parameter `" ++ param ++ "` twice"
  | emptyParameterName tool => "tool `" ++ tool.text ++ "` declares a parameter with an empty name"

/-- Check each parameter in turn against those before it. -/
def loadParams (tool : ToolId) : List RawParamSpec → List ParamSpec → Except LoadError (List ParamSpec)
  | [], params => .ok params
  | p :: rest, params =>
    if Text.isEmpty (Text.trim p.name) then .error (.emptyParameterName tool)
    else if params.any (·.name = p.name) then .error (.duplicateParameter tool p.name)
    else
      match p.role with
      | none => .error (.unroledParameter tool p.name)
      | some role =>
        loadParams tool rest (params ++ [{ name := p.name, role, ty := p.ty, required := p.required }])

/-- An absent consequence is the maximum. -/
def load (raw : RawManifest) (provenance : ManifestProvenance) :
    Except LoadError CapabilityManifest := do
  let consequence := raw.consequence.getD .irreversible
  if provenance = .thirdParty ∧ consequence < .consequential then
    throw (.thirdPartySelfDeclaredLow raw.tool consequence)
  let params ← loadParams raw.tool raw.params []
  pure
    { tool := raw.tool, paths := raw.paths.map PathGlob.mk, hosts := raw.hosts.map HostPattern.mk
      consequence, params }

structure ToolRegistration where
  id : ToolId
  manifest : CapabilityManifest
  deriving DecidableEq, Repr

inductive RegistryError
  | duplicate (tool : ToolId)
  | manifestIdMismatch (tool manifestTool : ToolId)
  deriving DecidableEq, Repr

/-- Registered tools. Every manifest is filed under the tool it names. -/
structure ToolRegistry where
  byId : OrderedMap ToolId ToolRegistration
  named : ∀ tool reg, byId.get? tool = some reg → reg.manifest.tool = tool

namespace ToolRegistry

def empty : ToolRegistry := ⟨OrderedMap.empty, fun _ _ h => by cases h⟩

theorem named_insert (registry : ToolRegistry) {reg : ToolRegistration}
    (h : reg.manifest.tool = reg.id) (tool : ToolId) (found : ToolRegistration)
    (hf : (registry.byId.insert reg.id reg).get? tool = some found) :
    found.manifest.tool = tool := by
  rw [OrderedMap.get?_insert] at hf
  split at hf
  · rename_i heq
    cases hf
    rw [← heq]
    exact h
  · exact registry.named tool found hf

def register (registry : ToolRegistry) (reg : ToolRegistration) : Except RegistryError ToolRegistry :=
  if (registry.byId.get? reg.id).isSome then .error (.duplicate reg.id)
  else if h : reg.manifest.tool = reg.id then
    .ok ⟨registry.byId.insert reg.id reg, registry.named_insert h⟩
  else .error (.manifestIdMismatch reg.id reg.manifest.tool)

def manifest (registry : ToolRegistry) (tool : ToolId) : Option CapabilityManifest :=
  (registry.byId.get? tool).map ToolRegistration.manifest

theorem manifest_tool {registry : ToolRegistry} {tool : ToolId} {manifest : CapabilityManifest}
    (h : registry.manifest tool = some manifest) : manifest.tool = tool := by
  obtain ⟨reg, hreg, rfl⟩ := Option.map_eq_some_iff.mp h
  exact registry.named tool reg hreg

end ToolRegistry

/-! ## The exposed set -/

def maxExposedTools : Nat := 14

inductive ExposureError
  | tooMany (got : Nat)
  | duplicate (tool : ToolId)
  deriving DecidableEq, Repr

namespace ExposureError

def render : ExposureError → String
  | tooMany got =>
    s!"a capability profile exposed {got} tools; the budget is {maxExposedTools} " ++
    "(ARCHITECTURE §5, HP10). Registration is unlimited — expose fewer and let the model " ++
    "reach the rest through `use`"
  | duplicate tool =>
    let name := tool.text
    s!"tool `{name}` is exposed twice. Two slots spent on one tool is a budget that counts " ++
    "wrong, and the duplicate would be invisible in the model's tool list"

end ExposureError

/-- The tools one run may see, within the cap and without a repeat. -/
structure ExposedSet where
  tools : List ToolId
  within : tools.length ≤ maxExposedTools
  distinct : tools.Nodup

namespace ExposedSet

@[ext] theorem ext {a b : ExposedSet} (h : a.tools = b.tools) : a = b := by
  cases a
  cases b
  cases h
  rfl

/-- The first tool that also occurs earlier in the list. -/
def firstRepeat (seen : List ToolId) : List ToolId → Option ToolId
  | [] => none
  | t :: rest => if t ∈ seen then some t else firstRepeat (seen ++ [t]) rest

theorem nodup_of_firstRepeat {seen tools : List ToolId} (hs : seen.Nodup)
    (h : firstRepeat seen tools = none) : (seen ++ tools).Nodup := by
  induction tools generalizing seen with
  | nil => simpa using hs
  | cons t rest ih =>
    simp only [firstRepeat] at h
    split at h
    · cases h
    · rename_i hnot
      have hst : (seen ++ [t]).Nodup := by
        rw [List.nodup_append]
        refine ⟨hs, List.pairwise_singleton _ t, ?_⟩
        intro a ha b hb hab
        rw [List.mem_singleton] at hb
        exact hnot (hb ▸ hab ▸ ha)
      simpa using ih hst h

/-- `ExposedSet::new`: refused over the cap, and at the first repeated tool. -/
def new (tools : List ToolId) : Except ExposureError ExposedSet :=
  if hcap : tools.length ≤ maxExposedTools then
    match hrep : firstRepeat [] tools with
    | some t => .error (.duplicate t)
    | none => .ok ⟨tools, hcap, nodup_of_firstRepeat List.nodup_nil hrep⟩
  else .error (.tooMany tools.length)

def empty : ExposedSet := ⟨[], Nat.zero_le _, List.nodup_nil⟩

def contains (exposed : ExposedSet) (tool : ToolId) : Bool := exposed.tools.contains tool

def isEmpty (exposed : ExposedSet) : Bool := exposed.tools.isEmpty

theorem new_tools {tools : List ToolId} {exposed : ExposedSet} (h : new tools = .ok exposed) :
    exposed.tools = tools := by
  unfold new at h
  split at h
  · split at h
    · cases h
    · cases h
      rfl
  · cases h

theorem contains_iff {exposed : ExposedSet} {tool : ToolId} :
    exposed.contains tool = true ↔ tool ∈ exposed.tools := by
  simp [contains]

end ExposedSet

/-! ## Result summaries -/

inductive Metric
  | count (n : Nat) (unit : String)
  | diff (added removed : Nat)
  | test (passed failed decis : Nat)
  | duration (ms : Nat)
  | bytes (n : Nat)
  | exit (code : Int)
  | state (word : String)
  deriving DecidableEq, Repr

namespace Metric

def render : Metric → String
  | count n unit =>
    if n = 1 then "1 " ++ Text.trimEndMatches unit 's' else s!"{n} {unit}"
  | diff added removed => s!"+{added} −{removed}"
  | test passed failed decis =>
    let secs := s!"{decis / 10}.{decis % 10}s"
    if failed = 0 then s!"{passed} passed · {secs}"
    else s!"{passed} passed · {failed} failed · {secs}"
  | duration ms => s!"{ms} ms"
  | bytes n => s!"{n} B"
  | exit code => s!"exit {code}"
  | state word => word

end Metric

/-- What the harness says about a result in its own words, and the tool's detail. -/
structure ResultSummary where
  metrics : List Metric
  detail : Option String
  deriving DecidableEq, Repr

namespace ResultSummary

def new (metrics : List Metric) : ResultSummary := { metrics, detail := none }

def withDetail (metrics : List Metric) (detail : String) : ResultSummary :=
  { metrics, detail := some detail }

def render (summary : ResultSummary) : String :=
  Text.join " · " (summary.metrics.map Metric.render)

end ResultSummary

end MarloweAgent.Tools
