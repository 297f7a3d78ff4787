import MarloweAgent.Contract.Common
import MarloweAgent.Library.Stateful
import MarloweAgent.Permission.Egress

/-! The adjudicator. It reads the manifest, the arguments, their taint, the
exposed set and the egress policy, in that order of refusal, and opens the
declared paths through a scope whose file system is outside the model. -/

namespace MarloweAgent.Permission
open Contract Library Tools

def blocksComposedTargets (origin : TrustClass) : Bool := origin ≤ .untrustedContent

theorem blocksComposedTargets_iff {origin : TrustClass} :
    blocksComposedTargets origin = true ↔ origin = .untrustedContent := by
  simp [blocksComposedTargets, TrustClass.le_untrustedContent_iff]

/-! ## Arguments and their taint -/

inductive ArgValue
  | text (s : String)
  | integer (n : Int)
  | amount (micros : Nat)
  | boolean (b : Bool)
  deriving DecidableEq, Repr

namespace ArgValue

def asText : ArgValue → Option String
  | text s => some s
  | _ => none

/-- Six decimal digits. -/
def micros6 (n : Nat) : String :=
  let digits := Nat.toDigits 10 n
  String.ofList (List.replicate (6 - digits.length) '0' ++ digits)

def render : ArgValue → String
  | text s => s
  | integer n => toString n
  | amount micros => s!"{micros / 1000000}.{micros6 (micros % 1000000)} (spend ceiling)"
  | boolean b => toString b

end ArgValue

structure Args where
  byName : OrderedMap String ArgValue

namespace Args

def empty : Args := ⟨OrderedMap.empty⟩

def insert (args : Args) (name : String) (value : ArgValue) : Args := ⟨args.byName.insert name value⟩

def withText (args : Args) (name value : String) : Args := args.insert name (.text value)

def get (args : Args) (name : String) : Option ArgValue := args.byName.get? name

/-- The arguments in name order. -/
def entries (args : Args) : List (String × ArgValue) := args.byName.bindings

end Args

/-- The class each argument value resolved to. -/
structure TaintSet where
  byParam : OrderedMap String TrustClass

namespace TaintSet

def empty : TaintSet := ⟨OrderedMap.empty⟩

/-- A second class for one parameter can only lower the first. -/
def insert (taint : TaintSet) (param : String) (cls : TrustClass) : TaintSet :=
  ⟨taint.byParam.insert param (match taint.byParam.get? param with
    | some existing => min existing cls
    | none => cls)⟩

/-- An untracked parameter is untrusted. -/
def of (taint : TaintSet) (param : String) : TrustClass :=
  (taint.byParam.get? param).getD .untrustedContent

end TaintSet

/-! ## Decisions -/

inductive Tier
  | observe
  | suggest
  | draft
  | confirm
  | act
  | silent
  deriving DecidableEq, Repr

namespace Tier

def rank : Tier → Nat
  | observe => 0
  | suggest => 1
  | draft => 2
  | confirm => 3
  | act => 4
  | silent => 5

theorem rank_injective : Function.Injective rank := by
  intro a b h
  cases a <;> cases b <;> first | rfl | cases h

instance : LinearOrder Tier := LinearOrder.lift' rank rank_injective

def debug : Tier → String
  | observe => "Observe"
  | suggest => "Suggest"
  | draft => "Draft"
  | confirm => "Confirm"
  | act => "Act"
  | silent => "Silent"

/-- `drop_one`. -/
def dropOne : Tier → Tier
  | silent => act
  | act => confirm
  | confirm => draft
  | draft => suggest
  | suggest | observe => observe

end Tier

inductive RiskTier
  | routine
  | irreversible
  deriving DecidableEq, Repr

def RiskTier.forConsequence : ConsequenceLevel → RiskTier
  | .inert | .reversible => routine
  | .consequential | .irreversible => irreversible

inductive NoveltyReason
  | firstTimeForClass
  | unfamiliarTarget (target : String)
  | unusualAmount (microsUsd : Nat)
  deriving DecidableEq, Repr

structure ActionClass where
  tool : ToolId
  shape : UInt64
  label : String
  deriving DecidableEq

structure BlastRadius where
  verb : String
  scope : String
  reversible : Bool
  novelty : Option NoveltyReason
  deriving DecidableEq, Repr

inductive BlockReason
  | untrustedTarget (param : String) (origin : TrustClass)
  | undeclaredPath (path detail : String)
  | egressNotAllowed (host : String)
  | budgetExceeded (dimension : String)
  | tierInsufficient (have_ need : Tier)
  | toolNotAvailable (tool : ToolId)
  deriving DecidableEq, Repr

inductive Outcome
  | allowed
  | allowedBatched (batch : Nat)
  | needsApproval (tier : RiskTier)
  | blocked (reason : BlockReason)
  deriving DecidableEq, Repr

def Outcome.isBlocked : Outcome → Bool
  | blocked _ => true
  | _ => false

inductive Reason
  | consequenceLevel (c : ConsequenceLevel)
  | tierAtOrAbove (tier : Tier)
  | noveltyDroppedOneTier
  | allTargetsTrusted
  | inertNoTargetCheck
  | egressHostNeedsApproval (host : String)
  deriving DecidableEq, Repr

structure PermissionDecision where
  id : Nat
  tool : ToolId
  actionClass : ActionClass
  outcome : Outcome
  blastRadius : BlastRadius
  taint : TaintSet
  reasons : List Reason

structure Request where
  manifest : CapabilityManifest
  args : Args
  taint : TaintSet
  exposed : ExposedSet
  egress : EgressPolicy
  workspace : String
  tier : Tier
  novelty : Option NoveltyReason

/-! ## The path scope -/

inductive Access
  | read
  | readWrite
  | createOrOpen
  deriving DecidableEq, Repr

/-- An open handle and where it resolved; the file itself is outside the model. -/
structure ScopedPath where
  handle : Nat
  resolved : String
  relative : String
  deriving DecidableEq, Repr

/-- A path scope over a file system `σ`. An error is its rendered text. -/
structure PathScope (σ : Type) where
  openPath : List PathGlob → String → String → Access → Stateful σ (Except String ScopedPath)

structure Adjudication where
  decision : PermissionDecision
  handles : OrderedMap String ScopedPath

/-! ## Adjudication -/

def fnv1a (bytes : List UInt8) : UInt64 :=
  bytes.foldl (fun hash b => (hash ^^^ b.toUInt64) * 0x100000001b3) 0xcbf29ce484222325

def actionClass (manifest : CapabilityManifest) (args : Args) : ActionClass :=
  let shape := String.join (args.entries.map fun (name, _) =>
    let role := match manifest.roleOf name with
      | some .target => "target"
      | some .payload => "payload"
      | none => "undeclared"
    name ++ ":" ++ role ++ ";")
  { tool := manifest.tool
    shape := fnv1a shape.toUTF8.toList
    label := manifest.tool.text ++ " " ++ Text.trimEndMatches shape ';' }

def blastRadius (manifest : CapabilityManifest) (args : Args) (novelty : Option NoveltyReason) :
    BlastRadius :=
  let targets := (manifest.params.filter (·.role = .target)).filterMap
    fun p => (args.get p.name).map ArgValue.render
  { verb := manifest.tool.text
    scope := if targets.isEmpty then "no declared target" else Text.join " · " targets
    reversible := manifest.consequence ≤ .reversible
    novelty }

def requiredTier : ConsequenceLevel → Tier
  | .inert => .suggest
  | .reversible => .act
  | .consequential => .act
  | .irreversible => .silent

/-- The first argument that chooses what the tool acts on and may not. An
undeclared argument counts as a target. -/
def untrustedTarget (req : Request) : Option (String × TrustClass) :=
  (req.args.entries.find? fun (name, _) =>
    (req.manifest.roleOf name).getD .target = .target
      && blocksComposedTargets (req.taint.of name)).map fun (name, _) => (name, req.taint.of name)

/-- Open every declared path argument, stopping at the first refusal. -/
def openPaths {σ : Type} (scope : PathScope σ) (req : Request) :
    List ParamSpec → OrderedMap String ScopedPath →
      Stateful σ (Except BlockReason (OrderedMap String ScopedPath))
  | [], handles => pure (.ok handles)
  | spec :: rest, handles =>
    let access := match spec.ty with
      | .path => some Access.read
      | .writePath => some Access.createOrOpen
      | _ => none
    match access, (req.args.get spec.name).bind ArgValue.asText with
    | some access, some value => do
      match ← scope.openPath req.manifest.paths req.workspace value access with
      | .ok handle => openPaths scope req rest (handles.insert spec.name handle)
      | .error detail => pure (.error (.undeclaredPath value detail))
    | _, _ => openPaths scope req rest handles

/-- Check every declared URL argument: whether some host needs an approval, with
the reasons gathered on the way. -/
def checkHosts (req : Request) :
    List ParamSpec → Bool → List Reason → Except (BlockReason × List Reason) (Bool × List Reason)
  | [], needs, reasons => .ok (needs, reasons)
  | spec :: rest, needs, reasons =>
    match spec.ty, (req.args.get spec.name).bind ArgValue.asText with
    | .url, some value =>
      match Host.fromUrl value with
      | .error e => .error (.egressNotAllowed e.render, reasons)
      | .ok host =>
        if req.egress.permits host req.manifest.hosts then checkHosts req rest needs reasons
        else if req.egress.mayAsk && declaredAdmits req.manifest.hosts host then
          checkHosts req rest true (reasons ++ [.egressHostNeedsApproval host.text])
        else .error (.egressNotAllowed host.text, reasons)
    | _, _ => checkHosts req rest needs reasons

/-- The decision record of one request. -/
def decisionOf (id : Nat) (req : Request) (outcome : Outcome) (reasons : List Reason) :
    PermissionDecision :=
  { id
    tool := req.manifest.tool
    actionClass := actionClass req.manifest req.args
    outcome
    blastRadius := blastRadius req.manifest req.args req.novelty
    taint := req.taint
    reasons }

def refuse (id : Nat) (req : Request) (reason : BlockReason) (reasons : List Reason) : Adjudication :=
  ⟨decisionOf id req (.blocked reason) reasons, OrderedMap.empty⟩

def noveltyReasons (req : Request) : List Reason :=
  match req.novelty with
  | some _ => [.noveltyDroppedOneTier]
  | none => []

def effectiveTier (req : Request) : Tier :=
  match req.novelty with
  | some _ => req.tier.dropOne
  | none => req.tier

/-- The last stage: nothing blocks the request, so it is allowed or asked about. -/
def settleTier (id : Nat) (req : Request) (egressNeedsApproval : Bool) (reasons : List Reason)
    (handles : OrderedMap String ScopedPath) : Adjudication :=
  let reasons := reasons ++ noveltyReasons req
  let consequence := req.manifest.consequence
  if consequence = .irreversible then
    ⟨decisionOf id req (.needsApproval .irreversible) reasons, handles⟩
  else if egressNeedsApproval then
    ⟨decisionOf id req (.needsApproval (.forConsequence consequence)) reasons, handles⟩
  else if requiredTier consequence ≤ effectiveTier req then
    ⟨decisionOf id req .allowed (reasons ++ [.tierAtOrAbove (requiredTier consequence)]), handles⟩
  else
    ⟨decisionOf id req (.needsApproval (.forConsequence consequence)) reasons, handles⟩

/-- `Adjudicator::adjudicate`, under the decision number `id`. -/
def adjudicate {σ : Type} (scope : PathScope σ) (id : Nat) (req : Request) :
    Stateful σ Adjudication :=
  let reasons := [Reason.consequenceLevel req.manifest.consequence]
  if !req.exposed.contains req.manifest.tool then
    pure (refuse id req (.toolNotAvailable req.manifest.tool) reasons)
  else
    match if .inert < req.manifest.consequence then untrustedTarget req else none with
    | some (param, origin) => pure (refuse id req (.untrustedTarget param origin) reasons)
    | none => do
      let reasons := reasons ++
        [if .inert < req.manifest.consequence then .allTargetsTrusted else .inertNoTargetCheck]
      match ← openPaths scope req req.manifest.params OrderedMap.empty with
      | .error reason => pure (refuse id req reason reasons)
      | .ok handles =>
        match checkHosts req req.manifest.params false reasons with
        | .error (reason, reasons) => pure (refuse id req reason reasons)
        | .ok (needs, reasons) => pure (settleTier id req needs reasons handles)

/-! ## What a decision says -/

section Spec

variable {σ : Type} {scope : PathScope σ} {id : Nat} {req : Request} {s : σ}

@[simp] theorem refuse_isBlocked {reason : BlockReason} {reasons : List Reason} :
    (refuse id req reason reasons).decision.outcome.isBlocked = true := rfl

@[simp] theorem refuse_taint {reason : BlockReason} {reasons : List Reason} :
    (refuse id req reason reasons).decision.taint = req.taint := rfl

/-- The last stage never blocks and never batches. -/
theorem settleTier_outcome {needs : Bool} {reasons : List Reason}
    {handles : OrderedMap String ScopedPath} :
    (settleTier id req needs reasons handles).decision.outcome = .allowed ∨
      ∃ tier, (settleTier id req needs reasons handles).decision.outcome = .needsApproval tier := by
  unfold settleTier
  dsimp only
  split
  · exact .inr ⟨_, rfl⟩
  · split
    · exact .inr ⟨_, rfl⟩
    · split
      · exact .inl rfl
      · exact .inr ⟨_, rfl⟩

/-- **What an unblocked decision has passed.** -/
structure Cleared (req : Request) : Prop where
  /-- The tool is one the run was given. -/
  exposed : req.exposed.contains req.manifest.tool = true
  /-- Above `inert`, no argument that chooses what the tool acts on is untrusted. -/
  targets : .inert < req.manifest.consequence →
    ∀ name value, (name, value) ∈ req.args.entries →
      (req.manifest.roleOf name).getD .target = .target →
      ¬ req.taint.of name ≤ .untrustedContent

theorem untrustedTarget_none (h : untrustedTarget req = none) :
    ∀ name value, (name, value) ∈ req.args.entries →
      (req.manifest.roleOf name).getD .target = .target →
      ¬ req.taint.of name ≤ .untrustedContent := by
  intro name value hmem hrole hle
  have hnone := List.find?_eq_none.mp (Option.map_eq_none_iff.mp h) (name, value) hmem
  apply hnone
  simp only [Bool.and_eq_true, decide_eq_true_eq]
  exact ⟨hrole, decide_eq_true hle⟩

/-- Every decision is either a refusal or has passed the exposure and target checks. -/
theorem adjudicate_cases :
    ((adjudicate scope id req).run s).1.decision.outcome.isBlocked = true ∨
      Cleared req ∧
        (((adjudicate scope id req).run s).1.decision.outcome = .allowed ∨
          ∃ tier, ((adjudicate scope id req).run s).1.decision.outcome = .needsApproval tier) := by
  unfold adjudicate
  dsimp only
  split
  · exact .inl rfl
  · rename_i hexposed
    have hexp : req.exposed.contains req.manifest.tool = true := by simpa using hexposed
    split
    · exact .inl rfl
    · rename_i htarget
      have hcleared : Cleared req := by
        refine ⟨hexp, fun hc => ?_⟩
        rw [if_pos hc] at htarget
        exact untrustedTarget_none htarget
      rw [Stateful.run_bind]
      cases ((openPaths scope req req.manifest.params OrderedMap.empty).run s).1 with
      | error reason => exact .inl rfl
      | ok handles =>
        dsimp only
        split
        · exact .inl rfl
        · exact .inr ⟨hcleared, settleTier_outcome⟩

/-- The decision is about the request's own tool and carries the taint it was given. -/
theorem adjudicate_about :
    ((adjudicate scope id req).run s).1.decision.tool = req.manifest.tool ∧
      ((adjudicate scope id req).run s).1.decision.taint = req.taint := by
  unfold adjudicate
  dsimp only
  split
  · exact ⟨rfl, rfl⟩
  · split
    · exact ⟨rfl, rfl⟩
    · rw [Stateful.run_bind]
      cases ((openPaths scope req req.manifest.params OrderedMap.empty).run s).1 with
      | error reason => exact ⟨rfl, rfl⟩
      | ok handles =>
        dsimp only
        split
        · exact ⟨rfl, rfl⟩
        · unfold settleTier
          dsimp only
          split
          · exact ⟨rfl, rfl⟩
          · split
            · exact ⟨rfl, rfl⟩
            · split <;> exact ⟨rfl, rfl⟩

end Spec

end MarloweAgent.Permission
