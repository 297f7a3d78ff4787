import MarloweAgent.Memory.Writers
import Mathlib.Algebra.Order.Ring.Unbundled.Rat

/-! Offline consolidation: a cluster of near-duplicates elects one of its existing
members and supersedes the rest. `plan` is pure; `apply` journals it. Similarities
are the rationals that the single-precision values are. -/

namespace MarloweAgent.Memory
open Contract EventLog Library

/-- The embedded vectors, and the similarity of two of them. -/
structure VectorStore where
  vectors : OrderedMap MemoryId (List Rat)
  cosine : List Rat → List Rat → Rat

def VectorStore.get (store : VectorStore) (id : MemoryId) : Option (List Rat) :=
  store.vectors.get? id

/-- 0.70 in single precision. -/
def dumpFloor : Rat := 11744051 / 16777216

inductive Policy
  | dryRun
  | frozen (threshold : Rat)
  deriving DecidableEq

namespace Policy

def label : Policy → String
  | dryRun => "dry-run-applied-nothing"
  | frozen _ => "frozen-applied"

def threshold : Policy → Rat
  | dryRun => dumpFloor
  | frozen t => t

end Policy

/-- The artifact the shipping threshold is read from, decoded. -/
structure ConsolidationArtifact where
  state : String
  threshold : Option Rat
  derivedFrom : Option String
  splitDigest : Option String
  deriving DecidableEq

inductive PolicyError
  | unregistered (found : String)
  | missingField (field : String)
  | belowDumpFloor (found : Rat)
  | notASimilarity (found : Rat)
  deriving DecidableEq

/-- `from_json` past the decoding: a registered artifact, its threshold a similarity the sweep
measured. -/
def Policy.fromArtifact (artifact : ConsolidationArtifact) : Except PolicyError Policy :=
  if artifact.state ≠ "registered" then .error (.unregistered artifact.state)
  else
    match artifact.threshold with
    | none => .error (.missingField "threshold")
    | some threshold =>
      if artifact.derivedFrom.isNone then .error (.missingField "derived_from")
      else if artifact.splitDigest.isNone then .error (.missingField "split_digest")
      else if ¬ (0 ≤ threshold ∧ threshold ≤ 1) then .error (.notASimilarity threshold)
      else if threshold < dumpFloor then .error (.belowDumpFloor threshold)
      else .ok (.frozen threshold)

inductive Linkage
  | single
  | complete
  deriving DecidableEq, Repr

def Linkage.asStr : Linkage → String
  | single => "single"
  | complete => "complete"

def appliedLinkage : Linkage := .complete

structure Cluster where
  representative : MemoryId
  merged : List MemoryId
  maxCosine : Rat
  minCosine : Rat
  deriving DecidableEq

structure ConsolidationReport where
  sessionId : String
  policy : String
  linkage : String
  threshold : Option Rat
  scanned : Nat
  withoutVector : Nat
  clusters : List Cluster
  suppressed : Nat
  deriving DecidableEq

/-! ## Similarities -/

/-- One session's pairwise similarities at or above the floor, in scan order. -/
structure Similarities where
  ids : List MemoryId
  origin : List Seq
  edges : List (Nat × Nat × Rat)
  scanned : Nat
  withoutVector : Nat

/-- Live beliefs of one session: neither superseded nor tombstoned, matured or not. -/
def scopedEntries (beliefs : BeliefStore) (sessionId : String) : List MemoryEntry :=
  beliefs.recallCandidates.filter fun e =>
    e.sourceSessionId == sessionId && e.supersededBy.isNone && Fidelity.tombstone < e.fidelity

/-- The edges out of position `i`, towards the later positions. -/
def edgesFrom (vectors : VectorStore) (vecs : List (Option (List Rat))) (i : Nat) :
    List (Nat × Nat × Rat) :=
  match vecs.getD i none with
  | none => []
  | some vi =>
    (List.range' (i + 1) (vecs.length - (i + 1))).filterMap fun j =>
      match vecs.getD j none with
      | none => none
      | some vj =>
        let similarity := vectors.cosine vi vj
        if dumpFloor ≤ similarity then some (i, j, similarity) else none

def similarities (beliefs : BeliefStore) (sessionId : String) (vectors : VectorStore) :
    Similarities :=
  let entries := scopedEntries beliefs sessionId
  let ids := entries.map (·.id)
  let vecs := ids.map vectors.get
  { ids
    origin := entries.map (·.originEvent)
    edges := (List.range entries.length).flatMap (edgesFrom vectors vecs)
    scanned := entries.length
    withoutVector := (vecs.filter (·.isNone)).length }

/-! ## Clustering -/

namespace Similarities

variable (s : Similarities)

/-- The recorded similarity of a pair; a pair below the floor reads as zero. -/
def similarityOf (a b : Nat) : Rat :=
  match (s.edges.filter fun e => e.1 == min a b && e.2.1 == max a b).getLast? with
  | none => 0
  | some e => e.2.2

/-- Follow parents to the root, halving the path on the way. Parents never point
upwards, so `parent.length` steps reach it. -/
def find : Nat → List Nat → Nat → Nat × List Nat
  | 0, parent, x => (x, parent)
  | fuel + 1, parent, x =>
    let p := parent.getD x x
    if p = x then (x, parent)
    else
      let parent := parent.set x (parent.getD p p)
      find fuel parent (parent.getD x x)

def uniteSingle (threshold : Rat) (parent : List Nat) : Nat × Nat × Rat → List Nat
  | (i, j, similarity) =>
    if similarity < threshold then parent
    else
      let (a, parent) := find parent.length parent i
      let (b, parent) := find parent.length parent j
      if a = b then parent else parent.set (max a b) (min a b)

/-- Descending similarity, then `(i, j)`. -/
def proposedBefore (x y : Nat × Nat × Rat) : Bool :=
  y.2.2 < x.2.2 || (x.2.2 == y.2.2 && (x.1 < y.1 || (x.1 == y.1 && x.2.1 ≤ y.2.1)))

/-- One proposed merge under complete linkage: every cross pair must clear the
threshold, not just the pair that proposed it. -/
def uniteComplete (threshold : Rat) (state : List Nat × OrderedMap Nat (List Nat)) :
    Nat × Nat × Rat → List Nat × OrderedMap Nat (List Nat)
  | (i, j, _) =>
    let (parent, group) := state
    let (a, parent) := find parent.length parent i
    let (b, parent) := find parent.length parent j
    if a = b then (parent, group)
    else
      let left := (group.get? a).getD []
      let right := (group.get? b).getD []
      let joins := left.all fun x => right.all fun y => threshold ≤ s.similarityOf x y
      if !joins then (parent, group)
      else
        let keep := min a b
        let drop := max a b
        let moved := (group.get? drop).getD []
        let group := group.erase drop
        let target := (group.get? keep).getD []
        (parent.set drop keep, group.insert keep ((target ++ moved).mergeSort (· ≤ ·)))

/-- The parents after all unions. -/
def unions (threshold : Rat) : Linkage → List Nat
  | .single => s.edges.foldl (uniteSingle threshold) (List.range s.ids.length)
  | .complete =>
    let candidates := (s.edges.filter fun e => threshold ≤ e.2.2).mergeSort proposedBefore
    let singletons := (List.range s.ids.length).foldl (fun group i => group.insert i [i])
      OrderedMap.empty
    (candidates.foldl (s.uniteComplete threshold) (List.range s.ids.length, singletons)).1

/-- The root of each position, resolved once, after all unions. -/
def roots : List Nat → List Nat → List (Nat × Nat)
  | _, [] => []
  | parent, i :: rest =>
    let (root, parent) := find parent.length parent i
    (i, root) :: roots parent rest

def members (parent : List Nat) (n : Nat) : OrderedMap Nat (List Nat) :=
  (roots parent (List.range n)).foldl
    (fun groups p => groups.insert p.2 ((groups.get? p.2).getD [] ++ [p.1])) OrderedMap.empty

def idAt (x : Nat) : MemoryId := s.ids.getD x ""

def originAt (x : Nat) : Seq := s.origin.getD x 0

/-- The later append wins, and the smaller id on a tie. -/
def outranks (a b : Nat) : Bool :=
  s.originAt b < s.originAt a || (s.originAt a == s.originAt b && s.idAt a < s.idAt b)

def elect (first : Nat) (rest : List Nat) : Nat :=
  rest.foldl (fun best y => if s.outranks best y then best else y) first

/-- The similarities of all pairs of a finished cluster. -/
def pairSimilarities : List Nat → List Rat
  | [] => []
  | x :: rest => rest.map (s.similarityOf x) ++ pairSimilarities rest

/-- The cluster a group of at least two makes. -/
def clusterOf : List Nat → Option Cluster
  | first :: second :: rest =>
    let group := first :: second :: rest
    let winner := s.elect first (second :: rest)
    let merged := (group.filter (· ≠ winner)).mergeSort fun a b => s.idAt a ≤ s.idAt b
    some
      { representative := s.idAt winner
        merged := merged.map s.idAt
        maxCosine := (s.pairSimilarities group).foldl max 0
        minCosine := (s.pairSimilarities group).foldl min 1 }
  | _ => none

def cluster (threshold : Rat) (linkage : Linkage) : List Cluster :=
  let groups := (members (s.unions threshold linkage) s.ids.length).values
  (groups.filterMap s.clusterOf).mergeSort fun a b => a.representative ≤ b.representative

end Similarities

/-! ## Plan and apply -/

def plan (beliefs : BeliefStore) (sessionId : String) (vectors : VectorStore)
    (policy : Policy) : ConsolidationReport :=
  let similarity := similarities beliefs sessionId vectors
  let clusters := similarity.cluster policy.threshold appliedLinkage
  { sessionId
    policy := policy.label
    linkage := appliedLinkage.asStr
    threshold := match policy with
      | .dryRun => none
      | .frozen threshold => some threshold
    scanned := similarity.scanned
    withoutVector := similarity.withoutVector
    clusters
    suppressed := (clusters.map (·.merged.length)).sum }

/-- The supersession of one loser: journalled, then folded into the live view. -/
def supersedeLoser (clock : Clock) (sessionId : String) (representative loser : MemoryId) :
    MemoryM Unit := do
  let _ ← append clock
    { traceId := ⟨sessionId⟩, sessionId := some sessionId, runId := none
      actor := .consolidation ("consolidate-" ++ sessionId), kind := .superseded
      payload := .superseded { id := loser, by_ := representative } }
  updateBeliefs (·.supersede loser representative)

def applyCluster (clock : Clock) (sessionId : String) (cluster : Cluster) : MemoryM Unit := do
  let m ← Fallible.read
  let seqs := (cluster.representative :: cluster.merged).filterMap fun id =>
    (m.beliefs.get id).map (·.originEvent)
  let _ ← append clock
    { traceId := ⟨sessionId⟩, sessionId := some sessionId, runId := none
      actor := .consolidation ("consolidate-" ++ sessionId), kind := .beliefsMerged
      payload := .beliefsMerged
        { representative := cluster.representative, merged := cluster.merged
          seqFirst := seqs.min?.getD 0, seqLast := seqs.max?.getD 0
          minCosine := cluster.minCosine, maxCosine := cluster.maxCosine } }
  Fallible.each (supersedeLoser clock sessionId cluster.representative) cluster.merged

/-- Journal a planned consolidation and fold it into the store. A dry-run report panics. -/
def apply (report : ConsolidationReport) (clock : Clock) : MemoryM Unit :=
  match report.threshold with
  | none => Fallible.fail .panicked
  | some threshold => do
    Fallible.each (applyCluster clock report.sessionId) report.clusters
    let _ ← append clock
      { traceId := ⟨report.sessionId⟩, sessionId := some report.sessionId, runId := none
        actor := .consolidation ("consolidate-" ++ report.sessionId), kind := .consolidationRan
        payload := .consolidationRan
          { sessionId := report.sessionId, threshold, scanned := report.scanned
            clusters := report.clusters.length, suppressed := report.suppressed } }
    pure ()

/-- Plan, then apply unless the policy is a dry run. -/
def consolidate (sessionId : String) (clock : Clock) (vectors : VectorStore) (policy : Policy) :
    MemoryM ConsolidationReport := do
  let m ← Fallible.read
  let report := plan m.beliefs sessionId vectors policy
  if policy ≠ .dryRun then apply report clock
  pure report

end MarloweAgent.Memory
