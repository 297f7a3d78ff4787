import MarloweAgent.Library.Ranked
import MarloweAgent.Memory.Store
import Mathlib.Data.Prod.Lex
import Mathlib.Order.WithBot

/-! What is injected into a turn: the candidates in scope, scored, pruned by session,
reranked, and admitted by the operating point. -/

namespace MarloweAgent.Memory
open Contract EventLog Library

/-- What retrieval uses of `f32`. The order is `total_cmp`; `above` and `atLeast` are IEEE's
`>` and `>=`, which a NaN answers differently. -/
class Single (F : Type) extends LinearOrder F, Zero F, One F, Add F, Sub F, Div F, NatCast F where
  negInfinity : F
  above : F → F → Bool
  atLeast : F → F → Bool

def asU32 (n : Nat) : Nat := n % 2 ^ 32

/-- A third of the text's UTF-8 length, rounded up. -/
def estimateTokens (text : String) : Nat := asU32 ((text.utf8ByteSize + 2) / 3)

/-! ## The operating point -/

inductive Abstention
  | noCandidates
  | noRunnerUp
  | marginUndefined
  | belowThreshold
  | noReranker
  deriving DecidableEq, Repr

def Abstention.asStr : Abstention → String
  | noCandidates => "no candidates survived scoping and the §4.3 exclusions"
  | noRunnerUp => "only one candidate; no rank 2 to take a margin from"
  | marginUndefined => "rank 1 or rank 2 was not reranked; the margin is undefined"
  | belowThreshold => "the rank-1/rank-2 margin is below the declared cut point"
  | noReranker => "no cross-encoder is loaded, so no margin exists and auto-injection is off"

inductive Coverage
  | declared
  | full
  deriving DecidableEq, Repr

section Decide

variable {F : Type}

/-- `OperatingPoint`, without what only describes it. -/
structure OperatingPoint (F : Type) where
  marginThreshold : F

structure Admission (F : Type) where
  admitRankOne : Bool
  margin : Option F
  abstention : Option Abstention

/-- `decide`: the whole decision, from the four things that decide it. -/
def OperatingPoint.decide [Single F] (point : OperatingPoint F) (candidatesInOrder : Nat)
    (rerankerPresent : Bool) (rankOne rankTwo : Option F) (coverage : Coverage) : Admission F :=
  let no (why : Abstention) : Admission F := ⟨false, none, some why⟩
  if candidatesInOrder = 0 then no .noCandidates
  else if !rerankerPresent then no .noReranker
  else if candidatesInOrder < 2 then no .noRunnerUp
  else
    match rankOne, rankTwo with
    | some top, some runner =>
      let margin := top - runner
      let clears := match coverage with
        | .declared => Single.atLeast margin point.marginThreshold
        | .full => true
      if clears then ⟨true, some margin, none⟩
      else ⟨false, some margin, some .belowThreshold⟩
    | _, _ => no .marginUndefined

end Decide

/-! ## Candidates and their scores -/

inductive RetrievalScope
  | thisSession
  | profile
  deriving DecidableEq, Repr

def RetrievalScope.admits (scope : RetrievalScope) (sessionId : String) (e : MemoryEntry) : Bool :=
  match scope with
  | thisSession => e.sourceSessionId = sessionId
  | profile => true

/-- What the gate says of one candidate. -/
structure Verdict (F : Type) where
  score : F
  margin : F
  calibratedPrecision : F
  winningCue : String
  passes : Bool

/-- The scores that are read off a candidate set: the lexical cue's, the dense cue's for the
query's vector, and the gate's judgments of the features of both. -/
structure Cues (F : Type) where
  lexical : List MemoryEntry → String → List F
  dense : List MemoryEntry → List F
  judge : List MemoryEntry → List F → List F → List (Verdict F)

inductive Scoring (F : Type)
  | gated (point : OperatingPoint F) (coverage : Coverage)
  | fitDump

/-- One candidate after scoring. -/
structure ScoredCandidate (F : Type) where
  entry : MemoryEntry
  score : F
  margin : F
  calibratedPrecision : F
  winningCue : String
  passes : Bool
  sessionKey : Nat
  survivedPruning : Bool
  rerankScore : Option F
  fusionRank : Option Nat

/-- A candidate as the gate judged it, or unjudged for the dump. -/
def ScoredCandidate.of {F : Type} [Single F] (scoring : Scoring F) (entry : MemoryEntry)
    (v : Verdict F) : ScoredCandidate F :=
  match scoring with
  | .gated _ _ =>
    { entry, score := v.score, margin := v.margin, calibratedPrecision := v.calibratedPrecision
      winningCue := v.winningCue, passes := v.passes
      sessionKey := 0, survivedPruning := true, rerankScore := none, fusionRank := none }
  | .fitDump =>
    { entry, score := 0, margin := 0, calibratedPrecision := 0, winningCue := "none", passes := true
      sessionKey := 0, survivedPruning := true, rerankScore := none, fusionRank := none }

/-! ## Session pruning -/

def sessionGapMs : Int := 30 * 60 * 1000

def pruneTopN : Nat := 3

/-- The walk of `session_keys`: a new group after every gap, the difference as an `i64`. -/
def groupFrom (gapMs : Int) (previous : Option Int) (group : Nat) :
    List (MemoryEntry × Nat) → List Nat → List Nat
  | [], keys => keys
  | (e, i) :: rest, keys =>
    let group := match previous with
      | some prev => if gapMs < (e.occurredAtMs - prev).bmod (2 ^ 64) then group + 1 else group
      | none => group
    groupFrom gapMs (some e.occurredAtMs) group rest (keys.set i group)

/-- `session_keys`: the group of each candidate, in the candidates' own order. -/
def sessionKeys (candidates : List MemoryEntry) (gapMs : Int) : List Nat :=
  groupFrom gapMs none 0
    (ranked (fun p => toLex (p.1.occurredAtMs, p.1.id)) candidates.zipIdx)
    (List.replicate candidates.length 0)

section Scores

variable {F : Type} [Single F]

/-- The best score of each session. -/
def bestPerSession (keys : List Nat) (scores : List F) : OrderedMap Nat F :=
  (keys.zip scores).foldl (fun best p =>
    let slot := (best.get? p.1).getD Single.negInfinity
    best.insert p.1 (if Single.above p.2 slot then p.2 else slot)) OrderedMap.empty

/-- `surviving_sessions`: each cue's best `n`, or nothing when that would keep everything. -/
def survivingSessions (keys : List Nat) (cueScores : List (List F)) (n : Nat) : Option (List Nat) :=
  if keys.dedup.length ≤ n then none
  else some (cueScores.flatMap fun scores =>
    ((ranked (fun p => toLex (OrderDual.toDual p.2, p.1))
      (bestPerSession keys scores).bindings).take n).map Prod.fst)

/-- Scored, grouped and pruned; and whether pruning applied. -/
def pruned (scoring : Scoring F) (cues : Cues F) (queryText : String) (scoped_ : List MemoryEntry) :
    List (ScoredCandidate F) × Bool :=
  let rawScores := cues.lexical scoped_ queryText
  let denseScores := cues.dense scoped_
  let scored := (scoped_.zip (cues.judge scoped_ rawScores denseScores)).map fun p =>
    ScoredCandidate.of scoring p.1 p.2
  match scoring with
  | .fitDump => (scored, false)
  | .gated _ _ =>
    let keys := sessionKeys scoped_ sessionGapMs
    let scored := (scored.zip keys).map fun p => { p.1 with sessionKey := p.2 }
    match survivingSessions keys [rawScores, denseScores] pruneTopN with
    | none => (scored, false)
    | some keep =>
      ((scored.zip keys).map fun p => { p.1 with survivedPruning := decide (p.2 ∈ keep) }, true)

/-! ## Reranking -/

/-- `CrossEncoder::score_batch`: one logit for each document, or a failure. -/
structure CrossEncoder (F : Type) where
  scoreBatch : String → List String → Option (List F)
  one_each : ∀ {query documents logits}, scoreBatch query documents = some logits →
    logits.length = documents.length

/-- `CrossEncoder::score`. -/
def CrossEncoder.score (encoder : CrossEncoder F) (query document : String) : Option F :=
  (encoder.scoreBatch query [document]).bind List.head?

inductive Rerank (F : Type)
  | off
  | crossEncoder (encoder : CrossEncoder F) (budget : Nat) (batched : Bool)
  | cascade (encoder fuse : CrossEncoder F) (batched : Bool)

def maxBatch : Nat := 10

def cascadeSlate : Nat := 30

def cascadeNarrow : Nat := 10

def admitTopK : Nat := 3

def textAt (scored : List (ScoredCandidate F)) (i : Nat) : String :=
  (scored[i]?.map fun c => c.entry.text).getD ""

def rerankAt (scored : List (ScoredCandidate F)) (i : Nat) : Option F :=
  scored[i]?.bind ScoredCandidate.rerankScore

/-- `draw_slate`: the places of the best survivors. -/
def drawSlate (scored : List (ScoredCandidate F)) (budget : Nat) : List Nat :=
  ((ranked (fun p => toLex (OrderDual.toDual p.1.score,
      toLex (OrderDual.toDual p.1.margin, p.1.entry.id)))
    (scored.zipIdx.filter fun p => p.1.survivedPruning)).map Prod.snd).take budget

def writeLogits (scored : List (ScoredCandidate F)) (logits : List (Nat × F)) :
    List (ScoredCandidate F) :=
  logits.foldl (fun scored p => scored.modify p.1 fun c => { c with rerankScore := some p.2 }) scored

/-- `slice::chunks`. -/
def chunks {α : Type} (n : Nat) (l : List α) : List (List α) :=
  (List.range ((l.length + n - 1) / n)).map fun k => (l.drop (k * n)).take n

section Slate

variable (encoder : CrossEncoder F) (queryText : String) (writeBack : Bool)

def scorePair (state : List (ScoredCandidate F) × List (Option F)) (i : Nat) :
    List (ScoredCandidate F) × List (Option F) :=
  match encoder.score queryText (textAt state.1 i) with
  | some logit =>
    (if writeBack then writeLogits state.1 [(i, logit)] else state.1, state.2 ++ [some logit])
  | none => (state.1, state.2 ++ [none])

def scoreChunk (state : List (ScoredCandidate F) × List (Option F)) (chunk : List Nat) :
    List (ScoredCandidate F) × List (Option F) :=
  match encoder.scoreBatch queryText (chunk.map (textAt state.1)) with
  | some logits =>
    (if writeBack then writeLogits state.1 (chunk.zip logits) else state.1,
      state.2 ++ (chunk.zip logits).map fun p => some p.2)
  | none => (state.1, state.2 ++ chunk.map fun _ => none)

/-- `score_slate`: one pair at a time, or in chunks no longer than was measured. -/
def scoreSlate (batched : Bool) (scored : List (ScoredCandidate F)) (slate : List Nat) :
    List (ScoredCandidate F) × Option (List (Option F)) :=
  if slate.isEmpty then (scored, none)
  else
    let (scored, out) :=
      if batched then (chunks maxBatch slate).foldl (scoreChunk encoder queryText writeBack) (scored, [])
      else slate.foldl (scorePair encoder queryText writeBack) (scored, [])
    (scored, some out)

end Slate

/-- `RRF_K`. -/
def rrfK : F := ((60 : Nat) : F)

/-- `cascade_fusion_order`: the narrowed places with their ranks under both graphs' ranks. -/
def cascadeFusionOrder (narrow : List Nat) (secondary : List F) : List (Nat × Nat) :=
  let placed := List.range narrow.length
  let bySecondary := ranked (fun p => toLex (OrderDual.toDual (secondary.getD p 0), narrow.getD p 0)) placed
  let fusion (p : Nat) : F :=
    1 / (rrfK + (p : F)) + 1 / (rrfK + ((bySecondary.idxOf p : Nat) : F))
  (ranked (fun p => toLex (OrderDual.toDual (fusion p), narrow.getD p 0)) placed).zipIdx.map
    fun p => (narrow.getD p.1 0, p.2)

def writeRanks (scored : List (ScoredCandidate F)) (ranks : List (Nat × Nat)) :
    List (ScoredCandidate F) :=
  ranks.foldl (fun scored p => scored.modify p.1 fun c => { c with fusionRank := some p.2 }) scored

/-- The places the first stage of the cascade keeps for the second. -/
def narrowed (scored : List (ScoredCandidate F)) (slate : List Nat) : List Nat :=
  (ranked (fun i => toLex (OrderDual.toDual ((rerankAt scored i).getD Single.negInfinity), i))
    (slate.filter fun i => (rerankAt scored i).isSome)).take cascadeNarrow

def reranked (rerank : Rerank F) (queryText : String) (scored : List (ScoredCandidate F)) :
    List (ScoredCandidate F) :=
  match rerank with
  | .off => scored
  | .crossEncoder encoder budget batched =>
    (scoreSlate encoder queryText true batched scored (drawSlate scored budget)).1
  | .cascade encoder fuse batched =>
    let slate := drawSlate scored cascadeSlate
    let scored := (scoreSlate encoder queryText true batched scored slate).1
    let narrow := narrowed scored slate
    match (scoreSlate fuse queryText false batched scored narrow).2 with
    | none => scored
    | some secondary =>
      let secondary := (narrow.zip secondary).map fun p =>
        p.2.getD ((rerankAt scored p.1).getD Single.negInfinity)
      writeRanks scored (cascadeFusionOrder narrow secondary)

/-! ## The ranking and what is injected -/

/-- What orders the gated ranking: survivors first, then the cascade's rank, the logit, the
winning cue's score and margin, and the id. What was not reranked comes last at its level. -/
def gatedKey (c : ScoredCandidate F) :
    Boolᵒᵈ ×ₗ WithTop Nat ×ₗ WithTop Fᵒᵈ ×ₗ Fᵒᵈ ×ₗ Fᵒᵈ ×ₗ String :=
  toLex (OrderDual.toDual c.survivedPruning,
    toLex ((match c.fusionRank with | some rank => WithTop.some rank | none => ⊤),
      toLex ((match c.rerankScore with
          | some logit => ((OrderDual.toDual logit : Fᵒᵈ) : WithTop Fᵒᵈ)
          | none => ⊤),
        toLex (OrderDual.toDual c.score, toLex (OrderDual.toDual c.margin, c.entry.id)))))

def finalRanking (scoring : Scoring F) (scored : List (ScoredCandidate F)) :
    List (ScoredCandidate F) :=
  match scoring with
  | .gated _ _ => ranked gatedKey scored
  | .fitDump => ranked (fun c => toLex (OrderDual.toDual c.entry.createdAt, c.entry.id)) scored

structure InjectedMemory (F : Type) where
  memoryId : MemoryId
  content : String
  score : F
  calibratedPrecision : F
  fidelity : Fidelity
  effectiveTrust : TrustClass
  payloadKind : PayloadKind

def ScoredCandidate.inject (c : ScoredCandidate F) : InjectedMemory F :=
  { memoryId := c.entry.id, content := c.entry.text, score := c.score
    calibratedPrecision := c.calibratedPrecision, fidelity := c.entry.fidelity
    effectiveTrust := c.entry.effectiveTrust, payloadKind := c.entry.payloadKind }

def ScoredCandidate.cost (c : ScoredCandidate F) : Nat := estimateTokens c.entry.text

/-- The injection loop: what is injected, the tokens it took, and whether the limit stopped
it. The sum is a `u32`. -/
def fillBudget (maxTokens : UInt32) (tokens : Nat) :
    List (ScoredCandidate F) → List (ScoredCandidate F) × Nat × Bool
  | [] => ([], tokens, false)
  | c :: rest =>
    let spent := asU32 (tokens + c.cost)
    if maxTokens.toNat < spent then ([], tokens, true)
    else
      let (filled, tokens, exhausted) := fillBudget maxTokens spent rest
      (c :: filled, tokens, exhausted)

def Rerank.isOff : Rerank F → Bool
  | off => true
  | _ => false

/-- The cross-encoder whose logits the ranking carries. -/
def Rerank.encoder? : Rerank F → Option (CrossEncoder F)
  | off => none
  | crossEncoder encoder _ _ => some encoder
  | cascade encoder _ _ => some encoder

structure Selection (F : Type) where
  injected : List (InjectedMemory F)
  considered : Nat
  retrievalTokens : Nat
  scored : List (ScoredCandidate F)
  scoped_ : Nat
  aboveThreshold : Nat
  budgetExhausted : Bool
  survivedPruning : Nat
  pruningApplied : Bool
  reranked : Nat
  derivedSessions : Nat
  rerankMargin : Option F
  abstention : Option Abstention

/-- What the operating point says of a ranking. -/
def admission (scoring : Scoring F) (rerank : Rerank F) (order : List (ScoredCandidate F)) :
    Option (Admission F) :=
  match scoring with
  | .gated point coverage =>
    some (point.decide order.length (!rerank.isOff) (order[0]?.bind ScoredCandidate.rerankScore)
      (order[1]?.bind ScoredCandidate.rerankScore) coverage)
  | .fitDump => none

def admitted (verdict : Option (Admission F)) (order : List (ScoredCandidate F)) :
    List (ScoredCandidate F) :=
  match verdict with
  | some verdict => if verdict.admitRankOne then order.take admitTopK else []
  | none => order

/-- `select_for_injection`. -/
def selectForInjection (beliefs : BeliefStore) (sessionId queryText : String) (nowMs : Int)
    (maxTokens : UInt32) (scoring : Scoring F) (cues : Cues F) (rerank : Rerank F)
    (scope : RetrievalScope) : Selection F :=
  let candidates := beliefs.injectionCandidates nowMs
  let scoped_ := candidates.filter (scope.admits sessionId)
  let (scored, pruningApplied) := pruned scoring cues queryText scoped_
  let scored := reranked rerank queryText scored
  let order := finalRanking scoring scored
  let verdict := admission scoring rerank order
  let (filled, tokens, budgetExhausted) := fillBudget maxTokens 0 (admitted verdict order)
  { injected := filled.map ScoredCandidate.inject
    considered := asU32 candidates.length
    retrievalTokens := tokens
    scored := ranked (fun c => c.entry.id) scored
    scoped_ := asU32 scored.length
    aboveThreshold := asU32 (scored.countP ScoredCandidate.passes)
    budgetExhausted
    survivedPruning := asU32 (scored.countP ScoredCandidate.survivedPruning)
    pruningApplied
    reranked := asU32 (scored.countP fun c => c.rerankScore.isSome)
    derivedSessions := asU32 (scored.map ScoredCandidate.sessionKey).dedup.length
    rerankMargin := verdict.bind Admission.margin
    abstention := verdict.bind Admission.abstention }

end Scores

end MarloweAgent.Memory
