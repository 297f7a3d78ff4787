import MarloweAgent.Library.Ranked
import MarloweAgent.Memory.Features
import Mathlib.Algebra.Field.Rat
import Mathlib.Algebra.Order.Ring.Rat

/-! The gate: what is loaded of a fitted calibration, and how it judges a candidate. A curve reads a margin,
and of the candidates of a query one at most has a margin above nothing. -/

namespace MarloweAgent.Memory
open Contract Library

/-! ## Curves -/

inductive GateError (K : Type)
  | unfitted (found : String)
  | missingField (field : String)
  | versionDisagrees (found : String)
  | fusionDisagrees (found : String)
  | featureNamesDisagree (found expected : List String)
  | cueFeaturesDisagree (found expected : List String)
  | rankFeaturesDisagree (found expected : List String)
  | cueCurveMissing (feature : String)
  | cueCurveExtra (feature : String)
  | nonCueFeatureNotInert (feature : String)
  | inertFeatureIsACue (feature : String)
  | inertFeatureIsARankFeature (feature : String)
  | inertFeatureUnknown (feature : String)
  | curveNotMonotone (cue : String) (index : Nat) (previous current : K)
  | curveNotSorted (cue : String) (index : Nat) (previous current : K)
  | curveDuplicateBreakpoint (cue : String) (index : Nat) (value : K)
  | curvePrecisionOutOfRange (cue : String) (index : Nat) (value : K)
  | curveEmpty (cue : String)
  | thresholdDisagrees (found : K)
  | failedFloorWouldInject (verdict : String) (reachable : K)
  | floorVerdictUnrecognised (found : String)

section
variable {K : Type} [Field K] [LinearOrder K]

/-- Breakpoints with their precisions: the scores go up, and the precisions do not go down. -/
structure ValidCurve (curve : List (K × K)) : Prop where
  ne_nil : curve ≠ []
  sorted : curve.Pairwise fun a b => a.1 < b.1
  monotone : curve.Pairwise fun a b => a.2 ≤ b.2
  range : ∀ bp ∈ curve, 0 ≤ bp.2 ∧ bp.2 ≤ 1

/-- The first breakpoint with a precision that is none. -/
def rangeFault (cue : String) (curve : List (K × K)) : Option (GateError K) :=
  curve.zipIdx.findSome? fun (bp, index) =>
    if 0 ≤ bp.2 ∧ bp.2 ≤ 1 then none else some (.curvePrecisionOutOfRange cue index bp.2)

/-- The first breakpoint that does not follow on the one before it. -/
def orderFault (cue : String) : Nat → List (K × K) → Option (GateError K)
  | index, a :: b :: rest =>
    if b.1 < a.1 then some (.curveNotSorted cue index a.1 b.1)
    else if b.1 = a.1 then some (.curveDuplicateBreakpoint cue index b.1)
    else if b.2 < a.2 then some (.curveNotMonotone cue index a.2 b.2)
    else orderFault cue (index + 1) (b :: rest)
  | _, _ => none

def curveFault (cue : String) (curve : List (K × K)) : Option (GateError K) :=
  if curve.isEmpty then some (.curveEmpty cue)
  else (rangeFault cue curve).or (orderFault cue 1 curve)

omit [Field K] in
theorem isChain_of_orderFault {cue : String} {index : Nat} {curve : List (K × K)}
    (h : orderFault cue index curve = none) : curve.IsChain fun a b => a.1 < b.1 ∧ a.2 ≤ b.2 := by
  induction curve generalizing index with
  | nil => exact .nil
  | cons a rest ih =>
    cases rest with
    | nil => exact .singleton a
    | cons b rest =>
      rw [orderFault] at h
      split at h
      · cases h
      split at h
      · cases h
      split at h
      · cases h
      rename_i hsorted hdistinct hmonotone
      exact .cons_cons ⟨lt_of_le_of_ne (not_lt.mp hsorted) (Ne.symm hdistinct), not_lt.mp hmonotone⟩ (ih h)

theorem validCurve_of_curveFault {cue : String} {curve : List (K × K)} (h : curveFault cue curve = none) :
    ValidCurve curve := by
  unfold curveFault at h
  split at h
  · cases h
  rename_i hne
  obtain ⟨hrange, horder⟩ := Option.or_eq_none_iff.mp h
  have hpairs : curve.Pairwise fun a b => a.1 < b.1 ∧ a.2 ≤ b.2 := by
    have : IsTrans (K × K) fun a b => a.1 < b.1 ∧ a.2 ≤ b.2 :=
      ⟨fun _ _ _ hab hbc => ⟨hab.1.trans hbc.1, hab.2.trans hbc.2⟩⟩
    exact List.isChain_iff_pairwise.mp (isChain_of_orderFault horder)
  refine ⟨by simpa using hne, hpairs.imp fun h => h.1, hpairs.imp fun h => h.2, fun bp hbp => ?_⟩
  obtain ⟨index, hindex⟩ := List.getElem?_of_mem hbp
  by_contra hout
  have hnone := List.findSome?_eq_none_iff.mp hrange (bp, index) (List.mem_zipIdx_iff_getElem?.mpr hindex)
  dsimp only at hnone
  rw [if_neg hout] at hnone
  cases hnone

/-- `validate_curve`. -/
def validateCurve (cue : String) (curve : List (K × K)) : Except (GateError K) (PLift (ValidCurve curve)) :=
  match h : curveFault cue curve with
  | some fault => .error fault
  | none => .ok ⟨validCurve_of_curveFault h⟩

/-- The lookup of a margin: the precision of the first block that reaches it, or of the last. -/
def calibrateCue (curve : List (K × K)) (value : K) : K :=
  let index := partitionPoint (fun bp => decide (bp.1 < value)) curve
  ((curve[min index (curve.length - 1)]?).map Prod.snd).getD 0

end

/-! ## Calibration -/

section
variable {K : Type} [Field K] [LinearOrder K] {curve : List (K × K)}

theorem ValidCurve.partitioned (h : ValidCurve curve) (value : K) :
    Partitioned (fun bp => decide (bp.1 < value)) curve :=
  h.sorted.imp fun hlt hb => decide_eq_true (hlt.trans (of_decide_eq_true hb))

theorem getElem?_calibrateCue (h : ValidCurve curve) (value : K) :
    ∃ bp, curve[min (partitionPoint (fun bp => decide (bp.1 < value)) curve) (curve.length - 1)]? = some bp ∧
      calibrateCue curve value = bp.2 := by
  have hpos := List.length_pos_iff.mpr h.ne_nil
  have hlt : min (partitionPoint (fun bp => decide (bp.1 < value)) curve) (curve.length - 1) < curve.length := by
    omega
  refine ⟨_, List.getElem?_eq_getElem hlt, ?_⟩
  unfold calibrateCue
  dsimp only
  rw [List.getElem?_eq_getElem hlt]
  rfl

/-- The block of the smallest breakpoint at or above the value, and the last block beyond the end. -/
structure Block (curve : List (K × K)) (value precision : K) : Prop where
  reached : ∀ bp ∈ curve, value ≤ bp.1 → (∀ other ∈ curve, value ≤ other.1 → bp.1 ≤ other.1) → precision = bp.2
  beyond : (∀ bp ∈ curve, bp.1 < value) → curve.getLast?.map Prod.snd = some precision

theorem block_calibrateCue (h : ValidCurve curve) (value : K) : Block curve value (calibrateCue curve value) := by
  have hbetween := between_partitionPoint (h.partitioned value)
  obtain ⟨found, hfound, hprecision⟩ := getElem?_calibrateCue h value
  generalize partitionPoint (fun bp => decide (bp.1 < value)) curve = point at hbetween hfound
  constructor
  · intro bp hbp hle hleast
    obtain ⟨j, hj⟩ := List.getElem?_of_mem hbp
    have hpoint : point ≤ j := by
      by_contra hlt
      exact absurd (of_decide_eq_true (hbetween.below j bp (Nat.not_le.mp hlt) hj)) (not_lt.mpr hle)
    obtain ⟨hjlt, rfl⟩ := List.getElem?_eq_some_iff.mp hj
    rw [Nat.min_eq_left (by omega)] at hfound
    have hreaches : value ≤ found.1 := not_lt.mp (of_decide_eq_false (hbetween.beyond point found le_rfl hfound))
    obtain ⟨hplt, rfl⟩ := List.getElem?_eq_some_iff.mp hfound
    rcases Nat.lt_or_eq_of_le hpoint with hlt | rfl
    · have hbefore := List.pairwise_iff_getElem.mp h.sorted point j hplt hjlt hlt
      exact absurd (hleast _ (List.getElem_mem hplt) hreaches) (not_le.mpr hbefore)
    · exact hprecision
  · intro hall
    have hpoint : point = curve.length := by
      refine Nat.le_antisymm hbetween.inside (Nat.not_lt.mp fun hlt => ?_)
      have hnot := of_decide_eq_false (hbetween.beyond point _ le_rfl (List.getElem?_eq_getElem hlt))
      exact hnot (hall _ (List.getElem_mem hlt))
    rw [hpoint, Nat.min_eq_right (Nat.sub_le _ _)] at hfound
    rw [List.getLast?_eq_getElem?, hfound, hprecision]
    rfl

theorem monotone_calibrateCue (h : ValidCurve curve) : Monotone (calibrateCue curve) := by
  intro value higher hle
  have hlow := between_partitionPoint (h.partitioned value)
  have hhigh := between_partitionPoint (h.partitioned higher)
  obtain ⟨a, ha, hcala⟩ := getElem?_calibrateCue h value
  obtain ⟨b, hb, hcalb⟩ := getElem?_calibrateCue h higher
  generalize partitionPoint (fun bp => decide (bp.1 < value)) curve = point at hlow ha
  generalize partitionPoint (fun bp => decide (bp.1 < higher)) curve = beyond at hhigh hb
  have hpoints : point ≤ beyond := by
    by_contra hlt
    have hlt := Nat.not_le.mp hlt
    have hat := List.getElem?_eq_getElem (hlt.trans_le hlow.inside)
    exact of_decide_eq_false (hhigh.beyond beyond _ le_rfl hat)
      ((of_decide_eq_true (hlow.below beyond _ hlt hat)).trans_le hle)
  rw [hcala, hcalb]
  obtain ⟨hi, rfl⟩ := List.getElem?_eq_some_iff.mp ha
  obtain ⟨hj, rfl⟩ := List.getElem?_eq_some_iff.mp hb
  rcases Nat.lt_or_eq_of_le (min_le_min_right (curve.length - 1) hpoints) with hlt | heq
  · exact List.pairwise_iff_getElem.mp h.monotone _ _ hi hj hlt
  · simp only [heq, le_refl]

end

/-! ## Loading -/

def gateVersion : String := "frozen-v5"

def fusion : String := "per-query-margin-calibration-continuous-z-ranking"

/-- The artifact, without what is only recorded in it. -/
structure GateArtifact (K : Type) where
  state : String
  version : Option String
  fusion : Option String
  threshold : Option K
  featureNames : Option (List String)
  cueFeatures : Option (List String)
  rankFeatures : Option (List String)
  cueCurves : Option (OrderedMap String (List (K × K)))
  inertFeatures : Option (OrderedMap String String)
  floorVerdict : Option String
  floorRequired : Option K
  floorMeasured : Option K
  floorReadFrom : Option String
  corpus : Option String
  corpusVariant : Option String
  corpusSha256 : Option String
  splitRule : Option String
  splitDigest : Option String
  fitCases : Option Nat
  heldoutCases : Option Nat

structure Provenance (K : Type) where
  corpus : String
  corpusVariant : String
  corpusSha256 : String
  splitRule : String
  splitDigest : String
  fitCases : Nat
  heldoutCases : Nat
  inertFeatures : OrderedMap String String
  floorVerdict : String
  floorRequired : Option K
  floorMeasured : Option K
  floorReadFrom : Option String

section
variable {K : Type} [Field K] [LinearOrder K]

/-- `THRESHOLD`. -/
def frozenThreshold : K := 95 / 100

/-- `f32::EPSILON`. -/
def epsilon : K := 1 / (2 ^ 23 : Nat)

/-- One cue's calibration, with the positions of the features it reads. -/
structure CueCurve (K : Type) [Field K] [LinearOrder K] where
  cue : String
  name : String
  marginIndex : Fin featureCount
  zIndex : Fin featureCount
  curve : List (K × K)
  valid : ValidCurve curve

/-- The features a cue reads. -/
def CueSpec.places (spec : CueSpec) : String × Fin featureCount × Fin featureCount :=
  (spec.cue, (featureIndex spec.margin).get spec.margin_known, (featureIndex spec.z).get spec.z_known)

def CueCurve.places (cue : CueCurve K) : String × Fin featureCount × Fin featureCount :=
  (cue.cue, cue.marginIndex, cue.zIndex)

/-- A gate that has been checked: it reads the cues of this build, each by a curve that is one. -/
structure FrozenGate (K : Type) [Field K] [LinearOrder K] where
  cues : List (CueCurve K)
  threshold : K
  provenance : Provenance K
  specs : cues.map CueCurve.places = cueSpecs.map CueSpec.places
  near : |threshold - frozenThreshold| ≤ epsilon

def required {α : Type} (value : Option α) (field : String) : Except (GateError K) α :=
  match value with
  | some value => .ok value
  | none => .error (.missingField field)

/-- The curves of these cues, and those that are left. -/
def readCues : (specs : List CueSpec) → OrderedMap String (List (K × K)) → Except (GateError K)
    ({cues : List (CueCurve K) // cues.map CueCurve.places = specs.map CueSpec.places} ×
      OrderedMap String (List (K × K)))
  | [], curves => .ok (⟨[], rfl⟩, curves)
  | spec :: specs, curves =>
    match curves.get? spec.margin with
    | none => .error (.cueCurveMissing spec.margin)
    | some curve => do
      let ⟨valid⟩ ← validateCurve spec.margin curve
      let (⟨cues, hcues⟩, rest) ← readCues specs (curves.erase spec.margin)
      let cue : CueCurve K :=
        { cue := spec.cue, name := spec.margin
          marginIndex := (featureIndex spec.margin).get spec.margin_known
          zIndex := (featureIndex spec.z).get spec.z_known, curve, valid }
      return (⟨cue :: cues, congrArg (spec.places :: ·) hcues⟩, rest)

def checkThreshold (threshold : K) : Except (GateError K) {t : K // |t - frozenThreshold| ≤ epsilon} :=
  if h : |threshold - frozenThreshold| ≤ epsilon then .ok ⟨threshold, h⟩
  else .error (.thresholdDisagrees threshold)

/-- What is wrong with calling this feature inert. -/
def inertFault (feature : String) : Option (GateError K) :=
  if (featureIndex feature).isNone then some (.inertFeatureUnknown feature)
  else if feature ∈ cueFeatures then some (.inertFeatureIsACue feature)
  else if feature ∈ rankFeatures then some (.inertFeatureIsARankFeature feature)
  else none

/-- `max_calibrated_precision`. -/
def maxCalibratedPrecision (cues : List (CueCurve K)) : K :=
  (cues.filterMap fun cue => cue.curve.getLast?.map Prod.snd).foldl max 0

/-- `from_artifact`. -/
def fromArtifact (artifact : GateArtifact K) : Except (GateError K) (FrozenGate K) := do
  if artifact.state ≠ "fitted" then throw (.unfitted artifact.state)
  let version ← required artifact.version "version"
  if version ≠ gateVersion then throw (.versionDisagrees version)
  let found ← required artifact.fusion "fusion"
  if found ≠ fusion then throw (.fusionDisagrees found)
  let threshold ← required artifact.threshold "threshold"
  let ⟨threshold, near⟩ ← checkThreshold threshold
  let names ← required artifact.featureNames "feature_names"
  if names ≠ featureNames then throw (.featureNamesDisagree names featureNames)
  let cueNames ← required artifact.cueFeatures "cue_features"
  if cueNames ≠ cueFeatures then throw (.cueFeaturesDisagree cueNames cueFeatures)
  let rankNames ← required artifact.rankFeatures "rank_features"
  if rankNames ≠ rankFeatures then throw (.rankFeaturesDisagree rankNames rankFeatures)
  let curves ← required artifact.cueCurves "cue_curves"
  let (⟨cues, specs⟩, extra) ← readCues cueSpecs curves
  if let some feature := extra.keys.head? then throw (.cueCurveExtra feature)
  let inert ← required artifact.inertFeatures "inert_features"
  if let some fault := inert.keys.findSome? inertFault then throw fault
  if let some name := featureNames.find? fun name =>
      !decide (name ∈ cueFeatures ∨ name ∈ rankFeatures ∨ name ∈ inert.keys) then
    throw (.nonCueFeatureNotInert name)
  let verdict ← required artifact.floorVerdict "floor_verdict"
  if verdict ∉ ["pass", "fail", "unmeasured"] then throw (.floorVerdictUnrecognised verdict)
  let reachable := maxCalibratedPrecision cues
  if verdict = "fail" ∧ threshold ≤ reachable then throw (.failedFloorWouldInject verdict reachable)
  let provenance : Provenance K :=
    { corpus := ← required artifact.corpus "corpus"
      corpusVariant := ← required artifact.corpusVariant "corpus_variant"
      corpusSha256 := ← required artifact.corpusSha256 "corpus_sha256"
      splitRule := ← required artifact.splitRule "split_rule"
      splitDigest := ← required artifact.splitDigest "split_digest"
      fitCases := ← required artifact.fitCases "fit_cases"
      heldoutCases := ← required artifact.heldoutCases "heldout_cases"
      inertFeatures := inert, floorVerdict := verdict, floorRequired := artifact.floorRequired
      floorMeasured := artifact.floorMeasured, floorReadFrom := artifact.floorReadFrom }
  return { cues, threshold, provenance, specs, near }

end

/-! ## Judging -/

section
variable {K : Type} [Field K] [LinearOrder K]

/-- What a cue says of a candidate: the precision its curve predicts, its z and its margin. -/
structure Opinion (K : Type) where
  precision : K
  z : K
  margin : K
  cue : String

def CueCurve.opinion (cue : CueCurve K) (f : FeatureVector K) : Opinion K :=
  { precision := calibrateCue cue.curve (f.get cue.marginIndex), z := f.get cue.zIndex
    margin := f.get cue.marginIndex, cue := cue.cue }

/-- The higher precision is taken, then the higher z, then the earlier cue. -/
def preferred (best : Option (Opinion K)) (opinion : Opinion K) : Option (Opinion K) :=
  match best with
  | none => some opinion
  | some held =>
    if held.precision < opinion.precision ∨ (opinion.precision = held.precision ∧ held.z < opinion.z) then some opinion
    else best

def bestOpinion (cues : List (CueCurve K)) (f : FeatureVector K) : Option (Opinion K) :=
  cues.foldl (fun best cue => preferred best (cue.opinion f)) none

/-- The opinion that is taken is that of a cue, and no cue predicts more. -/
theorem exists_bestOpinion {cues : List (CueCurve K)} (hcues : cues ≠ []) (f : FeatureVector K) :
    ∃ cue ∈ cues, bestOpinion cues f = some (cue.opinion f) ∧
      ∀ other ∈ cues, (other.opinion f).precision ≤ (cue.opinion f).precision := by
  induction cues using List.reverseRecOn with
  | nil => exact absurd rfl hcues
  | append_singleton cues last ih =>
    have hfold : bestOpinion (cues ++ [last]) f = preferred (bestOpinion cues f) (last.opinion f) :=
      List.foldl_concat ..
    rw [hfold]
    by_cases hempty : cues = []
    · subst hempty
      exact ⟨last, List.mem_singleton_self _, rfl, by simp⟩
    obtain ⟨cue, hcue, hbest, hmost⟩ := ih hempty
    rw [hbest, preferred]
    split
    · rename_i htakes
      have hle : (cue.opinion f).precision ≤ (last.opinion f).precision := by
        rcases htakes with hlt | ⟨heq, -⟩
        · exact hlt.le
        · exact heq.ge
      refine ⟨last, by simp, rfl, fun other hother => ?_⟩
      rcases List.mem_append.mp hother with hother | hother
      · exact (hmost other hother).trans hle
      · rw [List.mem_singleton.mp hother]
    · rename_i hkeeps
      refine ⟨cue, List.mem_append_left _ hcue, rfl, fun other hother => ?_⟩
      rcases List.mem_append.mp hother with hother | hother
      · exact hmost other hother
      · rw [List.mem_singleton.mp hother]
        exact not_lt.mp fun hlt => hkeeps (.inl hlt)

namespace FrozenGate
variable (gate : FrozenGate K)

theorem cues_ne_nil : gate.cues ≠ [] := fun hnone => by
  have hspecs := gate.specs
  rw [hnone, List.map_nil] at hspecs
  exact absurd (List.map_eq_nil_iff.mp hspecs.symm) (List.cons_ne_nil _ _)

theorem isSome_bestOpinion (f : FeatureVector K) : (bestOpinion gate.cues f).isSome := by
  obtain ⟨cue, -, hbest, -⟩ := exists_bestOpinion gate.cues_ne_nil f
  rw [hbest]
  rfl

def judge (f : FeatureVector K) : Verdict K :=
  let best := (bestOpinion gate.cues f).get (gate.isSome_bestOpinion f)
  { score := best.z, margin := best.margin, calibratedPrecision := best.precision, winningCue := best.cue
    passes := gate.threshold ≤ best.precision }

variable {gate}

/-- A candidate passes where some cue's curve reaches the threshold at its margin. -/
theorem passes_judge_iff {f : FeatureVector K} :
    (gate.judge f).passes = true ↔
      ∃ cue ∈ gate.cues, gate.threshold ≤ calibrateCue cue.curve (f.get cue.marginIndex) := by
  obtain ⟨cue, hcue, hbest, hmost⟩ := exists_bestOpinion gate.cues_ne_nil f
  have hpasses : (gate.judge f).passes = decide (gate.threshold ≤ (cue.opinion f).precision) := by
    simp only [judge, hbest, Option.get_some]
  rw [hpasses, decide_eq_true_eq]
  exact ⟨fun h => ⟨cue, hcue, h⟩, fun ⟨other, hother, h⟩ => h.trans (hmost other hother)⟩

/-- A cue reads the margin of one of the two scores. -/
theorem marginIndex_cases {cue : CueCurve K} (hcue : cue ∈ gate.cues) :
    cue.marginIndex = lexicalMargin ∨ cue.marginIndex = denseMargin := by
  have hplaces : cue.places ∈ cueSpecs.map CueSpec.places := gate.specs ▸ List.mem_map_of_mem hcue
  have hmargins : ∀ places ∈ cueSpecs.map CueSpec.places,
      places.2.1 = lexicalMargin ∨ places.2.1 = denseMargin := by decide
  exact hmargins _ hplaces

/-- Only a candidate that leads passes a gate that lets none pass without a lead. -/
theorem leads_of_passes {f : FeatureVector K} (hzero : ∀ cue ∈ gate.cues, calibrateCue cue.curve 0 < gate.threshold)
    (h : (gate.judge f).passes = true) : 0 < f.get lexicalMargin ∨ 0 < f.get denseMargin := by
  obtain ⟨cue, hcue, hreaches⟩ := passes_judge_iff.mp h
  have hlead : 0 < f.get cue.marginIndex := by
    by_contra hnot
    have hle := monotone_calibrateCue cue.valid (not_lt.mp hnot)
    exact absurd (hreaches.trans hle) (not_le.mpr (hzero cue hcue))
  rcases marginIndex_cases hcue with hindex | hindex
  · exact .inl (hindex ▸ hlead)
  · exact .inr (hindex ▸ hlead)

end FrozenGate

end

/-! ## The cap -/

theorem countP_le_one {α : Type} {p : α → Bool} {l : List α}
    (h : ∀ (i j : Nat) (a b : α), l[i]? = some a → l[j]? = some b → p a = true → p b = true → i = j) :
    l.countP p ≤ 1 := by
  induction l with
  | nil => exact Nat.zero_le _
  | cons a rest ih =>
    by_cases ha : p a = true
    · have hnone : rest.countP p = 0 := by
        refine List.countP_eq_zero.mpr fun b hb hpb => ?_
        obtain ⟨j, hj⟩ := List.getElem?_of_mem hb
        exact absurd (h 0 (j + 1) a b rfl hj ha hpb) (Nat.succ_ne_zero j).symm
      rw [List.countP_cons_of_pos ha, hnone]
    · rw [List.countP_cons_of_neg ha]
      exact ih fun i j b c hb hc hpb hpc => Nat.succ.inj (h (i + 1) (j + 1) b c hb hc hpb hpc)

section
variable {K : Type} [Field K] [LinearOrder K] [IsStrictOrderedRing K] {sqrt : K → K}
  {entries : List MemoryEntry} {rawBm25 denseCosine : List K} {features : List (FeatureVector K)}

/-- The margins of a candidate's features are those of its scores. -/
theorem get_margin (h : extractAll sqrt entries rawBm25 denseCosine = some features) {i : Nat} {f : FeatureVector K}
    (hf : features[i]? = some f) :
    (perQuery sqrt rawBm25).margin[i]? = some (f.get lexicalMargin) ∧
      (perQuery sqrt denseCosine).margin[i]? = some (f.get denseMargin) := by
  unfold extractAll at h
  split at h
  · cases h
  rename_i hlengths
  obtain ⟨hraw, hdense⟩ := not_or.mp hlengths
  rw [not_not] at hraw hdense
  obtain rfl := Option.some.inj h
  rw [List.getElem?_map] at hf
  obtain ⟨⟨entry, place⟩, hplace, rfl⟩ := Option.map_eq_some_iff.mp hf
  rw [List.getElem?_zipIdx, Nat.zero_add] at hplace
  obtain ⟨_, hentry, heq⟩ := Option.map_eq_some_iff.mp hplace
  obtain ⟨rfl, rfl⟩ := Prod.mk.inj heq
  obtain ⟨hi, -⟩ := List.getElem?_eq_some_iff.mp hentry
  have hmargin : ∀ {scores : List K}, entries.length = scores.length →
      (perQuery sqrt scores).margin[i]? = some ((perQuery sqrt scores).margin.getD i 0) := by
    intro scores hlength
    have hin : i < (perQuery sqrt scores).margin.length := by
      rw [(margins_perQuery sqrt scores).each]
      omega
    rw [List.getD_eq_getElem?_getD, List.getElem?_eq_getElem hin, Option.getD_some]
  exact ⟨hmargin hraw, hmargin hdense⟩

/-- At most one candidate of a query leads by each cue. -/
theorem countP_leads_le_one (h : extractAll sqrt entries rawBm25 denseCosine = some features) :
    features.countP (fun f => 0 < f.get lexicalMargin) ≤ 1 ∧ features.countP (fun f => 0 < f.get denseMargin) ≤ 1 := by
  constructor
  · refine countP_le_one fun i j f g hf hg hfpos hgpos => ?_
    exact (margins_perQuery sqrt rawBm25).one_leads i j _ _ (get_margin h hf).1 (get_margin h hg).1
      (of_decide_eq_true hfpos) (of_decide_eq_true hgpos)
  · refine countP_le_one fun i j f g hf hg hfpos hgpos => ?_
    exact (margins_perQuery sqrt denseCosine).one_leads i j _ _ (get_margin h hf).2 (get_margin h hg).2
      (of_decide_eq_true hfpos) (of_decide_eq_true hgpos)

theorem countP_or_le {α : Type} (p q r : α → Bool) (hp : ∀ a, p a = true → q a = true ∨ r a = true) (l : List α) :
    l.countP p ≤ l.countP q + l.countP r := by
  induction l with
  | nil => exact Nat.zero_le _
  | cons a rest ih =>
    have hq : rest.countP q ≤ (a :: rest).countP q := (List.sublist_cons_self a rest).countP_le
    have hr : rest.countP r ≤ (a :: rest).countP r := (List.sublist_cons_self a rest).countP_le
    by_cases hpa : p a = true
    · rw [List.countP_cons_of_pos hpa]
      rcases hp a hpa with hqa | hra
      · rw [List.countP_cons_of_pos hqa]
        omega
      · rw [List.countP_cons_of_pos hra]
        omega
    · rw [List.countP_cons_of_neg hpa]
      omega

/-- At most one candidate for each cue passes a gate that lets none pass without a lead. -/
theorem countP_passes_le (gate : FrozenGate K)
    (hzero : ∀ cue ∈ gate.cues, calibrateCue cue.curve 0 < gate.threshold)
    (h : extractAll sqrt entries rawBm25 denseCosine = some features) :
    features.countP (fun f => (gate.judge f).passes) ≤ cueCount := by
  obtain ⟨hlexical, hdense⟩ := countP_leads_le_one h
  have hleads := countP_or_le (fun f => (gate.judge f).passes) (fun f => decide (0 < f.get lexicalMargin))
    (fun f => decide (0 < f.get denseMargin))
    (fun f hf => (FrozenGate.leads_of_passes hzero hf).imp decide_eq_true decide_eq_true) features
  exact hleads.trans (Nat.add_le_add hlexical hdense)

end

/-- **The cap of a gate that reads margins.** A margin is the lead on the best of the others, so that one
candidate at most has one; a curve is read at the first block that reaches the margin, and never falls;
and so no more candidates pass than there are cues, where none passes without a lead. -/
theorem margins_and_cap {K : Type} [Field K] [LinearOrder K] [IsStrictOrderedRing K] (sqrt : K → K)
    (scores : List K) (gate : FrozenGate K) :
    Margins scores (perQuery sqrt scores).margin ∧
      (∀ cue ∈ gate.cues, Monotone (calibrateCue cue.curve) ∧
        ∀ value, Block cue.curve value (calibrateCue cue.curve value)) ∧
      ((∀ cue ∈ gate.cues, calibrateCue cue.curve 0 < gate.threshold) →
        ∀ entries rawBm25 denseCosine features, extractAll sqrt entries rawBm25 denseCosine = some features →
          features.countP (fun f => (gate.judge f).passes) ≤ cueCount) :=
  ⟨margins_perQuery sqrt scores,
    fun cue _ => ⟨monotone_calibrateCue cue.valid, block_calibrateCue cue.valid⟩,
    fun hzero _ _ _ _ h => countP_passes_le gate hzero h⟩

/-! ## A small gate -/

def smallCurve (top : ℚ) : List (ℚ × ℚ) := [(1 / 5, 1 / 10), (1 / 2, 2 / 5), (4 / 5, top)]

def smallGate : FrozenGate ℚ where
  cues :=
    [⟨"lexical", "lexical_margin", lexicalMargin, ⟨4, by decide⟩, smallCurve (97 / 100),
        validCurve_of_curveFault (show curveFault "lexical_margin" _ = none by decide +kernel)⟩,
      ⟨"dense", "dense_margin", denseMargin, ⟨5, by decide⟩, smallCurve (1 / 2),
        validCurve_of_curveFault (show curveFault "dense_margin" _ = none by decide +kernel)⟩]
  threshold := frozenThreshold
  provenance :=
    { corpus := "longmemeval-s", corpusVariant := "cleaned", corpusSha256 := "abc", splitRule := "test"
      splitDigest := "def", fitCases := 250, heldoutCases := 250, inertFeatures := .empty, floorVerdict := "pass"
      floorRequired := none, floorMeasured := none, floorReadFrom := none }
  specs := by decide
  near := by decide +kernel

def turnNamed (id : MemoryId) : MemoryEntry :=
  { id, text := "t", payloadKind := .fact, embeddingRef := none, sourceTurnId := "t"
    sourceSessionId := "s", trustClass := .userAsserted, effectiveTrust := .userAsserted
    derivation := [], originEvent := 0, occurredAtMs := 0, createdAt := 0, lastAccessed := 0
    accessCount := 0, confidence := 1, activation := 1, fidelity := .record, silentUntil := none
    supersedes := [], supersededBy := none }

def smallFeatures : List (FeatureVector ℚ) :=
  (extractAll id [turnNamed "a", turnNamed "b"] [3, 1] [1 / 2, 1 / 2]).getD []

theorem small_cap : smallFeatures.countP (fun f => (smallGate.judge f).passes) ≤ cueCount :=
  (margins_and_cap id [3, 1] smallGate).2.2 (by decide +kernel) [turnNamed "a", turnNamed "b"] [3, 1] [1 / 2, 1 / 2]
    smallFeatures rfl

end MarloweAgent.Memory
