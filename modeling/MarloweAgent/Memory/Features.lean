import MarloweAgent.Library.Gaps
import MarloweAgent.Library.Ranked
import MarloweAgent.Memory.Retrieve
import Mathlib.Algebra.Order.Field.Basic

/-! The features of the candidates of a query. A cue's margin is what a candidate leads the best of the
others by, so that no two of them lead. -/

namespace MarloweAgent.Memory
open Contract Library

/-! ## Names -/

def featureNames : List String :=
  ["lexical_bm25", "dense_cosine", "lexical_margin", "dense_margin", "lexical_z", "dense_z", "lexical_rank_recip",
    "dense_rank_recip", "effective_trust", "fidelity", "cue_agreement_2cue"]

def featureCount : Nat := featureNames.length

/-- The position of a feature. -/
def featureIndex (name : String) : Option (Fin featureCount) := featureNames.findFinIdx? (· == name)

/-- Where the margins of the two cues stand. -/
def lexicalMargin : Fin featureCount := ⟨2, by decide⟩

def denseMargin : Fin featureCount := ⟨3, by decide⟩

/-- The features of one cue, each of which is extracted. -/
structure CueSpec where
  cue : String
  raw : String
  margin : String
  z : String
  margin_known : (featureIndex margin).isSome
  z_known : (featureIndex z).isSome

/-- `CUES`. -/
def cueSpecs : List CueSpec :=
  [⟨"lexical", "lexical_bm25", "lexical_margin", "lexical_z", by decide, by decide⟩,
    ⟨"dense", "dense_cosine", "dense_margin", "dense_z", by decide, by decide⟩]

def cueFeatures : List String := ["lexical_margin", "dense_margin"]

def rankFeatures : List String := ["lexical_z", "dense_z"]

def cueCount : Nat := cueFeatures.length

abbrev FeatureVector (K : Type) := Vector K featureCount

/-! ## One cue -/

/-- One cue's statistics within a query, in the order of the candidates. -/
structure PerQuery (K : Type) where
  margin : List K
  z : List K
  rankRecip : List K

section
variable {K : Type} [Field K] [LinearOrder K] (sqrt : K → K)

/-- The score to beat: none is worth nothing. -/
def competitor (top : WithBot K × WithBot K) (score : K) : K := (runnerUp top score).unbotD 0

def perQuery (scores : List K) : PerQuery K :=
  if scores.isEmpty then { margin := [], z := [], rankRecip := [] }
  else
    let n : K := scores.length
    let mean := scores.foldl (· + ·) 0 / n
    let sd := sqrt (scores.foldl (fun ss s => ss + (s - mean) * (s - mean)) 0 / n)
    let top := topTwo scores
    let order := (ranked (fun p => toLex (OrderDual.toDual p.1, p.2)) scores.zipIdx).map Prod.snd
    { margin := scores.map fun s => s - competitor top s
      z := scores.map fun s => if 0 < sd then (s - mean) / sd else 0
      rankRecip := scatter (List.replicate scores.length 0)
        (order.zipIdx.map fun (index, position) => (index, 1 / ((position + 1 : Nat) : K))) }

/-! ## The candidates of a query -/

/-- `BM25_SATURATION`. -/
def saturation : K := 10

def saturate (raw : K) : K := if raw ≤ 0 then 0 else raw / (raw + saturation)

def trustOrdinal (trust : TrustClass) : K := (trust.rank : K) / (TrustClass.userAsserted.rank : K)

def fidelityOrdinal (fidelity : Fidelity) : K := (fidelity.rank : K) / (Fidelity.record.rank : K)

/-- The features of a whole query's candidates; every cue scores each of them. -/
def extractAll (entries : List MemoryEntry) (rawBm25 denseCosine : List K) : Option (List (FeatureVector K)) :=
  if entries.length ≠ rawBm25.length ∨ entries.length ≠ denseCosine.length then none
  else
    let lex := perQuery sqrt rawBm25
    let den := perQuery sqrt denseCosine
    some (entries.zipIdx.map fun (entry, i) =>
      let raw := rawBm25.getD i 0
      let dense := denseCosine.getD i 0
      let fired : Nat := (if 0 < raw then 1 else 0) + (if 0 < dense then 1 else 0)
      ⟨#[saturate raw, dense, lex.margin.getD i 0, den.margin.getD i 0, lex.z.getD i 0, den.z.getD i 0,
        lex.rankRecip.getD i 0, den.rankRecip.getD i 0, trustOrdinal entry.effectiveTrust,
        fidelityOrdinal entry.fidelity, (fired : K) / 2], rfl⟩)

end

/-! ## Margins -/

section
variable {K : Type} [Field K] [LinearOrder K] {sqrt : K → K} {scores : List K}

theorem margin_perQuery : (perQuery sqrt scores).margin = scores.map fun s => s - competitor (topTwo scores) s := by
  cases scores <;> rfl

/-- A candidate's margin is its lead on the best of the others, or its score where there is no other. -/
theorem getElem?_margin {i : Nat} {s : K} (hs : scores[i]? = some s) :
    (perQuery sqrt scores).margin[i]? = some (s - ((scores.eraseIdx i).maximum).unbotD 0) := by
  rw [margin_perQuery, List.getElem?_map, hs, (topsOf_topTwo scores).others i s hs]
  rfl

/-- Whoever leads has a better score than each other candidate. -/
theorem lt_of_margin_pos [IsStrictOrderedRing K] {i j : Nat} {s t m : K} (hij : i ≠ j) (hs : scores[i]? = some s)
    (ht : scores[j]? = some t) (hm : (perQuery sqrt scores).margin[i]? = some m) (hpos : 0 < m) : t < s := by
  rw [getElem?_margin hs] at hm
  obtain rfl := Option.some.inj hm
  have hother : t ∈ scores.eraseIdx i := by
    rw [List.mem_eraseIdx_iff_getElem?]
    exact ⟨j, hij.symm, ht⟩
  obtain ⟨best, hbest⟩ := WithBot.ne_bot_iff_exists.mp (List.maximum_ne_bot_of_ne_nil (List.ne_nil_of_mem hother))
  rw [← hbest, WithBot.unbotD_coe] at hpos
  have hle : (t : WithBot K) ≤ best := hbest ▸ List.le_maximum_of_mem' hother
  exact (WithBot.coe_le_coe.mp hle).trans_lt (sub_pos.mp hpos)

/-- What the margins of a query say. -/
structure Margins (scores margin : List K) : Prop where
  each : margin.length = scores.length
  lead : ∀ (i : Nat) (s : K), scores[i]? = some s → margin[i]? = some (s - ((scores.eraseIdx i).maximum).unbotD 0)
  one_leads : ∀ (i j : Nat) (a b : K), margin[i]? = some a → margin[j]? = some b → 0 < a → 0 < b → i = j
  tied : ∀ (i j : Nat) (s : K), i ≠ j → scores[i]? = some s → scores[j]? = some s → (∀ t ∈ scores, t ≤ s) → margin[i]? = some 0

theorem margins_perQuery [IsStrictOrderedRing K] (sqrt : K → K) (scores : List K) :
    Margins scores (perQuery sqrt scores).margin := by
  have heach : (perQuery sqrt scores).margin.length = scores.length := by rw [margin_perQuery, List.length_map]
  refine ⟨heach, fun i s => getElem?_margin, fun i j a b ha hb hapos hbpos => ?_, fun i j s hij hs ht htop => ?_⟩
  · by_contra hij
    obtain ⟨hi, -⟩ := List.getElem?_eq_some_iff.mp ha
    obtain ⟨hj, -⟩ := List.getElem?_eq_some_iff.mp hb
    have hs := List.getElem?_eq_getElem (heach ▸ hi)
    have ht := List.getElem?_eq_getElem (heach ▸ hj)
    exact lt_asymm (lt_of_margin_pos hij hs ht ha hapos) (lt_of_margin_pos (Ne.symm hij) ht hs hb hbpos)
  · have hmax : (scores.eraseIdx i).maximum = s := by
      refine List.maximum_eq_coe_iff.mpr ⟨?_, fun t ht => htop t (List.mem_of_mem_eraseIdx ht)⟩
      rw [List.mem_eraseIdx_iff_getElem?]
      exact ⟨j, hij.symm, ht⟩
    rw [getElem?_margin hs, hmax, WithBot.unbotD_coe, sub_self]

end

end MarloweAgent.Memory
