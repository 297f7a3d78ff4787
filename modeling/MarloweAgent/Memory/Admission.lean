import MarloweAgent.Memory.Injection

/-! What the operating point admits and what the limit leaves of it: when every injected memory
is one the stages vouch for, and when an empty injection is explained. The point decides on two
logits and admits three memories, and the limit is applied after the reason is recorded. -/

namespace MarloweAgent.Memory
open Contract EventLog Library

variable {F : Type} [Single F]

/-! ## The decision -/

section Decide

variable {point : OperatingPoint F} {n : Nat} {present : Bool} {one two : Option F}
  {coverage : Coverage}

/-- Rank one is admitted over a logit at rank two, and the margin decides only where the coverage
is declared. -/
theorem decide_admits_iff :
    (point.decide n present one two coverage).admitRankOne = true ↔
      2 ≤ n ∧ present = true ∧ ∃ top runner, one = some top ∧ two = some runner ∧
        (coverage = .declared → Single.atLeast (top - runner) point.marginThreshold = true) := by
  unfold OperatingPoint.decide
  by_cases hnone : n = 0
  · simp [hnone]
  by_cases hpresent : present = true
  · by_cases hfew : n < 2
    · simp [hnone, hpresent, hfew]
    · have hmany : 2 ≤ n := by omega
      cases one with
      | none => simp [hnone, hpresent, hfew]
      | some top =>
        cases two with
        | none => simp [hnone, hpresent, hfew]
        | some runner =>
          cases coverage with
          | full => simp [hnone, hpresent, hfew, hmany]
          | declared =>
            by_cases hclears : Single.atLeast (top - runner) point.marginThreshold = true
            · simp [hnone, hpresent, hfew, hmany, hclears]
            · simp [hnone, hpresent, hfew, hclears]
  · simp [hnone, hpresent]

/-- A refusal has its reason, and an admission none. -/
theorem decide_abstention_iff :
    (point.decide n present one two coverage).abstention = none ↔
      (point.decide n present one two coverage).admitRankOne = true := by
  unfold OperatingPoint.decide
  split
  · exact iff_of_false (nofun) (nofun)
  split
  · exact iff_of_false (nofun) (nofun)
  split
  · exact iff_of_false (nofun) (nofun)
  split
  · dsimp only
    split_ifs
    · exact iff_of_true rfl rfl
    · exact iff_of_false (nofun) (nofun)
  · exact iff_of_false (nofun) (nofun)

end Decide

/-! ## The ranking -/

section Key

variable {rerank : Rerank F} {queryText : String} {a b : ScoredCandidate F}

/-- A candidate with a logit comes before one without, whatever the cascade ranked. -/
theorem gatedKey_lt (ha : Vetted rerank queryText a) (hb : Vetted rerank queryText b)
    (hlogit : a.rerankScore.isSome = true) (hnone : ¬ b.rerankScore.isSome = true) :
    gatedKey a < gatedKey b := by
  obtain ⟨logit, hsome⟩ := Option.isSome_iff_exists.mp hlogit
  have hsurvived : a.survivedPruning = true := (ha.logit logit hsome).1
  have hrank : b.fusionRank = none := Option.not_isSome_iff_eq_none.mp fun h => hnone (hb.rank h)
  have hscore : b.rerankScore = none := Option.not_isSome_iff_eq_none.mp hnone
  unfold gatedKey
  rw [hsurvived, hsome, hrank, hscore, Prod.Lex.toLex_lt_toLex]
  cases b.survivedPruning with
  | false => exact Or.inl (show OrderDual.toDual true < OrderDual.toDual false from by decide)
  | true =>
    refine Or.inr ⟨rfl, ?_⟩
    rw [Prod.Lex.toLex_lt_toLex]
    cases a.fusionRank with
    | some rank => exact Or.inl (WithTop.coe_lt_top _)
    | none =>
      refine Or.inr ⟨rfl, ?_⟩
      rw [Prod.Lex.toLex_lt_toLex]
      exact Or.inl (WithTop.coe_lt_top _)

end Key

/-- What pruning passes on: a candidate in scope, with no logit yet and no rank. -/
structure Unscored (entries : List MemoryEntry) (c : ScoredCandidate F) : Prop where
  mem : c.entry ∈ entries
  logit : c.rerankScore = none
  rank : c.fusionRank = none

theorem unscored_of {entries : List MemoryEntry} {entry : MemoryEntry} (h : entry ∈ entries)
    (scoring : Scoring F) (v : Verdict F) : Unscored entries (ScoredCandidate.of scoring entry v) := by
  cases scoring <;> exact ⟨h, rfl, rfl⟩

omit [Single F] in
/-- Neither the session's key nor what pruning decides scores a candidate. -/
theorem unscored_zip {entries : List MemoryEntry} {scored : List (ScoredCandidate F)}
    {keys : List Nat} {f : ScoredCandidate F × Nat → ScoredCandidate F}
    (hf : ∀ p, (f p).entry = p.1.entry ∧ (f p).rerankScore = p.1.rerankScore ∧
      (f p).fusionRank = p.1.fusionRank) (h : ∀ c ∈ scored, Unscored entries c) :
    ∀ c ∈ (scored.zip keys).map f, Unscored entries c := by
  intro c hc
  obtain ⟨p, hp, rfl⟩ := List.mem_map.mp hc
  obtain ⟨hmem, hlogit, hrank⟩ := h p.1 (List.of_mem_zip hp).1
  obtain ⟨hentry, hscore, hfusion⟩ := hf p
  exact ⟨hentry ▸ hmem, hscore.trans hlogit, hfusion.trans hrank⟩

theorem unscored_pruned (scoring : Scoring F) (cues : Cues F) (queryText : String)
    (entries : List MemoryEntry) :
    ∀ c ∈ (pruned scoring cues queryText entries).1, Unscored entries c := by
  have hscored (verdicts : List (Verdict F)) :
      ∀ c ∈ (entries.zip verdicts).map (fun p => ScoredCandidate.of scoring p.1 p.2),
        Unscored entries c := by
    intro c hc
    obtain ⟨p, hp, rfl⟩ := List.mem_map.mp hc
    exact unscored_of (List.of_mem_zip hp).1 scoring p.2
  unfold pruned
  cases scoring with
  | fitDump => exact hscored _
  | gated point coverage =>
    dsimp only
    split
    · exact unscored_zip (fun _ => ⟨rfl, rfl, rfl⟩) (hscored _)
    · exact unscored_zip (fun _ => ⟨rfl, rfl, rfl⟩)
        (unscored_zip (fun _ => ⟨rfl, rfl, rfl⟩) (hscored _))

/-! ## What is injected -/

/-- What `select_for_injection` is asked under gated scoring. -/
structure GatedQuery (F : Type) where
  beliefs : BeliefStore
  sessionId : String
  queryText : String
  nowMs : Int
  maxTokens : UInt32
  point : OperatingPoint F
  coverage : Coverage
  cues : Cues F
  rerank : Rerank F
  scope : RetrievalScope

namespace GatedQuery

variable (q : GatedQuery F)

def select : Selection F :=
  selectForInjection q.beliefs q.sessionId q.queryText q.nowMs q.maxTokens
    (.gated q.point q.coverage) q.cues q.rerank q.scope

/-- The candidates in scope. -/
def inScope : List MemoryEntry :=
  (q.beliefs.injectionCandidates q.nowMs).filter (q.scope.admits q.sessionId)

/-- The candidates pruned and reranked. -/
def pool : List (ScoredCandidate F) :=
  reranked q.rerank q.queryText
    (pruned (.gated q.point q.coverage) q.cues q.queryText q.inScope).1

/-- The final ranking. -/
def ranking : List (ScoredCandidate F) := ranked gatedKey q.pool

/-- What the operating point says of it. -/
def verdict : Admission F :=
  q.point.decide q.ranking.length (!q.rerank.isOff) (q.ranking[0]?.bind ScoredCandidate.rerankScore)
    (q.ranking[1]?.bind ScoredCandidate.rerankScore) q.coverage

/-- What is injected, as candidates. -/
def filled : List (ScoredCandidate F) :=
  (fillBudget q.maxTokens 0 (if q.verdict.admitRankOne then q.ranking.take admitTopK else [])).1

/-- The logits of rank one and rank two. -/
def Leads (top runner : F) : Prop :=
  q.ranking[0]?.bind ScoredCandidate.rerankScore = some top ∧
    q.ranking[1]?.bind ScoredCandidate.rerankScore = some runner

/-- The margin reaches the declared threshold. -/
def Clears (top runner : F) : Prop := Single.atLeast (top - runner) q.point.marginThreshold = true

/-- A memory every stage vouched for. -/
structure Vouched (c : ScoredCandidate F) : Prop where
  held : c.entry ∈ q.beliefs.recallCandidates
  matured : c.entry.isMatured q.nowMs = true
  current : c.entry.supersededBy = none
  whole : Fidelity.tombstone < c.entry.fidelity
  inScope : q.scope.admits q.sessionId c.entry = true
  survived : c.survivedPruning = true
  scored : ∃ encoder logit, q.rerank.encoder? = some encoder ∧ c.rerankScore = some logit ∧
    encoder.Gives q.queryText c.entry.text logit

/-- What is injected was admitted, and an empty injection says why. -/
structure Explained : Prop where
  placed : q.select.injected =
    (q.ranking.take q.select.injected.length).map ScoredCandidate.inject
  few : q.select.injected.length ≤ admitTopK
  vouched : ∀ c ∈ q.ranking.take q.select.injected.length, q.Vouched c
  fits : total (q.ranking.take q.select.injected.length) ≤ q.maxTokens.toNat
  clears : q.select.injected ≠ [] → ∃ top runner, q.Leads top runner ∧ q.Clears top runner
  reason : q.select.abstention = none ↔ q.select.injected ≠ []

/-- What an admission leaves to the limit and to the reranking. -/
structure Covered : Prop where
  /-- Rank one fits in the limit. -/
  room : ∀ c, q.ranking[0]? = some c → c.cost ≤ q.maxTokens.toNat
  /-- If there are three and they fit, three have logits. -/
  scored : admitTopK ≤ q.pool.length → total (q.ranking.take admitTopK) ≤ q.maxTokens.toNat →
    admitTopK ≤ q.pool.countP fun c => c.rerankScore.isSome
  counted : NoOverflow q.maxTokens.toNat 0 (q.ranking.take admitTopK)

/-! ### The pool -/

/-- Nothing is vetted of what nobody scored. -/
theorem vetted_pruned : ∀ c ∈ (pruned (.gated q.point q.coverage) q.cues q.queryText q.inScope).1,
    Vetted q.rerank q.queryText c := by
  intro c hc
  obtain ⟨-, hlogit, hrank⟩ := unscored_pruned _ _ _ _ c hc
  exact
    { logit := fun logit hsome => absurd (hlogit.symm.trans hsome) nofun
      rank := fun hsome => absurd (hrank ▸ hsome) nofun }

theorem vetted_pool : ∀ c ∈ q.pool, Vetted q.rerank q.queryText c :=
  (reranked_vetted q.vetted_pruned).1

theorem entry_mem_of_pool {c : ScoredCandidate F} (hc : c ∈ q.pool) : c.entry ∈ q.inScope := by
  obtain ⟨i, hi⟩ := List.mem_iff_getElem?.mp hc
  obtain ⟨before, hbefore, hentry, -⟩ := (reranked_vetted q.vetted_pruned).2.find hi
  exact hentry ▸ (unscored_pruned _ _ _ _ before (List.mem_of_getElem? hbefore)).mem

/-- All that vouching asks of a candidate beyond the stores and the scope is its logit. -/
theorem vouched_iff {c : ScoredCandidate F} (hc : c ∈ q.ranking) :
    q.Vouched c ↔ c.rerankScore.isSome = true := by
  have hpool : c ∈ q.pool := mem_ranked.mp hc
  constructor
  · intro h
    obtain ⟨_, logit, -, hsome, -⟩ := h.scored
    rw [hsome]
    rfl
  · intro h
    obtain ⟨logit, hsome⟩ := Option.isSome_iff_exists.mp h
    obtain ⟨hcandidate, hscope⟩ := List.mem_filter.mp (q.entry_mem_of_pool hpool)
    obtain ⟨hheld, hpredicate⟩ := List.mem_filter.mp hcandidate
    simp only [MemoryEntry.isInjectionCandidate, Bool.and_eq_true, decide_eq_true_eq,
      Option.isNone_iff_eq_none] at hpredicate
    obtain ⟨⟨hwhole, hcurrent⟩, hmatured⟩ := hpredicate
    obtain ⟨hsurvived, encoder, hencoder, hgives⟩ := (q.vetted_pool c hpool).logit logit hsome
    exact ⟨hheld, hmatured, hcurrent, hwhole, hscope, hsurvived, encoder, logit, hencoder, hsome, hgives⟩

/-- Those with logits come first in the ranking. -/
theorem take_scored_iff {n : Nat} (hn : n ≤ q.pool.length) :
    (∀ c ∈ q.ranking.take n, c.rerankScore.isSome = true) ↔
      n ≤ q.pool.countP fun c => c.rerankScore.isSome := by
  constructor
  · intro h
    have hlength : (q.ranking.take n).length = n := by
      rw [List.length_take, ranking, (ranked_perm _ _).length_eq, Nat.min_eq_left hn]
    calc n = (q.ranking.take n).countP fun c => c.rerankScore.isSome := by
          rw [List.countP_eq_length.mpr h, hlength]
      _ ≤ q.ranking.countP fun c => c.rerankScore.isSome := (List.take_sublist n _).countP_le
      _ = q.pool.countP fun c => c.rerankScore.isSome := (ranked_perm _ _).countP_eq _
  · intro h
    exact forall_take_ranked
      (fun a ha b hb => gatedKey_lt (q.vetted_pool a ha) (q.vetted_pool b hb)) h

/-! ### The injection -/

theorem injected_eq : q.select.injected = q.filled.map ScoredCandidate.inject := rfl

theorem abstention_eq : q.select.abstention = q.verdict.abstention := rfl

theorem injected_length : q.select.injected.length = q.filled.length := by
  rw [injected_eq, List.length_map]

theorem injected_ne_nil_iff : q.select.injected ≠ [] ↔ q.filled ≠ [] := by
  rw [injected_eq, ne_eq, List.map_eq_nil_iff]

theorem filled_of_admitted (h : q.verdict.admitRankOne = true) :
    q.filled = (fillBudget q.maxTokens 0 (q.ranking.take admitTopK)).1 := by
  rw [filled, if_pos h]

theorem filled_of_refused (h : ¬ q.verdict.admitRankOne = true) : q.filled = [] := by
  rw [filled, if_neg h, fillBudget]

/-- What is filled is the head of the ranking. -/
theorem filled_eq_take : q.filled = q.ranking.take q.filled.length ∧
    q.filled.length ≤ admitTopK := by
  obtain ⟨m, hm, htake⟩ : ∃ m ≤ admitTopK, q.filled = q.ranking.take m := by
    by_cases hadmits : q.verdict.admitRankOne = true
    · obtain ⟨n, hn⟩ := fillBudget_take q.maxTokens 0 (q.ranking.take admitTopK)
      rw [List.take_take] at hn
      exact ⟨min n admitTopK, Nat.min_le_right _ _, (q.filled_of_admitted hadmits).trans hn⟩
    · exact ⟨0, Nat.zero_le _, q.filled_of_refused hadmits⟩
  have hlength : q.filled.length = min m q.ranking.length := by
    rw [htake, List.length_take]
  refine ⟨?_, hlength ▸ (Nat.min_le_left _ _).trans hm⟩
  rw [hlength, ← List.take_take, List.take_length, htake]

/-- Rank one is admitted over the logit of rank two, unless the declared threshold refuses. -/
theorem admits_iff : q.verdict.admitRankOne = true ↔
    ∃ top runner, q.Leads top runner ∧ (q.coverage = .declared → q.Clears top runner) := by
  rw [verdict, decide_admits_iff]
  constructor
  · rintro ⟨-, -, top, runner, htop, hrunner, hclears⟩
    exact ⟨top, runner, ⟨htop, hrunner⟩, hclears⟩
  · rintro ⟨top, runner, ⟨htop, hrunner⟩, hclears⟩
    obtain ⟨first, hfirst, hlogit⟩ := Option.bind_eq_some_iff.mp htop
    obtain ⟨second, hsecond, -⟩ := Option.bind_eq_some_iff.mp hrunner
    obtain ⟨hmany, -⟩ := List.getElem?_eq_some_iff.mp hsecond
    obtain ⟨-, encoder, hencoder, -⟩ :=
      (q.vetted_pool first (mem_ranked.mp (List.mem_of_getElem? hfirst))).logit top hlogit
    refine ⟨hmany, ?_, top, runner, htop, hrunner, hclears⟩
    cases hrerank : q.rerank with
    | off => exact absurd (hrerank ▸ hencoder) nofun
    | crossEncoder _ _ _ => rfl
    | cascade _ _ _ => rfl

theorem Leads.unique {q : GatedQuery F} {top runner top' runner' : F} (h : q.Leads top runner)
    (h' : q.Leads top' runner') : top = top' ∧ runner = runner' :=
  ⟨Option.some.inj (h.1.symm.trans h'.1), Option.some.inj (h.2.symm.trans h'.2)⟩

/-- Nothing is injected of what the point refused, and the refusal is the reason. -/
theorem explained_of_refused (h : ¬ q.verdict.admitRankOne = true) : q.Explained := by
  have hempty : q.select.injected = [] := by
    rw [injected_eq, q.filled_of_refused h, List.map_nil]
  have hreason : q.select.abstention ≠ none := fun hnone =>
    h (decide_abstention_iff.mp (q.abstention_eq ▸ hnone))
  have hnone : q.ranking.take q.select.injected.length = [] := by
    rw [hempty, List.length_nil, List.take_zero]
  exact
    { placed := by rw [hnone, hempty, List.map_nil]
      few := by rw [hempty, List.length_nil]; exact Nat.zero_le _
      vouched := fun c hc => absurd (hnone ▸ hc) List.not_mem_nil
      fits := hnone ▸ Nat.zero_le _
      clears := fun hne => absurd hempty hne
      reason := iff_of_false hreason fun hne => hne hempty }

section Admitted

variable {q} {top runner : F}

/-- The first three of an admitted ranking are injected if they fit. -/
theorem filled_of_fits (hadmits : q.verdict.admitRankOne = true)
    (hfits : total (q.ranking.take admitTopK) ≤ q.maxTokens.toNat) :
    q.filled = q.ranking.take admitTopK :=
  (q.filled_of_admitted hadmits).trans (fillBudget_all ((Nat.zero_add _).le.trans hfits))

theorem filled_fits_iff (hadmits : q.verdict.admitRankOne = true) :
    total q.filled ≤ q.maxTokens.toNat ↔
      NoOverflow q.maxTokens.toNat 0 (q.ranking.take admitTopK) := by
  rw [q.filled_of_admitted hadmits, ← fillBudget_total_le_iff (Nat.zero_le _), Nat.zero_add]

theorem filled_ne_nil_iff (hadmits : q.verdict.admitRankOne = true) (hleads : q.Leads top runner) :
    q.filled ≠ [] ↔ ∀ c, q.ranking[0]? = some c → c.cost ≤ q.maxTokens.toNat := by
  obtain ⟨first, hfirst, -⟩ := Option.bind_eq_some_iff.mp hleads.1
  rw [q.filled_of_admitted hadmits]
  cases hranking : q.ranking with
  | nil => exact absurd (hranking ▸ hfirst) nofun
  | cons c rest =>
    rw [admitTopK, List.take_succ_cons, fillBudget_ne_nil_iff]
    exact ⟨fun h c' hc' => Option.some.inj hc' ▸ h, fun h => h c rfl⟩

/-- An admitted ranking has two logits at its head. -/
theorem scored_of_leads (hleads : q.Leads top runner) {n : Nat} (hn : n ≤ 2) :
    ∀ c ∈ q.ranking.take n, c.rerankScore.isSome = true := by
  intro c hc
  obtain ⟨first, hfirst, hfirstLogit⟩ := Option.bind_eq_some_iff.mp hleads.1
  obtain ⟨second, hsecond, hsecondLogit⟩ := Option.bind_eq_some_iff.mp hleads.2
  obtain ⟨i, hi⟩ := List.mem_iff_getElem?.mp hc
  rw [List.getElem?_take] at hi
  split at hi
  next hlt =>
    obtain rfl | rfl : i = 0 ∨ i = 1 := by omega
    · rw [hfirst] at hi
      rw [← Option.some.inj hi, hfirstLogit]
      rfl
    · rw [hsecond] at hi
      rw [← Option.some.inj hi, hsecondLogit]
      rfl
  next => exact absurd hi nofun

/-- What is filled has logits, given three of them where three are filled. -/
theorem scored_of_covered (hleads : q.Leads top runner) (hcovered : q.Covered)
    (hfits : total q.filled ≤ q.maxTokens.toNat) :
    ∀ c ∈ q.filled, c.rerankScore.isSome = true := by
  obtain ⟨htake, hfew⟩ := q.filled_eq_take
  rw [htake]
  by_cases htwo : q.filled.length ≤ 2
  · exact scored_of_leads hleads htwo
  · have hthree : q.filled.length = admitTopK := by
      unfold admitTopK at hfew ⊢
      omega
    rw [hthree] at htake ⊢
    have hmany : admitTopK ≤ q.pool.length := by
      have hlength := congrArg List.length htake
      rw [hthree, List.length_take, ranking, (ranked_perm _ _).length_eq] at hlength
      omega
    exact (q.take_scored_iff hmany).mpr (hcovered.scored hmany (htake ▸ hfits))

end Admitted

/-- The injection is explained exactly if an admitted ranking's margin clears the declared
threshold, its first memory fits in the limit, a third memory that fits has a logit, and no sum
of estimates wraps. -/
theorem explained_iff : q.Explained ↔ ∀ top runner, q.Leads top runner →
    (q.coverage = .declared → q.Clears top runner) → q.Clears top runner ∧ q.Covered := by
  by_cases hadmits : q.verdict.admitRankOne = true
  · obtain ⟨top, runner, hleads, hdeclared⟩ := q.admits_iff.mp hadmits
    have hreason : q.select.abstention = none := decide_abstention_iff.mpr hadmits
    obtain ⟨htake, hfew⟩ := q.filled_eq_take
    constructor
    · intro h top' runner' hleads' _
      have hsome : q.select.injected ≠ [] := h.reason.mp hreason
      have hvouched := h.vouched
      have hfits := h.fits
      rw [q.injected_length, ← htake] at hvouched hfits
      obtain ⟨_, _, hsame, hclears⟩ := h.clears hsome
      obtain ⟨rfl, rfl⟩ := hsame.unique hleads'
      refine ⟨hclears, ?_, fun hmany hroom => ?_, (filled_fits_iff hadmits).mp hfits⟩
      · exact (filled_ne_nil_iff hadmits hleads).mp (q.injected_ne_nil_iff.mp hsome)
      · rw [filled_of_fits hadmits hroom] at hvouched
        exact (q.take_scored_iff hmany).mp fun c hc =>
          (q.vouched_iff (List.mem_of_mem_take hc)).mp (hvouched c hc)
    · intro h
      obtain ⟨hclears, hcovered⟩ := h top runner hleads hdeclared
      have hfits := (filled_fits_iff hadmits).mpr hcovered.counted
      have hscored := scored_of_covered hleads hcovered hfits
      have hsome := (filled_ne_nil_iff hadmits hleads).mpr hcovered.room
      refine
        { placed := ?_, few := ?_, vouched := ?_, fits := ?_
          clears := fun _ => ⟨top, runner, hleads, hclears⟩
          reason := iff_of_true hreason (q.injected_ne_nil_iff.mpr hsome) }
      all_goals rw [q.injected_length]
      · rw [← htake]
        exact q.injected_eq
      · exact hfew
      · rw [← htake]
        intro c hc
        exact (q.vouched_iff (List.mem_of_mem_take (htake ▸ hc))).mpr (hscored c hc)
      · rwa [← htake]
  · exact iff_of_true (q.explained_of_refused hadmits) fun top runner hleads hclears =>
      absurd (q.admits_iff.mpr ⟨top, runner, hleads, hclears⟩) hadmits

end GatedQuery

/-- Logits that are small whole numbers, as `f32` computes with them. -/
instance : Single Int where
  negInfinity := -2 ^ 128
  above a b := decide (b < a)
  atLeast a b := decide (b ≤ a)

def asserted (id text : String) : MemoryEntry :=
  { id, text, payloadKind := .fact, embeddingRef := none, sourceTurnId := "t"
    sourceSessionId := "s", trustClass := .userAsserted, effectiveTrust := .userAsserted
    derivation := [], originEvent := 0, occurredAtMs := 0, createdAt := 0, lastAccessed := 0
    accessCount := 0, confidence := 1, activation := 1, fidelity := .record, silentUntil := none
    supersedes := [], supersededBy := none }

/-- A cross-encoder that tells two texts apart and fails on the third. -/
def failsOnThird : CrossEncoder Int where
  scoreBatch _ documents :=
    if "c" ∈ documents then none
    else some (documents.map fun text => if text = "a" then 9 else 1)
  one_each h := by
    split at h
    · exact absurd h nofun
    · rw [← Option.some.inj h, List.length_map]

/-- Three beliefs no cue tells apart. -/
def threeBeliefs (maxTokens : UInt32) : GatedQuery Int where
  beliefs := ((BeliefStore.empty.insert (asserted "a" "a")).insert (asserted "b" "b")).insert
    (asserted "c" "c")
  sessionId := "s"
  queryText := "q"
  nowMs := 0
  maxTokens
  point := ⟨5⟩
  coverage := .declared
  cues :=
    { lexical := fun entries _ => entries.map fun _ => 1
      dense := fun entries => entries.map fun _ => 0
      judge := fun entries _ _ => entries.map fun _ => ⟨1, 0, 0, "lexical", false⟩ }
  rerank := .crossEncoder failsOnThird 10 false
  scope := .thisSession

/-- The third memory is injected without a logit; and with no room for the first, nothing is
injected and no reason given. -/
theorem third_injected_unscored :
    ¬ (threeBeliefs 100).Explained ∧ ¬ (threeBeliefs 0).Explained := by
  constructor
  · intro h
    have hunscored : ∃ c ∈ (threeBeliefs 100).ranking.take (threeBeliefs 100).select.injected.length,
        c.rerankScore = none := by decide
    obtain ⟨c, hc, hnone⟩ := hunscored
    obtain ⟨_, logit, -, hsome, -⟩ := (h.vouched c hc).scored
    exact absurd (hnone.symm.trans hsome) nofun
  · intro h
    have hreason : (threeBeliefs 0).select.abstention = none := by decide
    have hempty : (threeBeliefs 0).select.injected.length = 0 := by decide
    exact h.reason.mp hreason (List.eq_nil_of_length_eq_zero hempty)

end MarloweAgent.Memory
