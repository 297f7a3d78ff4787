import MarloweAgent.Memory.Retrieve

/-! What is injected was admitted. A candidate has a logit only if it survived pruning and its
own text was scored; the admitted memories may be fewer than the point admits, for want of
tokens, and more than were scored, for want of logits. -/

namespace MarloweAgent.Memory
open Contract EventLog Library

variable {F : Type}

/-- A logit the encoder gave to this text. -/
def CrossEncoder.Gives (encoder : CrossEncoder F) (queryText text : String) (logit : F) : Prop :=
  ∃ (documents : List String) (logits : List F) (i : Nat),
    encoder.scoreBatch queryText documents = some logits ∧
      documents[i]? = some text ∧ logits[i]? = some logit

/-! ## What has a logit -/

/-- A logit is the survivor's own, and the cascade ranks only what has one. -/
structure Vetted (rerank : Rerank F) (queryText : String) (c : ScoredCandidate F) : Prop where
  logit : ∀ logit, c.rerankScore = some logit → c.survivedPruning = true ∧
    ∃ encoder, rerank.encoder? = some encoder ∧ encoder.Gives queryText c.entry.text logit
  rank : c.fusionRank.isSome → c.rerankScore.isSome

theorem forall_modify {α : Type} {P : α → Prop} {l : List α} {i : Nat} {f : α → α}
    (h : ∀ a ∈ l, P a) (hf : ∀ a, l[i]? = some a → P (f a)) : ∀ a ∈ l.modify i f, P a := by
  intro a ha
  obtain ⟨j, hj⟩ := List.mem_iff_getElem?.mp ha
  rw [List.getElem?_modify] at hj
  obtain ⟨b, hb, rfl⟩ := Option.map_eq_some_iff.mp hj
  by_cases hij : i = j
  · subst hij
    rw [if_pos rfl]
    exact hf b hb
  · rw [if_neg hij]
    exact h b (List.mem_of_getElem? hb)

/-- What no later stage changes of a candidate. -/
def ScoredCandidate.standing (c : ScoredCandidate F) : MemoryEntry × Bool :=
  (c.entry, c.survivedPruning)

/-- The places hold the same entries, and the same of them survived pruning. -/
def SameEntries (scored scored' : List (ScoredCandidate F)) : Prop :=
  ∀ i : Nat, scored'[i]?.map ScoredCandidate.standing = scored[i]?.map ScoredCandidate.standing

theorem sameEntries_modify (scored : List (ScoredCandidate F)) (i : Nat)
    {f : ScoredCandidate F → ScoredCandidate F}
    (hf : ∀ c, (f c).standing = c.standing) :
    SameEntries scored (scored.modify i f) := by
  intro j
  rw [List.getElem?_modify]
  cases scored[j]? with
  | none => rfl
  | some c =>
    simp only [Option.map_eq_map, Option.map_some, Option.some.injEq]
    split
    · exact hf c
    · rfl

theorem SameEntries.trans {a b c : List (ScoredCandidate F)} (hab : SameEntries a b)
    (hbc : SameEntries b c) : SameEntries a c := fun i => (hbc i).trans (hab i)

theorem SameEntries.find {scored scored' : List (ScoredCandidate F)} (h : SameEntries scored scored')
    {i : Nat} {c' : ScoredCandidate F} (hc : scored'[i]? = some c') :
    ∃ c, scored[i]? = some c ∧ c.entry = c'.entry ∧ c.survivedPruning = c'.survivedPruning := by
  have hi := h i
  rw [hc] at hi
  obtain ⟨c, hfound, heq⟩ := Option.map_eq_some_iff.mp hi.symm
  exact ⟨c, hfound, congrArg Prod.fst heq, congrArg Prod.snd heq⟩

section Slate

variable {rerank : Rerank F} {queryText : String}

theorem writeLogits_vetted {encoder : CrossEncoder F} (hencoder : rerank.encoder? = some encoder)
    (logits : List (Nat × F)) {scored : List (ScoredCandidate F)}
    (h : ∀ c ∈ scored, Vetted rerank queryText c)
    (hown : ∀ p ∈ logits, ∀ c, scored[p.1]? = some c →
      c.survivedPruning = true ∧ encoder.Gives queryText c.entry.text p.2) :
    (∀ c ∈ writeLogits scored logits, Vetted rerank queryText c) ∧
      SameEntries scored (writeLogits scored logits) := by
  induction logits generalizing scored with
  | nil => exact ⟨h, fun _ => rfl⟩
  | cons p rest ih =>
    have hsame : SameEntries scored (scored.modify p.1 fun c => { c with rerankScore := some p.2 }) :=
      sameEntries_modify scored p.1 fun _ => rfl
    obtain ⟨hvetted, hrest⟩ := @ih (scored.modify p.1 fun c => { c with rerankScore := some p.2 })
      (forall_modify h fun c hc =>
        { logit := fun logit hlogit => by
            obtain rfl : p.2 = logit := Option.some.inj hlogit
            obtain ⟨hsurvived, hgives⟩ := hown p List.mem_cons_self c hc
            exact ⟨hsurvived, encoder, hencoder, hgives⟩
          rank := fun _ => rfl })
      (fun q hq c' hc' => by
        obtain ⟨c, hc, hentry, hsurvived⟩ := hsame.find hc'
        rw [← hentry, ← hsurvived]
        exact hown q (List.mem_cons_of_mem _ hq) c hc)
    exact ⟨hvetted, hsame.trans hrest⟩

/-- A chunk's logits are its own documents'. -/
theorem scoreChunk_vetted {encoder : CrossEncoder F} (hencoder : rerank.encoder? = some encoder)
    {state : List (ScoredCandidate F) × List (Option F)} {chunk : List Nat}
    (h : ∀ c ∈ state.1, Vetted rerank queryText c)
    (hsurvived : ∀ i ∈ chunk, ∀ c, state.1[i]? = some c → c.survivedPruning = true) :
    (∀ c ∈ (scoreChunk encoder queryText true state chunk).1, Vetted rerank queryText c) ∧
      SameEntries state.1 (scoreChunk encoder queryText true state chunk).1 := by
  unfold scoreChunk
  split
  next logits hlogits =>
    refine writeLogits_vetted hencoder _ h fun p hp c hc => ?_
    obtain ⟨k, hk⟩ := List.mem_iff_getElem?.mp hp
    obtain ⟨hi, hl⟩ := List.getElem?_zip_eq_some.mp hk
    refine ⟨hsurvived p.1 (List.mem_of_getElem? hi) c hc, _, logits, k, hlogits, ?_, hl⟩
    rw [List.getElem?_map, hi, Option.map_some, textAt, hc]
    rfl
  next => exact ⟨h, fun _ => rfl⟩

/-- One pair is a chunk of one. -/
theorem scorePair_eq (encoder : CrossEncoder F) (writeBack : Bool)
    (state : List (ScoredCandidate F) × List (Option F)) (i : Nat) :
    scorePair encoder queryText writeBack state i =
      scoreChunk encoder queryText writeBack state [i] := by
  unfold scorePair scoreChunk CrossEncoder.score
  rw [List.map_singleton]
  cases hlogits : encoder.scoreBatch queryText [textAt state.1 i] with
  | none => rfl
  | some logits =>
    obtain ⟨logit, rfl⟩ := List.length_eq_one_iff.mp (encoder.one_each hlogits)
    rfl

theorem foldl_scoreChunk_vetted {encoder : CrossEncoder F}
    (hencoder : rerank.encoder? = some encoder) (slates : List (List Nat))
    {state : List (ScoredCandidate F) × List (Option F)}
    (h : ∀ c ∈ state.1, Vetted rerank queryText c)
    (hsurvived : ∀ chunk ∈ slates, ∀ i ∈ chunk, ∀ c, state.1[i]? = some c →
      c.survivedPruning = true) :
    (∀ c ∈ (slates.foldl (scoreChunk encoder queryText true) state).1, Vetted rerank queryText c) ∧
      SameEntries state.1 (slates.foldl (scoreChunk encoder queryText true) state).1 := by
  induction slates generalizing state with
  | nil => exact ⟨h, fun _ => rfl⟩
  | cons chunk rest ih =>
    obtain ⟨hvetted, hsame⟩ := scoreChunk_vetted hencoder h (hsurvived chunk List.mem_cons_self)
    obtain ⟨hlater, hrest⟩ := ih hvetted fun other hother i hi c' hc' => by
      obtain ⟨c, hc, -, hkept⟩ := hsame.find hc'
      exact hkept ▸ hsurvived other (List.mem_cons_of_mem _ hother) i hi c hc
    exact ⟨hlater, hsame.trans hrest⟩

/-- Scoring a slate of survivors leaves everything vetted. -/
theorem scoreSlate_vetted {encoder : CrossEncoder F} (hencoder : rerank.encoder? = some encoder)
    (batched : Bool) {scored : List (ScoredCandidate F)} {slate : List Nat}
    (h : ∀ c ∈ scored, Vetted rerank queryText c)
    (hsurvived : ∀ i ∈ slate, ∀ c, scored[i]? = some c → c.survivedPruning = true) :
    (∀ c ∈ (scoreSlate encoder queryText true batched scored slate).1, Vetted rerank queryText c) ∧
      SameEntries scored (scoreSlate encoder queryText true batched scored slate).1 := by
  unfold scoreSlate
  split
  · exact ⟨h, fun _ => rfl⟩
  cases batched with
  | true =>
    refine foldl_scoreChunk_vetted hencoder (chunks maxBatch slate) h fun chunk hchunk i hi => ?_
    obtain ⟨k, -, rfl⟩ := List.mem_map.mp hchunk
    exact hsurvived i (List.mem_of_mem_drop (List.mem_of_mem_take hi))
  | false =>
    have hpairs : slate.foldl (scorePair encoder queryText true) (scored, []) =
        (slate.map ([·])).foldl (scoreChunk encoder queryText true) (scored, []) := by
      rw [List.foldl_map]
      exact congrArg (fun f => slate.foldl f _)
        (funext fun state => funext fun i => scorePair_eq encoder true state i)
    simp only [Bool.false_eq_true, if_false]
    rw [hpairs]
    refine foldl_scoreChunk_vetted hencoder (slate.map ([·])) h fun chunk hchunk i hi => ?_
    obtain ⟨j, hj, rfl⟩ := List.mem_map.mp hchunk
    exact hsurvived i (List.mem_singleton.mp hi ▸ hj)

theorem writeRanks_vetted (ranks : List (Nat × Nat)) {scored : List (ScoredCandidate F)}
    (h : ∀ c ∈ scored, Vetted rerank queryText c)
    (hscored : ∀ p ∈ ranks, (rerankAt scored p.1).isSome) :
    (∀ c ∈ writeRanks scored ranks, Vetted rerank queryText c) ∧
      SameEntries scored (writeRanks scored ranks) := by
  induction ranks generalizing scored with
  | nil => exact ⟨h, fun _ => rfl⟩
  | cons p rest ih =>
    have hsame : SameEntries scored (scored.modify p.1 fun c => { c with fusionRank := some p.2 }) :=
      sameEntries_modify scored p.1 fun _ => rfl
    have hrerank (i : Nat) :
        rerankAt (scored.modify p.1 fun c => { c with fusionRank := some p.2 }) i =
          rerankAt scored i := by
      unfold rerankAt
      rw [List.getElem?_modify]
      cases scored[i]? with
      | none => rfl
      | some c =>
        by_cases hi : p.1 = i <;> simp [hi]
    obtain ⟨hvetted, hrest⟩ := @ih (scored.modify p.1 fun c => { c with fusionRank := some p.2 })
      (forall_modify h fun c hc =>
        { logit := (h c (List.mem_of_getElem? hc)).logit
          rank := fun _ => by
            have hsome := hscored p List.mem_cons_self
            rwa [rerankAt, hc] at hsome })
      (fun q hq => (hrerank q.1).symm ▸ hscored q (List.mem_cons_of_mem _ hq))
    exact ⟨hvetted, hsame.trans hrest⟩

end Slate

section Ranking

variable [Single F] {rerank : Rerank F} {queryText : String}

theorem mem_ranked {α κ : Type} [LinearOrder κ] {key : α → κ} {a : α} {l : List α} :
    a ∈ ranked key l ↔ a ∈ l :=
  (ranked_perm key l).mem_iff

/-- Only survivors are drawn. -/
theorem survived_of_drawSlate {scored : List (ScoredCandidate F)} {budget i : Nat}
    {c : ScoredCandidate F} (hi : i ∈ drawSlate scored budget) (hc : scored[i]? = some c) :
    c.survivedPruning = true := by
  obtain ⟨⟨drawn, j⟩, hp, rfl⟩ := List.mem_map.mp (List.mem_of_mem_take hi)
  obtain ⟨hmem, hsurvived⟩ := List.mem_filter.mp (mem_ranked.mp hp)
  rw [List.mem_zipIdx_iff_getElem?] at hmem
  rw [hmem] at hc
  cases hc
  exact hsurvived

theorem mem_narrowed {scored : List (ScoredCandidate F)} {slate : List Nat} {i : Nat}
    (hi : i ∈ narrowed scored slate) : (rerankAt scored i).isSome := by
  obtain ⟨-, hsome⟩ := List.mem_filter.mp (mem_ranked.mp (List.mem_of_mem_take hi))
  exact hsome

/-- The fusion ranks what was narrowed, and nothing else. -/
theorem mem_cascadeFusionOrder {narrow : List Nat} {secondary : List F} {p : Nat × Nat}
    (hp : p ∈ cascadeFusionOrder narrow secondary) : p.1 ∈ narrow := by
  obtain ⟨⟨place, rank⟩, hmem, rfl⟩ := List.mem_map.mp hp
  have hplace : place ∈ List.range narrow.length :=
    mem_ranked.mp (List.mem_of_getElem? (List.mem_zipIdx_iff_getElem?.mp hmem))
  have hlt : place < narrow.length := List.mem_range.mp hplace
  simp only [List.getD_eq_getElem?_getD, List.getElem?_eq_getElem hlt, Option.getD_some]
  exact List.getElem_mem hlt

/-- Reranking leaves everything vetted, whatever pairs or chunks fail. -/
theorem reranked_vetted {scored : List (ScoredCandidate F)}
    (h : ∀ c ∈ scored, Vetted rerank queryText c) :
    (∀ c ∈ reranked rerank queryText scored, Vetted rerank queryText c) ∧
      SameEntries scored (reranked rerank queryText scored) := by
  cases rerank with
  | off => exact ⟨h, fun _ => rfl⟩
  | crossEncoder encoder budget batched =>
    exact scoreSlate_vetted rfl batched h fun i hi c hc => survived_of_drawSlate hi hc
  | cascade encoder fuse batched =>
    have hdrawn : ∀ i ∈ drawSlate scored cascadeSlate, ∀ c, scored[i]? = some c →
        c.survivedPruning = true := fun i hi c hc => survived_of_drawSlate hi hc
    have hencoder : (Rerank.cascade encoder fuse batched).encoder? = some encoder := rfl
    obtain ⟨hvetted, hsame⟩ := scoreSlate_vetted hencoder batched h hdrawn
    simp only [reranked]
    split
    · exact ⟨hvetted, hsame⟩
    · obtain ⟨hlater, hrest⟩ := writeRanks_vetted _ hvetted fun p hp =>
        mem_narrowed (mem_cascadeFusionOrder (F := F) hp)
      exact ⟨hlater, hsame.trans hrest⟩

end Ranking

/-! ## The limit on tokens -/

/-- No running total of the estimates leaves a `u32` before the limit stops it. -/
def NoOverflow (limit tokens : Nat) : List (ScoredCandidate F) → Prop
  | [] => True
  | c :: rest =>
    tokens + c.cost < 2 ^ 32 ∧ (tokens + c.cost ≤ limit → NoOverflow limit (tokens + c.cost) rest)

/-- The estimates of some candidates together. -/
def total (l : List (ScoredCandidate F)) : Nat := (l.map ScoredCandidate.cost).sum

theorem total_cons (c : ScoredCandidate F) (l : List (ScoredCandidate F)) :
    total (c :: l) = c.cost + total l := List.sum_cons

theorem cost_lt (c : ScoredCandidate F) : c.cost < 2 ^ 32 := Nat.mod_lt _ (by decide)

section Budget

variable {maxTokens : UInt32} {tokens : Nat} {c : ScoredCandidate F} {l : List (ScoredCandidate F)}

theorem fillBudget_stop (h : maxTokens.toNat < asU32 (tokens + c.cost)) :
    fillBudget maxTokens tokens (c :: l) = ([], tokens, true) := if_pos h

theorem fillBudget_go (h : ¬ maxTokens.toNat < asU32 (tokens + c.cost)) :
    (fillBudget maxTokens tokens (c :: l)).1 =
      c :: (fillBudget maxTokens (asU32 (tokens + c.cost)) l).1 := by
  simp only [fillBudget, if_neg h]

theorem fillBudget_take (maxTokens : UInt32) (tokens : Nat) (l : List (ScoredCandidate F)) :
    ∃ n, (fillBudget maxTokens tokens l).1 = l.take n := by
  induction l generalizing tokens with
  | nil => exact ⟨0, rfl⟩
  | cons c rest ih =>
    by_cases hstop : maxTokens.toNat < asU32 (tokens + c.cost)
    · exact ⟨0, congrArg Prod.fst (fillBudget_stop hstop)⟩
    · obtain ⟨n, hn⟩ := ih (asU32 (tokens + c.cost))
      exact ⟨n + 1, (fillBudget_go hstop).trans (congrArg (c :: ·) hn)⟩

/-- The estimates of what is filled stay within the limit unless their sum wrapped. -/
theorem fillBudget_total_le_iff (h : tokens ≤ maxTokens.toNat) :
    tokens + total (fillBudget maxTokens tokens l).1 ≤ maxTokens.toNat ↔
      NoOverflow maxTokens.toNat tokens l := by
  have hlimit : maxTokens.toNat < 2 ^ 32 := maxTokens.toNat_lt
  induction l generalizing tokens with
  | nil => exact iff_of_true h trivial
  | cons c rest ih =>
    by_cases hwraps : tokens + c.cost < 2 ^ 32
    · have hspent : asU32 (tokens + c.cost) = tokens + c.cost := Nat.mod_eq_of_lt hwraps
      by_cases hfits : tokens + c.cost ≤ maxTokens.toNat
      · rw [fillBudget_go (by omega), hspent, total_cons, ← Nat.add_assoc]
        exact (ih hfits).trans ⟨fun hrest => ⟨hwraps, fun _ => hrest⟩, fun hall => hall.2 hfits⟩
      · rw [fillBudget_stop (by omega)]
        exact iff_of_true h ⟨hwraps, fun hle => absurd hle hfits⟩
    · -- the wrapped sum is below what was there, so the candidate is let in
      have hcost := cost_lt c
      have hspent : asU32 (tokens + c.cost) = tokens + c.cost - 2 ^ 32 := by
        unfold asU32
        omega
      rw [fillBudget_go (by omega), total_cons]
      exact iff_of_false (by omega) fun hall => hwraps hall.1

/-- What fits together is filled together. -/
theorem fillBudget_all (hfits : tokens + total l ≤ maxTokens.toNat) :
    (fillBudget maxTokens tokens l).1 = l := by
  have hlimit : maxTokens.toNat < 2 ^ 32 := maxTokens.toNat_lt
  induction l generalizing tokens with
  | nil => rfl
  | cons c rest ih =>
    rw [total_cons] at hfits
    have hspent : asU32 (tokens + c.cost) = tokens + c.cost := Nat.mod_eq_of_lt (by omega)
    rw [fillBudget_go (by omega), hspent, ih (by omega)]

theorem fillBudget_ne_nil_iff :
    (fillBudget maxTokens 0 (c :: l)).1 ≠ [] ↔ c.cost ≤ maxTokens.toNat := by
  have hspent : asU32 (0 + c.cost) = c.cost := by
    rw [Nat.zero_add]
    exact Nat.mod_eq_of_lt (cost_lt c)
  by_cases hfits : c.cost ≤ maxTokens.toNat
  · rw [fillBudget_go (by omega)]
    exact iff_of_true (List.cons_ne_nil _ _) hfits
  · rw [fillBudget_stop (by omega)]
    exact iff_of_false (fun h => h rfl) hfits

end Budget

end MarloweAgent.Memory
