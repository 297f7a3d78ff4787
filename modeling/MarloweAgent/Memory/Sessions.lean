import MarloweAgent.Library.Gaps
import MarloweAgent.Memory.Retrieve
import Mathlib.Data.List.Dedup
import Mathlib.Data.List.MinMax

/-! The sessions a list of candidates falls into, and those that survive the pruning. Two candidates are of
one session where no gap between them, in the order of time, is too wide. -/

namespace MarloweAgent.Memory
open Contract EventLog Library

/-! ## The candidates in the order of time -/

/-- The candidates with their places, as `session_keys` goes through them. -/
def inTime (candidates : List MemoryEntry) : List (MemoryEntry × Nat) :=
  ranked (fun p => toLex (p.1.occurredAtMs, p.1.id)) candidates.zipIdx

def times (order : List (MemoryEntry × Nat)) : List Int := order.map fun p => p.1.occurredAtMs

/-- The values next to each other. -/
def steps : List Int → List (Int × Int)
  | a :: b :: rest => (a, b) :: steps (b :: rest)
  | _ => []

def fitsI64 (n : Int) : Bool := -2 ^ 63 ≤ n && n < 2 ^ 63

/-- The walk of `session_keys` where the overflow of an `i64` or of a `u32` is caught. -/
def checkedGroupFrom (gapMs : Int) (previous : Option Int) (group : Nat) :
    List (MemoryEntry × Nat) → List Nat → Option (List Nat)
  | [], keys => some keys
  | (e, i) :: rest, keys =>
    match previous with
    | none => checkedGroupFrom gapMs (some e.occurredAtMs) group rest (keys.set i group)
    | some prev =>
      if fitsI64 (e.occurredAtMs - prev) then
        if gapMs < e.occurredAtMs - prev then
          if group + 1 < 2 ^ 32 then
            checkedGroupFrom gapMs (some e.occurredAtMs) (group + 1) rest (keys.set i (group + 1))
          else none
        else checkedGroupFrom gapMs (some e.occurredAtMs) group rest (keys.set i group)
      else none

/-- `session_keys` where an overflow is caught. -/
def checkedSessionKeys (candidates : List MemoryEntry) (gapMs : Int) : Option (List Nat) :=
  checkedGroupFrom gapMs none 0 (inTime candidates) (List.replicate candidates.length 0)

/-- How many steps between values next to each other are wider than the threshold. -/
def gaps (gapMs : Int) (line : List Int) : Nat := (steps line).countP fun s => gapMs < s.2 - s.1

/-- No step overflows, and the groups can be counted. -/
def Countable (gapMs : Int) (group : Nat) (line : List Int) : Prop :=
  (∀ s ∈ steps line, fitsI64 (s.2 - s.1) = true) ∧ group + gaps gapMs line < 2 ^ 32

section
variable {gapMs : Int}

theorem countable_cons_iff {group : Nat} {prev t : Int} {rest : List Int} :
    Countable gapMs group (prev :: t :: rest) ↔
      fitsI64 (t - prev) = true ∧ Countable gapMs (if gapMs < t - prev then group + 1 else group) (t :: rest) := by
  have hgaps : group + gaps gapMs (prev :: t :: rest) =
      (if gapMs < t - prev then group + 1 else group) + gaps gapMs (t :: rest) := by
    rw [gaps, steps, List.countP_cons, ← gaps]
    by_cases hgap : gapMs < t - prev <;> simp [hgap]
    omega
  rw [Countable, Countable, hgaps, steps, List.forall_mem_cons, and_assoc]

theorem bmod_of_fitsI64 {n : Int} (h : fitsI64 n = true) : n.bmod (2 ^ 64) = n := by
  rw [fitsI64, Bool.and_eq_true, decide_eq_true_eq, decide_eq_true_eq] at h
  unfold Int.bmod
  dsimp only
  split <;> omega

/-- The walk is caught unless nothing in it overflows, and then the overflow of the plain one does not matter. -/
theorem checkedGroupFrom_eq_some_iff {prev : Int} {group : Nat} {order : List (MemoryEntry × Nat)}
    {keys out : List Nat} (hgroup : group < 2 ^ 32) :
    checkedGroupFrom gapMs (some prev) group order keys = some out ↔
      Countable gapMs group (prev :: times order) ∧ groupFrom gapMs (some prev) group order keys = out := by
  induction order generalizing prev group keys with
  | nil =>
    have hcountable : Countable gapMs group [prev] := ⟨by simp [steps], hgroup⟩
    rw [checkedGroupFrom, groupFrom, Option.some_inj]
    exact (and_iff_right hcountable).symm
  | cons p rest ih =>
    obtain ⟨e, i⟩ := p
    change _ ↔ Countable gapMs group (prev :: e.occurredAtMs :: times rest) ∧ _
    rw [countable_cons_iff, checkedGroupFrom, groupFrom]
    by_cases hfits : fitsI64 (e.occurredAtMs - prev) = true
    · rw [if_pos hfits, and_iff_right hfits, bmod_of_fitsI64 hfits]
      by_cases hgap : gapMs < e.occurredAtMs - prev
      · rw [if_pos hgap, if_pos hgap]
        by_cases hcount : group + 1 < 2 ^ 32
        · rw [if_pos hcount]
          exact ih hcount
        · rw [if_neg hcount]
          exact iff_of_false nofun fun h => hcount (Nat.lt_of_le_of_lt (Nat.le_add_right _ _) h.1.2)
      · rw [if_neg hgap, if_neg hgap]
        exact ih hgroup
    · rw [if_neg hfits]
      exact iff_of_false nofun fun h => hfits h.1.1

theorem checkedSessionKeys_eq_some_iff {candidates : List MemoryEntry} {out : List Nat} :
    checkedSessionKeys candidates gapMs = some out ↔
      Countable gapMs 0 (times (inTime candidates)) ∧ sessionKeys candidates gapMs = out := by
  change checkedGroupFrom gapMs none 0 (inTime candidates) _ = _ ↔ _ ∧ groupFrom gapMs none 0 (inTime candidates) _ = _
  cases inTime candidates with
  | nil =>
    have hcountable : Countable gapMs 0 (times []) := ⟨by simp [steps, times], by simp [gaps, steps, times]⟩
    rw [checkedGroupFrom, groupFrom, Option.some_inj]
    exact (and_iff_right hcountable).symm
  | cons p rest =>
    rw [checkedGroupFrom, groupFrom]
    exact checkedGroupFrom_eq_some_iff (by decide)

/-! ## The keys -/

/-- A step that starts a session, as the code tells it. -/
def wideStep (gapMs : Int) (before at_ : Int) : Bool := gapMs < (at_ - before).bmod (2 ^ 64)

theorem groupFrom_eq_scatter (previous : Option Int) (group : Nat) (order : List (MemoryEntry × Nat))
    (keys : List Nat) : groupFrom gapMs previous group order keys =
      scatter keys ((order.map Prod.snd).zip (runsFrom (wideStep gapMs) previous group (times order))) := by
  induction order generalizing previous group keys with
  | nil => rfl
  | cons p rest ih =>
    obtain ⟨e, i⟩ := p
    cases previous with
    | none => exact ih _ _ _
    | some prev =>
      rw [groupFrom, ih]
      simp [times, runsFrom, scatter, wideStep]

end

/-- The keys are those of a partition: each candidate has one in its own place, later candidates have no lower
ones, and two have the same one exactly if no gap between them, from each to the next in time, is wider than
the threshold. -/
structure Partitions (candidates : List MemoryEntry) (gapMs : Int) (keys : List Nat) : Prop where
  each : keys.length = candidates.length
  all : (inTime candidates).Perm candidates.zipIdx
  sorted : (times (inTime candidates)).Pairwise (· ≤ ·)
  same : ∀ (p q : Nat) (a b : MemoryEntry × Nat), p ≤ q → (inTime candidates)[p]? = some a →
    (inTime candidates)[q]? = some b → ∃ i j, keys[a.2]? = some i ∧ keys[b.2]? = some j ∧ i ≤ j ∧
      (i = j ↔ ∀ (k : Nat) (s t : Int), p ≤ k → k < q → (times (inTime candidates))[k]? = some s →
        (times (inTime candidates))[k + 1]? = some t → t - s ≤ gapMs)

/-- No two candidates next to each other in time are further apart than an `i64` tells, and the gaps can be
counted. -/
def Spaced (candidates : List MemoryEntry) (gapMs : Int) : Prop :=
  (∀ s ∈ steps (times (inTime candidates)), s.2 - s.1 < 2 ^ 63) ∧ gaps gapMs (times (inTime candidates)) < 2 ^ 32

theorem mem_steps {instants : List Int} {k : Nat} {s t : Int} (hs : instants[k]? = some s) (ht : instants[k + 1]? = some t) :
    (s, t) ∈ steps instants := by
  induction instants generalizing k with
  | nil => cases hs
  | cons a rest ih =>
    cases rest with
    | nil => cases ht
    | cons b rest =>
      cases k with
      | zero =>
        obtain rfl := Option.some.inj hs
        obtain rfl := Option.some.inj ht
        exact List.mem_cons_self
      | succ k => exact List.mem_cons_of_mem _ (ih hs ht)

/-- Of two values next to each other in a sorted line the first is not above the second. -/
theorem le_of_mem_steps {line : List Int} (hline : line.Pairwise (· ≤ ·)) {s : Int × Int}
    (h : s ∈ steps line) : s.1 ≤ s.2 := by
  induction line with
  | nil => cases h
  | cons a rest ih =>
    obtain ⟨ha, hrest⟩ := List.pairwise_cons.mp hline
    cases rest with
    | nil => cases h
    | cons b rest =>
      rcases List.mem_cons.mp h with rfl | h
      · exact ha b List.mem_cons_self
      · exact ih hrest h

theorem sorted_times (candidates : List MemoryEntry) : (times (inTime candidates)).Pairwise (· ≤ ·) := by
  refine List.pairwise_map.mpr ((ranked_pairwise _ candidates.zipIdx).imp fun h => ?_)
  rcases Prod.Lex.le_iff.mp h with h | h
  · exact h.le
  · exact h.1.le

theorem countable_iff_spaced {candidates : List MemoryEntry} {gapMs : Int} :
    Countable gapMs 0 (times (inTime candidates)) ↔ Spaced candidates gapMs := by
  unfold Countable Spaced
  rw [Nat.zero_add]
  refine and_congr_left' (forall₂_congr fun s hs => ?_)
  have hle := le_of_mem_steps (sorted_times candidates) hs
  rw [fitsI64, Bool.and_eq_true, decide_eq_true_eq, decide_eq_true_eq]
  omega

theorem partitions_sessionKeys {candidates : List MemoryEntry} {gapMs : Int}
    (hfits : ∀ s ∈ steps (times (inTime candidates)), fitsI64 (s.2 - s.1) = true) :
    Partitions candidates gapMs (sessionKeys candidates gapMs) := by
  have hperm : (inTime candidates).Perm candidates.zipIdx := ranked_perm _ _
  have hkeys : sessionKeys candidates gapMs = scatter (List.replicate candidates.length 0)
      (((inTime candidates).map Prod.snd).zip
        (runsFrom (wideStep gapMs) none 0 (times (inTime candidates)))) :=
    groupFrom_eq_scatter ..
  have hlength : (runsFrom (wideStep gapMs) none 0 (times (inTime candidates))).length =
      ((inTime candidates).map Prod.snd).length := by
    rw [length_runsFrom, times, List.length_map, List.length_map]
  have hplaces : ((inTime candidates).map Prod.snd).Perm (List.range candidates.length) := by
    rw [List.range_eq_range', ← List.zipIdx_map_snd 0 candidates]
    exact hperm.map _
  refine ⟨?_, hperm, sorted_times candidates, fun p q a b hpq ha hb => ?_⟩
  · rw [hkeys, length_scatter, List.length_replicate]
  have hkey : ∀ {p : Nat} {a : MemoryEntry × Nat}, (inTime candidates)[p]? = some a → ∃ i,
      (runsFrom (wideStep gapMs) none 0 (times (inTime candidates)))[p]? = some i ∧
        (sessionKeys candidates gapMs)[a.2]? = some i := by
    intro p a ha
    have hplace : ((inTime candidates).map Prod.snd)[p]? = some a.2 := by rw [List.getElem?_map, ha]; rfl
    obtain ⟨hp, -⟩ := List.getElem?_eq_some_iff.mp hplace
    have hrun := List.getElem?_eq_getElem (hlength ▸ hp)
    refine ⟨_, hrun, ?_⟩
    rw [hkeys]
    refine getElem?_scatter ?_ (List.mem_of_getElem? (List.getElem?_zip_eq_some.mpr ⟨hplace, hrun⟩)) ?_
    · rw [List.map_fst_zip hlength.ge]
      exact hplaces.nodup_iff.mpr List.nodup_range
    · rw [List.length_replicate]
      exact List.mem_range.mp (hplaces.mem_iff.mp (List.mem_of_getElem? hplace))
  obtain ⟨i, hi, hki⟩ := hkey ha
  obtain ⟨j, hj, hkj⟩ := hkey hb
  obtain ⟨hle, hsame⟩ := runsFrom_eq_iff hpq hi hj
  refine ⟨i, j, hki, hkj, hle, hsame.trans ?_⟩
  have hwide : ∀ {k : Nat} {s t : Int}, (times (inTime candidates))[k]? = some s →
      (times (inTime candidates))[k + 1]? = some t → (wideStep gapMs s t = false ↔ t - s ≤ gapMs) := by
    intro k s t hs ht
    rw [wideStep, bmod_of_fitsI64 (hfits _ (mem_steps hs ht)), decide_eq_false_iff_not, Int.not_lt]
  exact ⟨fun h k s t hk hkq hs ht => (hwide hs ht).mp (h k s t hk hkq hs ht),
    fun h k s t hk hkq hs ht => (hwide hs ht).mpr (h k s t hk hkq hs ht)⟩

/-! ## The sessions that survive -/

/-- Scores without a NaN, of which the least is the one the code begins with. -/
structure OrderedScores (F : Type) [Single F] : Prop where
  above_iff : ∀ a b : F, Single.above a b = true ↔ b < a
  least : ∀ a : F, Single.negInfinity ≤ a

section
variable {F : Type}

/-- The scores these pairs have for a session. -/
def scoresOf (pairs : List (Nat × F)) (key : Nat) : List F := (pairs.filter fun p => p.1 = key).map Prod.snd

/-- A score there may be, below every other where there is none. -/
def scored (score : Option F) : WithBot F := score.elim ⊥ (↑)

theorem scored_none : scored (none : Option F) = ⊥ := rfl

theorem scored_some (score : F) : scored (some score) = score := rfl

variable [Single F]

/-- The best score of a session, if the cue scores it. -/
def best (keys : List Nat) (scores : List F) (key : Nat) : WithBot F :=
  (scoresOf (keys.zip scores) key).maximum

/-- How many sessions a cue puts before this one: those with a better score, and the earlier ones with the
same. -/
def ahead (keys : List Nat) (scores : List F) (key : Nat) : Nat :=
  keys.dedup.countP fun other =>
    best keys scores key < best keys scores other ∨
      (best keys scores key = best keys scores other ∧ other < key)

/-- The map holds the best score of each session among these. -/
def HoldsBest (pairs : List (Nat × F)) (m : OrderedMap Nat F) : Prop :=
  ∀ key, scored (m.get? key) = (scoresOf pairs key).maximum

/-- A slot that holds nothing yet takes any score, since it begins with the least. -/
theorem slot_eq_max (hscores : OrderedScores F) (held : Option F) (score : F) :
    scored (some (if Single.above score (held.getD Single.negInfinity) then score
      else held.getD Single.negInfinity)) = max (scored held) score := by
  have habove : Single.above score (held.getD Single.negInfinity) = true ↔
      held.getD Single.negInfinity < score := hscores.above_iff _ _
  rw [if_congr habove rfl rfl]
  cases held with
  | none =>
    rw [scored_none, max_eq_right bot_le]
    split
    · rfl
    · rename_i hnot
      exact congrArg _ ((hscores.least score).antisymm (not_lt.mp hnot))
  | some v =>
    by_cases hlt : v < score
    · rw [Option.getD_some, if_pos hlt, scored_some, scored_some, max_eq_right (WithBot.coe_le_coe.mpr hlt.le)]
    · rw [Option.getD_some, if_neg hlt, scored_some,
        max_eq_left (WithBot.coe_le_coe.mpr (not_lt.mp hlt))]

theorem holdsBest_bestPerSession (hscores : OrderedScores F) (keys : List Nat) (scores : List F) :
    HoldsBest (keys.zip scores) (bestPerSession keys scores) := by
  unfold bestPerSession
  induction keys.zip scores using List.reverseRecOn with
  | nil => exact fun key => rfl
  | append_singleton pairs p ih =>
    intro key
    rw [List.foldl_append, List.foldl_cons, List.foldl_nil, OrderedMap.get?_insert, scoresOf, List.filter_append,
      List.map_append]
    by_cases hkey : p.1 = key
    · subst hkey
      have hheld := ih p.1
      rw [if_pos rfl, List.filter_cons_of_pos (by simp), List.filter_nil, List.map_cons, List.map_nil,
        List.maximum_concat, ← scoresOf, ← hheld]
      exact slot_eq_max hscores _ _
    · rw [if_neg hkey, List.filter_cons_of_neg (by simpa using hkey), List.filter_nil, List.map_nil, List.append_nil]
      exact ih key

theorem scored_get?_bestPerSession (hscores : OrderedScores F) (keys : List Nat) (scores : List F) (key : Nat) :
    scored ((bestPerSession keys scores).get? key) = best keys scores key :=
  holdsBest_bestPerSession hscores keys scores key

theorem mem_bindings_iff (hscores : OrderedScores F) {keys : List Nat} {scores : List F} {key : Nat} {score : F} :
    (key, score) ∈ (bestPerSession keys scores).bindings ↔ best keys scores key = score := by
  rw [← scored_get?_bestPerSession hscores]
  constructor
  · intro h
    rw [OrderedMap.get?_of_mem_bindings _ h, scored_some]
  · intro h
    cases hget : (bestPerSession keys scores).get? key with
    | none =>
      rw [hget, scored_none] at h
      exact absurd h.symm (WithBot.coe_ne_bot)
    | some v =>
      rw [hget, scored_some, WithBot.coe_inj] at h
      exact h ▸ OrderedMap.mem_bindings_of_get? _ hget

/-- A session with a score is among the keys. -/
theorem mem_of_best {keys : List Nat} {scores : List F} {key : Nat} (h : best keys scores key ≠ ⊥) :
    key ∈ keys := by
  rw [best, Ne, List.maximum_eq_bot, scoresOf, List.map_eq_nil_iff, List.filter_eq_nil_iff] at h
  push Not at h
  obtain ⟨p, hp, hkey⟩ := h
  rw [decide_eq_true_eq] at hkey
  exact hkey ▸ (List.of_mem_zip hp).1

theorem mem_keys_bestPerSession (hscores : OrderedScores F) {keys : List Nat} {scores : List F} {key : Nat} :
    key ∈ (bestPerSession keys scores).keys ↔ best keys scores key ≠ ⊥ := by
  rw [OrderedMap.mem_keys_iff, ← scored_get?_bestPerSession hscores]
  cases (bestPerSession keys scores).get? key with
  | none => simp [scored_none]
  | some v => simp [scored_some]

/-- The code's order puts as many sessions before this one as the scores do. -/
theorem countP_bindings (hscores : OrderedScores F) (keys : List Nat) (scores : List F) {key : Nat} {score : F}
    (h : best keys scores key = score) :
    (bestPerSession keys scores).bindings.countP (fun p =>
        toLex (OrderDual.toDual p.2, p.1) < toLex (OrderDual.toDual score, key)) =
      ahead keys scores key := by
  have hbefore : ∀ p ∈ (bestPerSession keys scores).bindings,
      (decide (toLex (OrderDual.toDual p.2, p.1) < toLex (OrderDual.toDual score, key)) = true ↔
        decide (best keys scores key < best keys scores p.1 ∨
          (best keys scores key = best keys scores p.1 ∧ p.1 < key)) = true) := by
    rintro ⟨other, s⟩ hp
    rw [decide_eq_true_eq, decide_eq_true_eq, Prod.Lex.lt_iff, h, (mem_bindings_iff hscores).mp hp,
      WithBot.coe_lt_coe, WithBot.coe_inj]
    exact or_congr Iff.rfl (and_congr_left' eq_comm)
  have hkeys : (bestPerSession keys scores).keys.countP (fun other =>
      decide (best keys scores key < best keys scores other ∨
        (best keys scores key = best keys scores other ∧ other < key))) = ahead keys scores key := by
    rw [ahead, List.countP_eq_length_filter, List.countP_eq_length_filter]
    refine List.Perm.length_eq ((List.perm_ext_iff_of_nodup ((OrderedMap.keys_nodup _).filter _)
      ((List.nodup_dedup keys).filter _)).mpr fun other => ?_)
    rw [List.mem_filter, List.mem_filter, mem_keys_bestPerSession hscores, List.mem_dedup, decide_eq_true_eq]
    refine and_congr_left fun hahead => ⟨mem_of_best, fun _ hnone => ?_⟩
    rw [hnone, h] at hahead
    rcases hahead with hlt | ⟨heq, -⟩
    · exact not_lt_bot hlt
    · exact WithBot.coe_ne_bot heq
  rw [← hkeys, OrderedMap.keys, List.countP_map]
  exact List.countP_congr hbefore

/-- **The sessions that survive.** Nothing is pruned where there are no more sessions than are kept; and else a
session is kept exactly if some cue scores it and puts fewer than `n` others before it. -/
theorem mem_survivingSessions (hscores : OrderedScores F) {keys : List Nat} {cueScores : List (List F)} {n : Nat}
    {keep : List Nat} (hkeep : survivingSessions keys cueScores n = some keep) (key : Nat) :
    key ∈ keep ↔ ∃ scores ∈ cueScores, best keys scores key ≠ ⊥ ∧ ahead keys scores key < n := by
  unfold survivingSessions at hkeep
  split at hkeep
  · cases hkeep
  obtain rfl := Option.some.inj hkeep
  rw [List.mem_flatMap]
  refine exists_congr fun scores => and_congr_right fun _ => ?_
  have hdistinct : ((bestPerSession keys scores).bindings.map fun p =>
      toLex (OrderDual.toDual p.2, p.1)).Nodup := by
    refine List.Nodup.of_map (fun k => (ofLex k).2) ?_
    rw [List.map_map]
    exact OrderedMap.keys_nodup _
  constructor
  · intro hmem
    obtain ⟨⟨other, score⟩, hp, rfl⟩ := List.mem_map.mp hmem
    obtain ⟨hp, hfew⟩ := (mem_take_ranked_iff hdistinct).mp hp
    have hbest := (mem_bindings_iff hscores).mp hp
    rw [countP_bindings hscores keys scores hbest] at hfew
    exact ⟨hbest ▸ WithBot.coe_ne_bot, hfew⟩
  · rintro ⟨hscored, hfew⟩
    obtain ⟨score, hbest⟩ := WithBot.ne_bot_iff_exists.mp hscored
    rw [← countP_bindings hscores keys scores hbest.symm] at hfew
    exact List.mem_map.mpr ⟨(key, score),
      (mem_take_ranked_iff hdistinct).mpr ⟨(mem_bindings_iff hscores).mpr hbest.symm, hfew⟩, rfl⟩

/-- A session whose candidate has the best score of all, earliest of those with that score, has none before
it. -/
theorem ahead_top {keys : List Nat} {scores : List F} {key : Nat} {score : F} (hmem : (key, score) ∈ keys.zip scores)
    (htop : ∀ q ∈ keys.zip scores, q.2 < score ∨ (q.2 = score ∧ key ≤ q.1)) :
    best keys scores key = score ∧ ahead keys scores key = 0 := by
  have hle : ∀ other, best keys scores other ≤ score := by
    intro other
    refine List.maximum_le_of_forall_le fun s hs => ?_
    obtain ⟨q, hq, rfl⟩ := List.mem_map.mp hs
    rcases htop q (List.mem_of_mem_filter hq) with hlt | ⟨heq, -⟩
    · exact WithBot.coe_le_coe.mpr hlt.le
    · exact WithBot.coe_le_coe.mpr heq.le
  have hbest : best keys scores key = score := by
    refine le_antisymm (hle key) (List.le_maximum_of_mem' (List.mem_map.mpr ⟨(key, score), ?_, rfl⟩))
    exact List.mem_filter.mpr ⟨hmem, by simp⟩
  refine ⟨hbest, List.countP_eq_zero.mpr fun other _ => ?_⟩
  rw [decide_eq_true_eq, hbest]
  rintro (hlt | ⟨heq, hearlier⟩)
  · exact absurd hlt (not_lt.mpr (hle other))
  · obtain ⟨hin, -⟩ := List.maximum_eq_coe_iff.mp heq.symm
    obtain ⟨q, hq, hscore⟩ := List.mem_map.mp hin
    obtain ⟨hq, hother⟩ := List.mem_filter.mp hq
    rw [decide_eq_true_eq] at hother
    rcases htop q hq with hlt | ⟨-, hlater⟩
    · exact absurd hscore hlt.ne
    · omega

/-- What is left of the sessions: each cue's best `n` of those it scores, among them the one of its top-scoring
candidate. -/
structure KeepsBest (keys : List Nat) (cueScores : List (List F)) (n : Nat) (out : Option (List Nat)) : Prop where
  none_iff : out = none ↔ keys.dedup.length ≤ n
  kept : ∀ keep, out = some keep → ∀ key, key ∈ keep ↔
    ∃ scores ∈ cueScores, best keys scores key ≠ ⊥ ∧ ahead keys scores key < n
  top : ∀ keep, out = some keep → ∀ scores ∈ cueScores, ∀ p ∈ keys.zip scores,
    (∀ q ∈ keys.zip scores, q.2 < p.2 ∨ (q.2 = p.2 ∧ p.1 ≤ q.1)) → p.1 ∈ keep

theorem keepsBest_survivingSessions (hscores : OrderedScores F) (keys : List Nat) (cueScores : List (List F))
    {n : Nat} (hn : 1 ≤ n) : KeepsBest keys cueScores n (survivingSessions keys cueScores n) := by
  refine ⟨?_, fun keep hkeep => mem_survivingSessions hscores hkeep, fun keep hkeep scores hcue p hp htop => ?_⟩
  · unfold survivingSessions
    split
    · exact iff_of_true rfl ‹_›
    · exact iff_of_false nofun ‹_›
  · obtain ⟨hbest, hahead⟩ := ahead_top hp htop
    exact (mem_survivingSessions hscores hkeep p.1).mpr
      ⟨scores, hcue, hbest ▸ WithBot.coe_ne_bot, hahead.trans_lt hn⟩

end

/-- **Pruning by session.** The keys are computed without an overflow, and are those of a partition, exactly
if no two candidates next to each other in time are further apart than an `i64` tells. The pruning keeps each
cue's best. -/
theorem sessionKeys_iff_and_survivingSessions {F : Type} [Single F] (candidates : List MemoryEntry) (gapMs : Int)
    (keys : List Nat) (cueScores : List (List F)) (n : Nat) (hscores : OrderedScores F) (hn : 1 ≤ n) :
    ((∃ out, checkedSessionKeys candidates gapMs = some out ∧ sessionKeys candidates gapMs = out ∧
        Partitions candidates gapMs out) ↔ Spaced candidates gapMs) ∧
      KeepsBest keys cueScores n (survivingSessions keys cueScores n) := by
  refine ⟨⟨?_, fun hspaced => ?_⟩, keepsBest_survivingSessions hscores keys cueScores hn⟩
  · rintro ⟨out, hout, -⟩
    exact countable_iff_spaced.mp (checkedSessionKeys_eq_some_iff.mp hout).1
  · have hcountable := countable_iff_spaced.mpr hspaced
    exact ⟨_, checkedSessionKeys_eq_some_iff.mpr ⟨hcountable, rfl⟩, rfl, partitions_sessionKeys hcountable.1⟩

/-! ## Two far times -/

def turnAt (id : MemoryId) (occurredAtMs : Int) : MemoryEntry :=
  { id, text := "t", payloadKind := .fact, embeddingRef := none, sourceTurnId := "t"
    sourceSessionId := "s", trustClass := .userAsserted, effectiveTrust := .userAsserted
    derivation := [], originEvent := 0, occurredAtMs, createdAt := 0, lastAccessed := 0
    accessCount := 0, confidence := 1, activation := 1, fidelity := .record, silentUntil := none
    supersedes := [], supersededBy := none }

/-- The first and the last time there is: the difference overflows, and as it wraps it starts no session. -/
theorem far_times_overflow :
    (¬ ∀ (candidates : List MemoryEntry) (gapMs : Int),
        (∀ e ∈ candidates, fitsI64 e.occurredAtMs = true) → fitsI64 gapMs = true →
          ∃ out, checkedSessionKeys candidates gapMs = some out ∧ sessionKeys candidates gapMs = out ∧
            Partitions candidates gapMs out) ∧
      sessionKeys [turnAt "a" (-2 ^ 63), turnAt "b" (2 ^ 63 - 1)] sessionGapMs = [0, 0] := by
  refine ⟨fun h => ?_, by decide⟩
  obtain ⟨out, hout, -⟩ := h [turnAt "a" (-2 ^ 63), turnAt "b" (2 ^ 63 - 1)] sessionGapMs (by decide) (by decide)
  have hnone : checkedSessionKeys [turnAt "a" (-2 ^ 63), turnAt "b" (2 ^ 63 - 1)] sessionGapMs = none := by decide
  rw [hnone] at hout
  cases hout

section

local instance : Single Nat where
  negInfinity := 0
  above a b := decide (b < a)
  atLeast a b := decide (b ≤ a)

theorem two_turns_pruned :
    ((∃ out, checkedSessionKeys [turnAt "a" 0, turnAt "b" 5] sessionGapMs = some out ∧
        sessionKeys [turnAt "a" 0, turnAt "b" 5] sessionGapMs = out ∧
        Partitions [turnAt "a" 0, turnAt "b" 5] sessionGapMs out) ↔
      Spaced [turnAt "a" 0, turnAt "b" 5] sessionGapMs) ∧
      KeepsBest [0, 1] [[3, 7]] 1 (survivingSessions [0, 1] [[3, 7]] 1) :=
  sessionKeys_iff_and_survivingSessions [turnAt "a" 0, turnAt "b" 5] sessionGapMs [0, 1] [[3, 7]] 1
    ⟨fun _ _ => decide_eq_true_iff, Nat.zero_le⟩ le_rfl

end

end MarloweAgent.Memory
