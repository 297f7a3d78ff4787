import Mathlib.Data.List.Basic
import Mathlib.Data.List.MinMax
import Mathlib.Data.List.Sort

/-! A list ranked by a key: what the key puts first comes first. -/

namespace MarloweAgent.Library

variable {α κ : Type*} [LinearOrder κ] {key : α → κ} {p : α → Bool} {l : List α}

/-- A stable sort, least key first. -/
def ranked (key : α → κ) (l : List α) : List α := l.insertionSort fun a b => key a ≤ key b

theorem ranked_perm (key : α → κ) (l : List α) : (ranked key l).Perm l :=
  List.perm_insertionSort _ l

theorem ranked_pairwise (key : α → κ) (l : List α) :
    (ranked key l).Pairwise fun a b => key a ≤ key b := by
  have : Std.Total fun a b : α => key a ≤ key b := ⟨fun a b => le_total (key a) (key b)⟩
  have : IsTrans α fun a b => key a ≤ key b := ⟨fun _ _ _ => le_trans⟩
  exact List.pairwise_insertionSort _ l

/-- Where a later element has `p` only if an earlier one has it, those with `p` stand first. -/
theorem forall_take_of_countP {n : Nat} (hl : l.Pairwise fun a b => p b → p a)
    (h : n ≤ l.countP p) : ∀ a ∈ l.take n, p a := by
  induction l generalizing n with
  | nil => simp
  | cons a rest ih =>
    obtain ⟨ha, hrest⟩ := List.pairwise_cons.mp hl
    cases n with
    | zero => simp
    | succ n =>
      by_cases hp : p a
      · rw [List.countP_cons_of_pos hp] at h
        rw [List.take_succ_cons, List.forall_mem_cons]
        exact ⟨hp, ih hrest (Nat.succ_le_succ_iff.mp h)⟩
      · have hnone : rest.countP p = 0 := List.countP_eq_zero.mpr fun b hb hpb => hp (ha b hb hpb)
        rw [List.countP_cons_of_neg hp, hnone] at h
        exact absurd h (Nat.not_succ_le_zero n)

/-- If `p` decides before the rest of the key, as many of the first have it as there are. -/
theorem forall_take_ranked {n : Nat} (hkey : ∀ a ∈ l, ∀ b ∈ l, p a → ¬ p b → key a < key b)
    (h : n ≤ l.countP p) : ∀ a ∈ (ranked key l).take n, p a := by
  refine forall_take_of_countP ?_ ((ranked_perm key l).countP_eq p ▸ h)
  refine (ranked_pairwise key l).imp_of_mem fun {a b} ha hb hle hpb => ?_
  by_contra hpa
  have hlt := hkey b ((ranked_perm key l).mem_iff.mp hb) a ((ranked_perm key l).mem_iff.mp ha) hpb hpa
  exact absurd hlt (not_lt.mpr hle)

/-- Where no two elements have one key, the first few are those that few others precede. -/
theorem mem_take_ranked_iff {n : Nat} {a : α} (hkeys : (l.map key).Nodup) :
    a ∈ (ranked key l).take n ↔ a ∈ l ∧ l.countP (fun b => key b < key a) < n := by
  have hperm := ranked_perm key l
  have hstrict : (ranked key l).Pairwise fun a b => key a < key b := by
    have hne : (ranked key l).Pairwise fun a b => key a ≠ key b :=
      List.pairwise_map.mp ((hperm.map key).nodup_iff.mpr hkeys)
    exact (ranked_pairwise key l).imp₂ (fun _ _ => lt_of_le_of_ne) hne
  rw [← hperm.mem_iff, ← hperm.countP_eq]
  clear hperm
  generalize ranked key l = sorted at hstrict
  induction sorted generalizing n with
  | nil => simp
  | cons b rest ih =>
    obtain ⟨hb, hrest⟩ := List.pairwise_cons.mp hstrict
    cases n with
    | zero => simp
    | succ n =>
      have hmore : a ∈ rest.take n ↔ a ∈ rest ∧ rest.countP (fun c => key c < key a) < n := ih hrest
      rw [List.take_succ_cons, List.mem_cons, hmore, List.mem_cons, List.countP_cons]
      by_cases ha : a = b
      · obtain rfl := ha
        have hnone : rest.countP (fun c => decide (key c < key a)) = 0 :=
          List.countP_eq_zero.mpr fun c hc => by simpa using (hb c hc).le
        simp [hnone]
      · by_cases hmem : a ∈ rest
        · simp [ha, hmem, hb a hmem]
        · simp [ha, hmem]

end MarloweAgent.Library

/-! ## The two largest

The two largest values of a list, found in one pass, tell of each element the largest of the others. -/

namespace MarloweAgent.Library

variable {α : Type*} [LinearOrder α]

def takeIn (top : WithBot α × WithBot α) (a : α) : WithBot α × WithBot α :=
  if top.1 < a then (a, top.1) else if top.2 < a then (top.1, a) else top

/-- The largest value and the second one, which is the same where two elements have it. -/
def topTwo (l : List α) : WithBot α × WithBot α := l.foldl takeIn (⊥, ⊥)

/-- The largest of the others, for an element: the second value for the only one with the largest. -/
def runnerUp (top : WithBot α × WithBot α) (a : α) : WithBot α := if top.1 ≤ a ∧ top.2 < top.1 then top.2 else top.1

/-- What the two values say of a list. -/
structure TopsOf (l : List α) (top : WithBot α × WithBot α) : Prop where
  first : l.maximum = top.1
  second : top.2 ≤ top.1
  others : ∀ i a, l[i]? = some a → (l.eraseIdx i).maximum = runnerUp top a

theorem TopsOf.le {l : List α} {top : WithBot α × WithBot α} (h : TopsOf l top) {i : Nat} {a : α}
    (ha : l[i]? = some a) : (a : WithBot α) ≤ top.1 :=
  h.first ▸ List.le_maximum_of_mem' (List.mem_of_getElem? ha)

theorem runnerUp_le {top : WithBot α × WithBot α} (h : top.2 ≤ top.1) (a : α) : runnerUp top a ≤ top.1 := by
  unfold runnerUp
  split
  · exact h
  · exact le_rfl

theorem le_runnerUp {top : WithBot α × WithBot α} (h : top.2 ≤ top.1) (a : α) : top.2 ≤ runnerUp top a := by
  unfold runnerUp
  split
  · exact le_rfl
  · exact h

/-- A value that is taken in competes with each element before it. -/
theorem runnerUp_takeIn {top : WithBot α × WithBot α} (h : top.2 ≤ top.1) {a x : α} (ha : (a : WithBot α) ≤ top.1) :
    runnerUp (takeIn top x) a = max (runnerUp top a) x := by
  unfold takeIn
  by_cases hfirst : top.1 < x
  · have hnot : ¬ ((x : WithBot α) ≤ a ∧ top.1 < x) := fun hx => absurd (hx.1.trans ha) (not_le.mpr hfirst)
    rw [if_pos hfirst, max_eq_right ((runnerUp_le h a).trans hfirst.le)]
    exact if_neg hnot
  rw [if_neg hfirst]
  by_cases hsecond : top.2 < x
  · rw [if_pos hsecond]
    unfold runnerUp
    dsimp only
    by_cases hsole : top.1 ≤ a ∧ top.2 < top.1
    · rw [if_pos hsole, max_eq_right hsecond.le]
      by_cases hbelow : (x : WithBot α) < top.1
      · rw [if_pos ⟨hsole.1, hbelow⟩]
      · rw [if_neg fun hx => hbelow hx.2]
        exact le_antisymm (not_lt.mp hbelow) (not_lt.mp hfirst)
    · rw [if_neg hsole, max_eq_left (not_lt.mp hfirst)]
      exact if_neg fun hx => hsole ⟨hx.1, hsecond.trans hx.2⟩
  · rw [if_neg hsecond, max_eq_left ((not_lt.mp hsecond).trans (le_runnerUp h a))]

/-- The largest of all values is the runner-up of a value that is taken in. -/
theorem runnerUp_takeIn_self (top : WithBot α × WithBot α) (x : α) : runnerUp (takeIn top x) x = top.1 := by
  unfold takeIn
  by_cases hfirst : top.1 < x
  · rw [if_pos hfirst]
    exact if_pos ⟨le_rfl, hfirst⟩
  rw [if_neg hfirst]
  by_cases hsecond : top.2 < x
  · rw [if_pos hsecond]
    exact if_neg fun hx => absurd hx.2 (not_lt.mpr hx.1)
  · rw [if_neg hsecond]
    exact if_neg fun hx => hsecond (hx.2.trans_le hx.1)

theorem takeIn_fst (top : WithBot α × WithBot α) (x : α) : (takeIn top x).1 = max top.1 x := by
  unfold takeIn
  by_cases hfirst : top.1 < x
  · rw [if_pos hfirst, max_eq_right hfirst.le]
  · rw [if_neg hfirst, max_eq_left (not_lt.mp hfirst)]
    split <;> rfl

theorem takeIn_snd_le {top : WithBot α × WithBot α} (h : top.2 ≤ top.1) (x : α) :
    (takeIn top x).2 ≤ (takeIn top x).1 := by
  unfold takeIn
  by_cases hfirst : top.1 < x
  · rw [if_pos hfirst]
    exact hfirst.le
  · rw [if_neg hfirst]
    split
    · exact not_lt.mp hfirst
    · exact h

theorem TopsOf.concat {l : List α} {top : WithBot α × WithBot α} (h : TopsOf l top) (x : α) :
    TopsOf (l ++ [x]) (takeIn top x) := by
  refine ⟨?_, takeIn_snd_le h.second x, fun i a ha => ?_⟩
  · rw [List.maximum_concat, h.first, takeIn_fst]
  rcases Nat.lt_or_ge i l.length with hi | hi
  · rw [List.getElem?_append_left hi] at ha
    rw [List.eraseIdx_append_of_lt_length hi, List.maximum_concat, h.others i a ha, runnerUp_takeIn h.second (h.le ha)]
  · obtain ⟨hlt, -⟩ := List.getElem?_eq_some_iff.mp ha
    obtain rfl : i = l.length := Nat.le_antisymm (Nat.lt_succ_iff.mp (by simpa using hlt)) hi
    rw [List.getElem?_concat_length] at ha
    obtain rfl := Option.some.inj ha
    rw [List.eraseIdx_append_of_length_le le_rfl, Nat.sub_self, List.eraseIdx_cons_zero, List.append_nil, h.first,
      runnerUp_takeIn_self]

theorem topsOf_topTwo (l : List α) : TopsOf l (topTwo l) := by
  induction l using List.reverseRecOn with
  | nil => exact ⟨rfl, le_rfl, fun i a h => nomatch h⟩
  | append_singleton l x ih =>
    rw [topTwo, List.foldl_append]
    exact ih.concat x

end MarloweAgent.Library

/-! ## Binary search

The binary search for the place where a property ends, in a list where nothing behind a place without
it has it. -/

namespace MarloweAgent.Library

variable {α : Type*}

/-- The search between two places, with at most so many looks. -/
def bisect (p : α → Bool) (l : List α) : Nat → Nat → Nat → Nat
  | 0, low, _ => low
  | looks + 1, low, high =>
    if low < high then
      let mid := low + (high - low) / 2
      if l[mid]?.any p then bisect p l looks (mid + 1) high else bisect p l looks low mid
    else low

/-- The first place of an element without the property. -/
def partitionPoint (p : α → Bool) (l : List α) : Nat := bisect p l l.length 0 l.length

/-- Nothing behind an element without the property has it. -/
def Partitioned (p : α → Bool) (l : List α) : Prop := l.Pairwise fun a b => p b = true → p a = true

/-- The place that is searched for is between these. -/
structure Between (p : α → Bool) (l : List α) (low high : Nat) : Prop where
  le : low ≤ high
  inside : high ≤ l.length
  below : ∀ i a, i < low → l[i]? = some a → p a = true
  beyond : ∀ i a, high ≤ i → l[i]? = some a → p a = false

section
variable {p : α → Bool} {l : List α} {low high : Nat}

theorem Partitioned.of_le (h : Partitioned p l) {i j : Nat} {a b : α} (hij : i ≤ j) (ha : l[i]? = some a)
    (hb : l[j]? = some b) (hp : p b = true) : p a = true := by
  rcases Nat.lt_or_eq_of_le hij with hlt | rfl
  · obtain ⟨hi, rfl⟩ := List.getElem?_eq_some_iff.mp ha
    obtain ⟨hj, rfl⟩ := List.getElem?_eq_some_iff.mp hb
    exact List.pairwise_iff_getElem.mp h i j hi hj hlt hp
  · obtain rfl := Option.some.inj (ha.symm.trans hb)
    exact hp

/-- A look at a place with the property moves the lower bound behind it, and at one without it the upper bound
to it. -/
theorem Between.look (hl : Partitioned p l) (h : Between p l low high) {mid : Nat} (hlow : low ≤ mid)
    (hhigh : mid < high) :
    (l[mid]?.any p = true → Between p l (mid + 1) high) ∧ (l[mid]?.any p = false → Between p l low mid) := by
  have hmid := List.getElem?_eq_getElem (Nat.lt_of_lt_of_le hhigh h.inside)
  rw [hmid]
  refine ⟨fun hp => ⟨hhigh, h.inside, fun i a hi ha => ?_, h.beyond⟩,
    fun hp => ⟨hlow, Nat.le_of_lt (Nat.lt_of_lt_of_le hhigh h.inside), h.below, fun i a hi ha => ?_⟩⟩
  · exact hl.of_le (Nat.lt_succ_iff.mp hi) ha hmid hp
  · by_contra hpa
    rw [Bool.not_eq_false] at hpa
    have hmidp := hl.of_le hi hmid ha hpa
    rw [Option.any_some, hmidp] at hp
    cases hp

theorem between_bisect (hl : Partitioned p l) (looks : Nat) (h : Between p l low high)
    (henough : high - low ≤ looks) : Between p l (bisect p l looks low high) (bisect p l looks low high) := by
  induction looks generalizing low high with
  | zero =>
    obtain rfl : low = high := Nat.le_antisymm h.le (Nat.sub_eq_zero_iff_le.mp (Nat.le_zero.mp henough))
    exact h
  | succ looks ih =>
    rw [bisect]
    split
    · rename_i hlt
      have hbounds : low ≤ low + (high - low) / 2 ∧ low + (high - low) / 2 < high := by omega
      obtain ⟨hhas, hhasNot⟩ := h.look hl hbounds.1 hbounds.2
      dsimp only
      split
      · rename_i hp
        exact ih (hhas hp) (by omega)
      · rename_i hp
        exact ih (hhasNot (Bool.eq_false_iff.mpr hp)) (by omega)
    · rename_i hnot
      obtain rfl : low = high := Nat.le_antisymm h.le (Nat.not_lt.mp hnot)
      exact h

/-- What stands before the place that is found has the property, and what stands there or behind has not. -/
theorem between_partitionPoint (hl : Partitioned p l) :
    Between p l (partitionPoint p l) (partitionPoint p l) := by
  refine between_bisect hl l.length ⟨Nat.zero_le _, Nat.le_refl _, fun i a hi => absurd hi (Nat.not_lt_zero i), ?_⟩ (Nat.le_refl _)
  intro i a hi ha
  obtain ⟨hlt, -⟩ := List.getElem?_eq_some_iff.mp ha
  exact absurd hlt (Nat.not_lt.mpr hi)

end

end MarloweAgent.Library
