import MarloweAgent.Library.Agglomeration
import MarloweAgent.Memory.Identity
import Mathlib.Data.Prod.Lex

/-! What a consolidation merges. The parents of the clustering are a forest, its groups are the
classes of the roots, and walking the proposals is greedy agglomeration under complete linkage. -/

namespace MarloweAgent.Memory
open Contract EventLog Library

namespace Similarities

variable (s : Similarities) {threshold : Rat} {f : Forest} {parent : List Nat}

/-! ## The parents are a forest -/

/-- The parents of the positions are those of the forest, and no other position has one. -/
def Represents (f : Forest) (parent : List Nat) : Prop := ∀ x, parent.getD x x = f.up x

theorem getD_set (parent : List Nat) {x : Nat} (hx : x < parent.length) (v y : Nat) :
    (parent.set x v).getD y y = Function.update (fun y => parent.getD y y) x v y := by
  by_cases h : y = x
  · subst h
    simp [List.getD_eq_getElem?_getD, hx]
  · simp [List.getD_eq_getElem?_getD, Function.update_of_ne h, List.getElem?_set_ne (Ne.symm h)]

theorem represents_range (n : Nat) : Represents .discrete (List.range n) := by
  intro x
  by_cases h : x < n <;> simp [List.getD_eq_getElem?_getD, h, Forest.discrete]

theorem Represents.lt_length (h : Represents f parent) {x : Nat} (hx : f.up x ≠ x) :
    x < parent.length := by
  by_contra hout
  refine hx ?_
  rw [← h x, List.getD_eq_getElem?_getD, List.getElem?_eq_none (Nat.le_of_not_lt hout),
    Option.getD_none]

theorem Represents.lt_of_root (h : Represents f parent) {x : Nat} (hx : f.root x < parent.length) :
    x < parent.length := by
  by_cases hup : f.up x = x
  · rwa [f.root_of_up_eq hup] at hx
  · exact h.lt_length hup

/-- `find` ends at the root and leaves the roots where they are. -/
theorem find_spec (h : Represents f parent) {fuel x : Nat} (hx : x ≤ fuel ∨ f.up x = x) :
    (find fuel parent x).1 = f.root x ∧ (find fuel parent x).2.length = parent.length ∧
      ∃ f' : Forest, f'.root = f.root ∧ Represents f' (find fuel parent x).2 := by
  induction fuel generalizing f parent x with
  | zero =>
    have hroot : f.up x = x := hx.elim (fun h0 => Nat.le_antisymm (f.up_le x) (by omega)) id
    exact ⟨(f.root_of_up_eq hroot).symm, rfl, f, rfl, h⟩
  | succ fuel ih =>
    rw [find]
    dsimp only
    rw [h x, h (f.up x)]
    by_cases hup : f.up x = x
    · rw [if_pos hup]
      exact ⟨(f.root_of_up_eq hup).symm, rfl, f, rfl, h⟩
    · have hlt : f.up x < x := Nat.lt_of_le_of_ne (f.up_le x) hup
      have hin := h.lt_length hup
      have hhalve : Represents (f.halve x) (parent.set x (f.up (f.up x))) := by
        intro y
        rw [getD_set parent hin, funext h]
        rfl
      have hnext : (f.halve x).up x = f.up (f.up x) := Function.update_self ..
      have hfuel : f.up (f.up x) ≤ fuel := by
        have := f.up_le (f.up x)
        have : f.up x < x := hlt
        have : x ≤ fuel + 1 := hx.resolve_right hup
        omega
      obtain ⟨hroot, hlength, f', hf', hrep⟩ := ih hhalve (.inl hfuel)
      rw [if_neg hup, hhalve x, hnext]
      rw [f.root_halve] at hroot hf'
      refine ⟨?_, by rw [hlength, List.length_set], f', hf', hrep⟩
      rw [hroot, f.root_up, f.root_up]

/-- The class of a position. -/
def rootIn (parent : List Nat) (x : Nat) : Nat := (find parent.length parent x).1

theorem Represents.find (h : Represents f parent) (x : Nat) :
    (find parent.length parent x).1 = f.root x ∧
      (find parent.length parent x).2.length = parent.length ∧
      ∃ f' : Forest, f'.root = f.root ∧ Represents f' (find parent.length parent x).2 := by
  refine find_spec h ?_
  by_cases hup : f.up x = x
  · exact .inr hup
  · exact .inl (h.lt_length hup).le

theorem Represents.rootIn (h : Represents f parent) : rootIn parent = f.root :=
  funext fun x => (h.find x).1

/-! ## One proposed merge -/

/-- Each root below `n` has its class as its group. -/
def Grouped (n : Nat) (root : Nat → Nat) (group : OrderedMap Nat (List Nat)) : Prop :=
  ∀ r, r < n → root r = r → ∃ l, group.get? r = some l ∧ ∀ y, y ∈ l ↔ root y = r

/-- The parents and the groups of the loop agree. -/
def Consistent (n : Nat) (state : List Nat × OrderedMap Nat (List Nat)) : Prop :=
  state.1.length = n ∧ ∃ f, Represents f state.1 ∧ Grouped n f.root state.2

/-- The pair clears the threshold. -/
def Clears (threshold : Rat) (x y : Nat) : Prop := threshold ≤ s.similarityOf x y

theorem similarityOf_comm (x y : Nat) : s.similarityOf x y = s.similarityOf y x := by
  unfold similarityOf
  rw [min_comm, max_comm]

theorem Clears.symm ⦃x y : Nat⦄ (h : s.Clears threshold x y) : s.Clears threshold y x := by
  rwa [Clears, similarityOf_comm]

/-- Joining the groups of two roots. -/
theorem Grouped.join {n keep drop : Nat} {root root' : Nat → Nat}
    {group : OrderedMap Nat (List Nat)} (h : Grouped n root group) (hk : keep < n) (hd : drop < n)
    (hkeep : root keep = keep) (hdrop : root drop = drop) (hne : keep ≠ drop)
    (hroot : ∀ y, root' y = if root y = drop then keep else root y) :
    Grouped n root' ((group.erase drop).insert keep
      ((((group.erase drop).get? keep).getD [] ++ (group.get? drop).getD []).mergeSort
        (· ≤ ·))) := by
  obtain ⟨kept, hkept, hmemKept⟩ := h keep hk hkeep
  obtain ⟨moved, hmoved, hmemMoved⟩ := h drop hd hdrop
  intro r hr hrr
  rw [hroot] at hrr
  rw [OrderedMap.get?_insert]
  by_cases hrk : keep = r
  · subst hrk
    refine ⟨_, if_pos rfl, fun y => ?_⟩
    rw [List.mem_mergeSort, OrderedMap.get?_erase, if_neg hne.symm, hkept, hmoved, List.mem_append,
      Option.getD_some, Option.getD_some, hmemKept, hmemMoved, hroot]
    split
    next hy => simp [hy]
    next hy => simp [hy]
  · have hrd : root r ≠ drop := by
      intro heq
      rw [if_pos heq] at hrr
      exact hrk hrr
    rw [if_neg hrd] at hrr
    obtain ⟨l, hl, hmem⟩ := h r hr hrr
    refine ⟨l, ?_, fun y => ?_⟩
    · rw [if_neg hrk, OrderedMap.get?_erase, if_neg (fun heq => hrd (hrr.trans heq.symm)), hl]
    · rw [hmem, hroot]
      split
      next hy =>
        rw [hy]
        exact iff_of_false (fun heq => hrd (hrr.trans heq.symm)) hrk
      next => rfl

/-- The two roots `uniteComplete` works on, and the parents the finds leave. -/
theorem Consistent.finds {n i j : Nat} {group : OrderedMap Nat (List Nat)}
    (h : Consistent n (parent, group)) :
    ∃ (f : Forest) (mid parent' : List Nat), Represents f parent' ∧ parent'.length = n ∧
      rootIn parent = f.root ∧ Grouped n f.root group ∧
      Similarities.find parent.length parent i = (f.root i, mid) ∧
      Similarities.find mid.length mid j = (f.root j, parent') := by
  obtain ⟨hlength, f, hf, hgroup⟩ := h
  obtain ⟨hi, hlengthI, fi, hfi, hrepI⟩ := hf.find i
  obtain ⟨hj, hlengthJ, fj, hfj, hrepJ⟩ := hrepI.find j
  refine ⟨fj, _, _, hrepJ, hlengthJ.trans (hlengthI.trans hlength), ?_, ?_, Prod.ext ?_ rfl,
    Prod.ext ?_ rfl⟩
  · rw [hf.rootIn, hfj, hfi]
  · rwa [hfj, hfi]
  · rw [hi, hfj, hfi]
  · rw [hj, hfj]

theorem all_clears_iff {left right : List Nat} :
    (left.all fun x => right.all fun y => decide (threshold ≤ s.similarityOf x y)) = true ↔
      ∀ x ∈ left, ∀ y ∈ right, s.Clears threshold x y := by
  simp [List.all_eq_true, Clears]

/-- **One proposed merge** keeps the groups in step with the parents and is an attempt of the
agglomeration. -/
theorem uniteComplete_attempt {n i j : Nat} {c : Rat} {state : List Nat × OrderedMap Nat (List Nat)}
    (h : Consistent n state) (hi : i < n) (hj : j < n) :
    Consistent n (s.uniteComplete threshold state (i, j, c)) ∧
      Attempt (s.Clears threshold) i j (rootIn state.1)
        (rootIn (s.uniteComplete threshold state (i, j, c)).1) := by
  obtain ⟨parent, group⟩ := state
  obtain ⟨f, mid, parent', hrep, hlength, hclasses, hgroup, hfindI, hfindJ⟩ :=
    h.finds (i := i) (j := j)
  have hia : f.root i < n := (f.root_le i).trans_lt hi
  have hjb : f.root j < n := (f.root_le j).trans_lt hj
  obtain ⟨left, hleft, hmemLeft⟩ := hgroup _ hia (f.root_root i)
  obtain ⟨right, hright, hmemRight⟩ := hgroup _ hjb (f.root_root j)
  have hstays : Consistent n (parent', group) := ⟨hlength, f, hrep, hgroup⟩
  unfold uniteComplete
  simp only [hfindI, hfindJ, hleft, hright, Option.getD_some]
  rw [hclasses]
  split
  next hsame =>
    rw [hrep.rootIn]
    exact ⟨hstays, .skip (.inl hsame)⟩
  next hne =>
    split
    next hno =>
      rw [hrep.rootIn]
      refine ⟨hstays, .skip (.inr ?_)⟩
      rw [Bool.not_eq_true', ← Bool.not_eq_true, all_clears_iff] at hno
      simp only [not_forall] at hno
      obtain ⟨x, hx, y, hy, hxy⟩ := hno
      exact ⟨x, y, (hmemLeft x).mp hx, (hmemRight y).mp hy, hxy⟩
    next hyes =>
      rw [Bool.not_eq_true', Bool.not_eq_false, all_clears_iff] at hyes
      have hle : min (f.root i) (f.root j) ≤ max (f.root i) (f.root j) := min_le_max
      have hkeep : f.root (min (f.root i) (f.root j)) = min (f.root i) (f.root j) := by
        rcases min_choice (f.root i) (f.root j) with hm | hm <;> rw [hm, f.root_root]
      have hdrop : f.root (max (f.root i) (f.root j)) = max (f.root i) (f.root j) := by
        rcases max_choice (f.root i) (f.root j) with hm | hm <;> rw [hm, f.root_root]
      have hd : max (f.root i) (f.root j) < n := max_lt hia hjb
      have hlink : Represents (f.link _ _ hle)
          (parent'.set (max (f.root i) (f.root j)) (min (f.root i) (f.root j))) := by
        intro y
        rw [getD_set parent' (hlength.symm ▸ hd), funext hrep]
        rfl
      have hroot := f.root_link hle (f.up_eq_iff.mpr hkeep) (f.up_eq_iff.mpr hdrop)
      have hmerged := hgroup.join (hle.trans_lt hd) hd hkeep hdrop (by omega) hroot
      refine ⟨⟨by rw [List.length_set, hlength], _, hlink, hmerged⟩, ?_⟩
      rw [hlink.rootIn]
      refine .join (Clears.symm s) (fun x y hx hy => ?_) ?_ (fun x y hxy => ?_) fun x y hxy => ?_
      · exact hyes x ((hmemLeft x).mpr hx) y ((hmemRight y).mpr hy)
      · rw [hroot, hroot]
        rcases le_total (f.root i) (f.root j) with hij | hij <;> simp [hij]
      · rw [hroot, hroot, hxy]
      · rw [hroot, hroot] at hxy
        rcases le_total (f.root i) (f.root j) with hij | hij
        · simp only [min_eq_left hij, max_eq_right hij] at hxy
          split at hxy <;> split at hxy <;> omega
        · simp only [min_eq_right hij, max_eq_left hij] at hxy
          split at hxy <;> split at hxy <;> omega

/-! ## All proposals -/

/-- The recorded pairs are of different positions, the smaller first. -/
def InRange : Prop := ∀ e ∈ s.edges, e.1 < e.2.1 ∧ e.2.1 < s.ids.length

/-- A pair that clears a positive threshold is recorded, at a similarity that clears it. -/
theorem Clears.edge (hpos : 0 < threshold) {x y : Nat} (h : s.Clears threshold x y) :
    ∃ c, threshold ≤ c ∧ (min x y, max x y, c) ∈ s.edges := by
  unfold Clears similarityOf at h
  split at h
  · exact absurd h (not_le.mpr hpos)
  next e he =>
    obtain ⟨hmem, hends⟩ := List.mem_filter.mp (List.mem_of_getLast? he)
    simp only [Bool.and_eq_true, beq_iff_eq] at hends
    exact ⟨e.2.2, h, by rw [← hends.1, ← hends.2]; exact hmem⟩

theorem consistent_start (n : Nat) :
    Consistent n (List.range n,
      (List.range n).foldl (fun group i => group.insert i [i]) OrderedMap.empty) := by
  refine ⟨List.length_range, .discrete, represents_range n, fun r hr _ => ⟨[r], ?_, fun y => ?_⟩⟩
  · have hall : ∀ p ∈ (List.range n).map fun i => (i, [i]), some [p.1] = some p.2 := by
      intro p hp
      obtain ⟨i, -, rfl⟩ := List.mem_map.mp hp
      rfl
    have hget := OrderedMap.get?_foldl_insert (fun k => some [k]) hall OrderedMap.empty r
    rw [List.foldl_map] at hget
    rw [hget, if_pos (by simpa using hr)]
  · simp

/-- **The whole walk**: class mates clear the threshold, and two classes always have a cross pair
that does not. -/
theorem unions_complete (hpos : 0 < threshold) (hin : s.InRange) :
    (s.unions threshold .complete).length = s.ids.length ∧
      ∃ f, Represents f (s.unions threshold .complete) ∧
        Complete (s.Clears threshold) f.root ∧
        ∀ ⦃x y⦄, f.root x ≠ f.root y →
          ∃ x' y', f.root x' = f.root x ∧ f.root y' = f.root y ∧ ¬ s.Clears threshold x' y' := by
  have hstart : Complete (s.Clears threshold) (rootIn (List.range s.ids.length)) := by
    intro x y hxy hne
    rw [(represents_range s.ids.length).rootIn] at hxy
    exact absurd (by simpa using hxy) hne
  obtain ⟨hlast, hcomplete, -, hsettled⟩ := attempts (fun state => rootIn state.1)
    (fun p => (p.1, p.2.1)) (s.uniteComplete threshold)
    ((s.edges.filter fun e => threshold ≤ e.2.2).mergeSort proposedBefore)
    (fun state p hp hstate => by
      obtain ⟨hlt, hn⟩ := hin p (List.mem_filter.mp (List.mem_mergeSort.mp hp)).1
      exact s.uniteComplete_attempt (c := p.2.2) hstate (hlt.trans hn) hn)
    (consistent_start s.ids.length) hstart
  obtain ⟨hlength, f, hrep, -⟩ := hlast
  rw [hrep.rootIn] at hcomplete hsettled
  refine ⟨hlength, f, hrep, hcomplete, fun x y hne => exists_unlinked (fun x y hxy => ?_) hne⟩
  obtain ⟨c, hc, hmem⟩ := hxy.edge s hpos
  have hmin := hsettled (min x y, max x y, c)
    (List.mem_mergeSort.mpr (List.mem_filter.mpr ⟨hmem, by simpa using hc⟩))
  rcases le_total x y with hle | hle
  · simpa only [min_eq_left hle, max_eq_right hle] using hmin
  · simp only [min_eq_right hle, max_eq_left hle] at hmin
    exact hmin.symm (Clears.symm s)

/-! ## The groups -/

/-- The positions below `n` under one root, in order. -/
def classOf (f : Forest) (n r : Nat) : List Nat := (List.range n).filter (f.root · = r)

theorem mem_classOf {n r x : Nat} : x ∈ classOf f n r ↔ x < n ∧ f.root x = r := by
  simp [classOf]

theorem roots_eq (h : Represents f parent) (positions : List Nat) :
    roots parent positions = positions.map fun i => (i, f.root i) := by
  induction positions generalizing f parent with
  | nil => rfl
  | cons i rest ih =>
    obtain ⟨hroot, -, f', hf', hrep⟩ := h.find i
    rw [roots, List.map_cons]
    dsimp only
    rw [ih hrep, hf', hroot]

/-- The groups are the classes of the roots. -/
theorem get?_members (h : Represents f parent) (n r : Nat) {group : List Nat}
    (hr : (members parent n).get? r = some group) : group = classOf f n r ∧ group ≠ [] := by
  have hcollect := OrderedMap.get?_foldl_collect (roots parent (List.range n)) OrderedMap.empty r
  have hsome := OrderedMap.isSome_get?_foldl_collect (roots parent (List.range n)) OrderedMap.empty r
  rw [← members, hr] at hcollect hsome
  simp only [roots_eq h, List.filter_map, List.map_map, Function.comp_def, Option.getD_some,
    OrderedMap.get?_empty, Option.getD_none, List.nil_append, List.map_id'] at hcollect
  simp only [roots_eq h, Option.isSome_some, OrderedMap.get?_empty, Option.isSome_none,
    Bool.false_eq_true, false_or, List.mem_map, true_iff] at hsome
  obtain ⟨p, ⟨i, hi, rfl⟩, hp⟩ := hsome
  refine ⟨hcollect, List.ne_nil_of_mem (a := i) ?_⟩
  rw [hcollect]
  exact List.mem_filter.mpr ⟨hi, by simpa using hp⟩

theorem exists_members (h : Represents f parent) {n x : Nat} (hx : x < n) :
    (members parent n).get? (f.root x) = some (classOf f n (f.root x)) := by
  have hsome : ((members parent n).get? (f.root x)).isSome := by
    rw [members, OrderedMap.isSome_get?_foldl_collect, roots_eq h]
    exact .inr ⟨(x, f.root x), List.mem_map.mpr ⟨x, List.mem_range.mpr hx, rfl⟩, rfl⟩
  obtain ⟨group, hgroup⟩ := Option.isSome_iff_exists.mp hsome
  rw [hgroup, (get?_members h n _ hgroup).1]

theorem nodup_classOf (f : Forest) (n r : Nat) : (classOf f n r).Nodup := List.nodup_range.filter _

theorem classOf_disjoint {n r r' : Nat} (hne : r ≠ r') :
    (classOf f n r).Disjoint (classOf f n r') := by
  intro x hx hx'
  exact hne ((mem_classOf.mp hx).2.symm.trans (mem_classOf.mp hx').2)

theorem mem_members (h : Represents f parent) {n : Nat} {group : List Nat}
    (hg : group ∈ (members parent n).values) : ∃ r, group = classOf f n r := by
  obtain ⟨r, hr⟩ := (OrderedMap.mem_values_iff _ _).mp hg
  exact ⟨r, (get?_members h n r hr).1⟩

theorem members_pairwise (h : Represents f parent) (n : Nat) :
    (members parent n).values.Pairwise List.Disjoint := by
  rw [OrderedMap.values, List.pairwise_map]
  refine (members parent n).sorted.imp_of_mem fun {p q} hp hq hlt => ?_
  rw [(get?_members h n p.1 ((members parent n).get?_of_mem_bindings hp)).1,
    (get?_members h n q.1 ((members parent n).get?_of_mem_bindings hq)).1]
  exact classOf_disjoint (ne_of_lt hlt)

/-! ## The election -/

/-- The later append, then the smaller id. -/
def rank (x : Nat) : Lex (Seq × OrderDual MemoryId) := toLex (s.originAt x, OrderDual.toDual (s.idAt x))

theorem outranks_iff (a b : Nat) : s.outranks a b = true ↔ s.rank b < s.rank a := by
  rw [rank, rank, Prod.Lex.toLex_lt_toLex, OrderDual.toDual_lt_toDual, outranks]
  simp only [Bool.or_eq_true, Bool.and_eq_true, decide_eq_true_eq, beq_iff_eq]
  rw [eq_comm (a := s.originAt a)]

/-- The elected member has the highest rank of all. -/
theorem elect_spec (first : Nat) (rest : List Nat) :
    s.elect first rest ∈ first :: rest ∧
      ∀ y ∈ first :: rest, s.rank y ≤ s.rank (s.elect first rest) := by
  induction rest generalizing first with
  | nil => simp [elect]
  | cons y rest ih =>
    obtain ⟨best, hbest, hfirst, hy, helect⟩ : ∃ best, (best = first ∨ best = y) ∧
        s.rank first ≤ s.rank best ∧ s.rank y ≤ s.rank best ∧
        s.elect first (y :: rest) = s.elect best rest := by
      by_cases hout : s.outranks first y = true
      · exact ⟨first, .inl rfl, le_rfl, ((s.outranks_iff first y).mp hout).le, by simp [elect, hout]⟩
      · have hle : s.rank first ≤ s.rank y :=
          not_lt.mp fun hlt => hout ((s.outranks_iff first y).mpr hlt)
        exact ⟨y, .inr rfl, hle, le_rfl, by simp [elect, hout]⟩
    obtain ⟨hmem, hall⟩ := ih best
    have htop : s.rank best ≤ s.rank (s.elect best rest) := hall best List.mem_cons_self
    rw [helect]
    refine ⟨?_, fun z hz => ?_⟩
    · rcases List.mem_cons.mp hmem with heq | hin
      · rw [heq]
        rcases hbest with rfl | rfl <;> simp
      · exact List.mem_cons_of_mem _ (List.mem_cons_of_mem _ hin)
    · rcases List.mem_cons.mp hz with rfl | hz
      · exact hfirst.trans htop
      · rcases List.mem_cons.mp hz with rfl | hz
        · exact hy.trans htop
        · exact hall z (List.mem_cons_of_mem _ hz)

/-- A group of at least two elects its highest rank and merges the rest. -/
theorem clusterOf_spec {group : List Nat} {c : Cluster} (h : s.clusterOf group = some c) :
    ∃ winner ∈ group, c.representative = s.idAt winner ∧
      c.merged.Perm ((group.filter (· ≠ winner)).map s.idAt) ∧
      ∀ y ∈ group, s.rank y ≤ s.rank winner := by
  unfold clusterOf at h
  split at h
  next first second rest =>
    cases h
    obtain ⟨hmem, hall⟩ := s.elect_spec first (second :: rest)
    exact ⟨_, hmem, rfl, (List.mergeSort_perm _ _).map _, hall⟩
  next => cases h

theorem exists_clusterOf {group : List Nat} {x y : Nat} (hx : x ∈ group) (hy : y ∈ group)
    (hne : x ≠ y) : ∃ c, s.clusterOf group = some c := by
  match group, hx, hy with
  | [a], hx, hy =>
    rw [List.mem_singleton.mp hx, List.mem_singleton.mp hy] at hne
    exact absurd rfl hne
  | first :: second :: rest, _, _ => exact ⟨_, rfl⟩

end Similarities

end MarloweAgent.Memory
