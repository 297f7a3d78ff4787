import MarloweAgent.Memory.Clusters
import MarloweAgent.Memory.Supersession
import Mathlib.Data.List.Pairwise

/-! Complete linkage, in terms of the memories: the clusters of a plan are disjoint, alike
throughout and as large as they can be, each keeps its latest member, and carrying the plan out
supersedes nothing by a belief that it supersedes too. -/

namespace MarloweAgent.Memory
open Contract EventLog Library

/-! ## Pairs -/

/-- Everyone in the cluster. -/
def Cluster.ids (c : Cluster) : List MemoryId := c.representative :: c.merged

theorem Similarities.clusterOf_ids (s : Similarities) {group : List Nat} {c : Cluster}
    (h : s.clusterOf group = some c) (hnodup : group.Nodup) : c.ids.Perm (group.map s.idAt) := by
  obtain ⟨winner, hwinner, hrep, hmerged, -⟩ := s.clusterOf_spec h
  have hsplit : group.Perm (winner :: group.filter (· ≠ winner)) := by
    have herase := List.perm_cons_erase hwinner
    rw [hnodup.erase_eq_filter] at herase
    rwa [List.filter_congr (q := (· != winner)) fun y _ => by simp [bne, Bool.beq_eq_decide_eq]]
  rw [Cluster.ids, hrep]
  exact (hmerged.cons _).trans (hsplit.map s.idAt).symm

/-- The vectors of the two are at or above the threshold, compared in id order. A memory without
a vector is like no other. -/
def VectorStore.Alike (vectors : VectorStore) (threshold : Rat) (a b : MemoryId) : Prop :=
  ∃ va vb, vectors.get (min a b) = some va ∧ vectors.get (max a b) = some vb ∧
    threshold ≤ vectors.cosine va vb

theorem VectorStore.Alike.symm {vectors : VectorStore} {threshold : Rat} {a b : MemoryId}
    (h : vectors.Alike threshold a b) : vectors.Alike threshold b a := by
  rwa [VectorStore.Alike, min_comm, max_comm]

/-! ## The scan -/

section Scan

variable (beliefs : BeliefStore) (sessionId : String) (vectors : VectorStore)

/-- The scan is in id order. -/
theorem scopedEntries_sorted :
    (scopedEntries beliefs sessionId).Pairwise fun a b => a.id < b.id := by
  refine List.Pairwise.filter _ ?_
  rw [BeliefStore.recallCandidates, OrderedMap.values, List.pairwise_map]
  refine beliefs.entries.sorted.imp_of_mem fun {p q} hp hq hlt => ?_
  rw [beliefs.keyed p.1 p.2 (beliefs.entries.get?_of_mem_bindings hp),
    beliefs.keyed q.1 q.2 (beliefs.entries.get?_of_mem_bindings hq)]
  exact hlt

theorem length_ids :
    (similarities beliefs sessionId vectors).ids.length = (scopedEntries beliefs sessionId).length :=
  List.length_map _

theorem idAt_eq {x : Nat} {e : MemoryEntry} (h : (scopedEntries beliefs sessionId)[x]? = some e) :
    (similarities beliefs sessionId vectors).idAt x = e.id := by
  simp [similarities, Similarities.idAt, List.getD_eq_getElem?_getD, h]

theorem originAt_eq {x : Nat} {e : MemoryEntry}
    (h : (scopedEntries beliefs sessionId)[x]? = some e) :
    (similarities beliefs sessionId vectors).originAt x = e.originEvent := by
  simp [similarities, Similarities.originAt, List.getD_eq_getElem?_getD, h]

theorem idAt_lt {x y : Nat} (hxy : x < y)
    (hy : y < (similarities beliefs sessionId vectors).ids.length) :
    (similarities beliefs sessionId vectors).idAt x < (similarities beliefs sessionId vectors).idAt y := by
  rw [length_ids] at hy
  have hx := hxy.trans hy
  rw [idAt_eq beliefs sessionId vectors (List.getElem?_eq_getElem hx),
    idAt_eq beliefs sessionId vectors (List.getElem?_eq_getElem hy)]
  exact List.pairwise_iff_getElem.mp (scopedEntries_sorted beliefs sessionId) x y hx hy hxy

theorem idAt_injective {x y : Nat} (hx : x < (similarities beliefs sessionId vectors).ids.length)
    (hy : y < (similarities beliefs sessionId vectors).ids.length)
    (h : (similarities beliefs sessionId vectors).idAt x =
      (similarities beliefs sessionId vectors).idAt y) : x = y := by
  rcases lt_trichotomy x y with hlt | heq | hlt
  · exact absurd h (ne_of_lt (idAt_lt beliefs sessionId vectors hlt hy))
  · exact heq
  · exact absurd h.symm (ne_of_lt (idAt_lt beliefs sessionId vectors hlt hx))

theorem mem_edgesFrom_iff {vecs : List (Option (List Rat))} {i a j : Nat} {c : Rat} :
    (a, j, c) ∈ edgesFrom vectors vecs i ↔ a = i ∧ i < j ∧ j < vecs.length ∧
      ∃ vi vj, vecs.getD i none = some vi ∧ vecs.getD j none = some vj ∧
        c = vectors.cosine vi vj ∧ dumpFloor ≤ c := by
  unfold edgesFrom
  cases hi : vecs.getD i none with
  | none => simp
  | some vi =>
    simp only [List.mem_filterMap, List.mem_range'_1]
    constructor
    · rintro ⟨k, hk, hedge⟩
      cases hj : vecs.getD k none with
      | none => simp only [hj, reduceCtorEq] at hedge
      | some vj =>
        simp only [hj, Option.ite_none_right_eq_some, Option.some.injEq, Prod.mk.injEq] at hedge
        obtain ⟨hfloor, rfl, rfl, rfl⟩ := hedge
        exact ⟨rfl, by omega, by omega, vi, vj, rfl, hj, rfl, hfloor⟩
    · rintro ⟨rfl, hlt, hlen, _, vj, hvi, hj, rfl, hfloor⟩
      obtain rfl := Option.some.inj hvi
      exact ⟨j, by omega, by simp only [hj, if_pos hfloor]⟩

theorem getD_vecs {x : Nat} (hx : x < (similarities beliefs sessionId vectors).ids.length) :
    ((similarities beliefs sessionId vectors).ids.map vectors.get).getD x none =
      vectors.get ((similarities beliefs sessionId vectors).idAt x) := by
  simp [Similarities.idAt, List.getD_eq_getElem?_getD, List.getElem?_eq_getElem hx]

/-- What is recorded: the pairs of vectors at or above the floor, in scan order. -/
theorem mem_edges_iff {i j : Nat} {c : Rat} :
    (i, j, c) ∈ (similarities beliefs sessionId vectors).edges ↔
      i < j ∧ j < (similarities beliefs sessionId vectors).ids.length ∧
        ∃ vi vj, vectors.get ((similarities beliefs sessionId vectors).idAt i) = some vi ∧
          vectors.get ((similarities beliefs sessionId vectors).idAt j) = some vj ∧
          c = vectors.cosine vi vj ∧ dumpFloor ≤ c := by
  have hedges : (similarities beliefs sessionId vectors).edges =
      (List.range (similarities beliefs sessionId vectors).ids.length).flatMap
        (edgesFrom vectors ((similarities beliefs sessionId vectors).ids.map vectors.get)) := by
    rw [length_ids]
    rfl
  rw [hedges, List.mem_flatMap]
  constructor
  · rintro ⟨a, -, hedge⟩
    obtain ⟨rfl, hlt, hlen, hpair⟩ := (mem_edgesFrom_iff vectors).mp hedge
    rw [List.length_map] at hlen
    rw [getD_vecs _ _ _ hlen, getD_vecs _ _ _ (hlt.trans hlen)] at hpair
    exact ⟨hlt, hlen, hpair⟩
  · rintro ⟨hlt, hlen, hpair⟩
    refine ⟨i, List.mem_range.mpr (hlt.trans hlen), (mem_edgesFrom_iff vectors).mpr ⟨rfl, hlt, ?_, ?_⟩⟩
    · rwa [List.length_map]
    · rwa [getD_vecs _ _ _ hlen, getD_vecs _ _ _ (hlt.trans hlen)]

theorem similarities_inRange : (similarities beliefs sessionId vectors).InRange := fun _ he =>
  ⟨((mem_edges_iff beliefs sessionId vectors).mp he).1, ((mem_edges_iff beliefs sessionId vectors).mp he).2.1⟩

/-- A recorded pair reads as it was recorded. -/
theorem similarityOf_eq {i j : Nat} {c : Rat}
    (h : (i, j, c) ∈ (similarities beliefs sessionId vectors).edges) :
    (similarities beliefs sessionId vectors).similarityOf i j = c := by
  obtain ⟨hlt, -, vi, vj, hvi, hvj, hc, -⟩ := (mem_edges_iff beliefs sessionId vectors).mp h
  unfold Similarities.similarityOf
  rw [min_eq_left hlt.le, max_eq_right hlt.le]
  split
  next hnone =>
    rw [List.getLast?_eq_none_iff, List.filter_eq_nil_iff] at hnone
    exact absurd (by simp) (hnone _ h)
  next e he =>
    obtain ⟨hmem, hends⟩ := List.mem_filter.mp (List.mem_of_getLast? he)
    obtain ⟨a, b, d⟩ := e
    simp only [Bool.and_eq_true, beq_iff_eq] at hends
    obtain ⟨rfl, rfl⟩ := hends
    obtain ⟨-, -, va, vb, hva, hvb, hd, -⟩ := (mem_edges_iff beliefs sessionId vectors).mp hmem
    rw [hd, hc, Option.some.inj (hva.symm.trans hvi), Option.some.inj (hvb.symm.trans hvj)]

theorem dumpFloor_pos : 0 < dumpFloor := by decide +kernel

/-- The threshold is cleared by exactly the pairs whose vectors are at or above it. -/
theorem clears_iff_alike {threshold : Rat} (h : dumpFloor ≤ threshold) {x y : Nat}
    (hx : x < (similarities beliefs sessionId vectors).ids.length)
    (hy : y < (similarities beliefs sessionId vectors).ids.length) (hne : x ≠ y) :
    (similarities beliefs sessionId vectors).Clears threshold x y ↔
      vectors.Alike threshold ((similarities beliefs sessionId vectors).idAt x)
        ((similarities beliefs sessionId vectors).idAt y) := by
  wlog hlt : x < y generalizing x y
  · have hswap := this hy hx hne.symm (lt_of_le_of_ne (not_lt.mp hlt) hne.symm)
    exact ⟨fun hclears => (hswap.mp (hclears.symm _)).symm, fun halike => (hswap.mpr halike.symm).symm _⟩
  have hids := idAt_lt beliefs sessionId vectors hlt hy
  constructor
  · intro hclears
    obtain ⟨c, hc, hmem⟩ := hclears.edge _ (dumpFloor_pos.trans_le h)
    rw [min_eq_left hlt.le, max_eq_right hlt.le] at hmem
    obtain ⟨-, -, vi, vj, hvi, hvj, rfl, -⟩ := (mem_edges_iff beliefs sessionId vectors).mp hmem
    exact ⟨vi, vj, by rwa [min_eq_left hids.le], by rwa [max_eq_right hids.le], hc⟩
  · rintro ⟨va, vb, hva, hvb, hcosine⟩
    rw [min_eq_left hids.le] at hva
    rw [max_eq_right hids.le] at hvb
    have hmem := (mem_edges_iff beliefs sessionId vectors).mpr
      ⟨hlt, hy, va, vb, hva, hvb, rfl, h.trans hcosine⟩
    rwa [Similarities.Clears, similarityOf_eq beliefs sessionId vectors hmem]

end Scan

/-! ## The law -/

/-- The clusters, and the memories in none of them one by one. -/
def parts (entries : List MemoryEntry) (clusters : List Cluster) : List (List MemoryId) :=
  clusters.map Cluster.ids ++
    ((entries.map (·.id)).filter fun id => clusters.all fun c => !c.ids.contains id).map ([·])

/-- The later write, or of two at one event the one with the smaller id. -/
def MemoryEntry.Outranks (e e' : MemoryEntry) : Prop :=
  e'.originEvent < e.originEvent ∨ e'.originEvent = e.originEvent ∧ e.id < e'.id

/-- What complete linkage asks of the clusters of some entries. -/
structure CompleteLinkage (vectors : VectorStore) (threshold : Rat) (entries : List MemoryEntry)
    (clusters : List Cluster) : Prop where
  scanned : ∀ c ∈ clusters, ∀ id ∈ c.ids, id ∈ entries.map (·.id)
  nodup : ∀ c ∈ clusters, c.ids.Nodup
  disjoint : clusters.Pairwise fun c d => c.ids.Disjoint d.ids
  linked : ∀ c ∈ clusters, ∀ a ∈ c.ids, ∀ b ∈ c.ids, a ≠ b → vectors.Alike threshold a b
  maximal : (parts entries clusters).Pairwise fun A B =>
    ∃ a ∈ A, ∃ b ∈ B, ¬ vectors.Alike threshold a b
  elected : ∀ c ∈ clusters, ∀ e ∈ entries, e.id = c.representative →
    ∀ e' ∈ entries, e'.id ∈ c.merged → e.Outranks e'

section Law

variable {beliefs : BeliefStore} {sessionId : String} {vectors : VectorStore} {threshold : Rat}
  {f : Forest}

/-- Where an entry of the scan stands. -/
theorem exists_position (vectors : VectorStore) {e : MemoryEntry} (he : e ∈ scopedEntries beliefs sessionId) :
    ∃ x, x < (similarities beliefs sessionId vectors).ids.length ∧
      (similarities beliefs sessionId vectors).idAt x = e.id ∧
      (similarities beliefs sessionId vectors).originAt x = e.originEvent := by
  obtain ⟨x, hx⟩ := List.mem_iff_getElem?.mp he
  refine ⟨x, ?_, idAt_eq _ _ _ hx, originAt_eq _ _ _ hx⟩
  rw [length_ids]
  exact (List.getElem?_eq_some_iff.mp hx).1

theorem idAt_mem_entries {x : Nat} (hx : x < (similarities beliefs sessionId vectors).ids.length) :
    (similarities beliefs sessionId vectors).idAt x ∈ (scopedEntries beliefs sessionId).map (·.id) :=
  (similarities beliefs sessionId vectors).idAt_mem hx

/-- The ids of the class of a root. -/
def classIds (s : Similarities) (f : Forest) (r : Nat) : List MemoryId :=
  (Similarities.classOf f s.ids.length r).map s.idAt

theorem mem_classIds {s : Similarities} {r : Nat} {id : MemoryId} :
    id ∈ classIds s f r ↔ ∃ x, (x < s.ids.length ∧ f.root x = r) ∧ s.idAt x = id := by
  simp only [classIds, List.mem_map, Similarities.mem_classOf]

theorem nodup_classIds (f : Forest) (r : Nat) :
    (classIds (similarities beliefs sessionId vectors) f r).Nodup := by
  refine List.pairwise_map.mpr ((Similarities.nodup_classOf f _ r).imp_of_mem fun hx hy hne hxy => ?_)
  exact hne (idAt_injective _ _ _ (Similarities.mem_classOf.mp hx).1
    (Similarities.mem_classOf.mp hy).1 hxy)

/-- The clusters are made of classes, and of different ones. -/
theorem cluster_classes
    (h : Similarities.Represents f ((similarities beliefs sessionId vectors).unions threshold .complete)) :
    (∀ c ∈ (similarities beliefs sessionId vectors).cluster threshold .complete,
      ∃ r, (similarities beliefs sessionId vectors).clusterOf
        (Similarities.classOf f (similarities beliefs sessionId vectors).ids.length r) = some c) ∧
    ((similarities beliefs sessionId vectors).cluster threshold .complete).Pairwise
      fun c d => c.ids.Disjoint d.ids := by
  constructor
  · intro c hc
    obtain ⟨group, hgroup, hof⟩ := List.mem_filterMap.mp (List.mem_mergeSort.mp hc)
    obtain ⟨r, rfl⟩ := Similarities.mem_members h hgroup
    exact ⟨r, hof⟩
  · rw [Similarities.cluster, (List.mergeSort_perm _ _).pairwise_iff List.disjoint_symm,
      List.pairwise_filterMap]
    refine (Similarities.members_pairwise h _).imp_of_mem fun hg hg' hdisjoint c hc d hd => ?_
    obtain ⟨r, rfl⟩ := Similarities.mem_members h hg
    obtain ⟨r', rfl⟩ := Similarities.mem_members h hg'
    have hcids := (similarities beliefs sessionId vectors).clusterOf_ids hc (Similarities.nodup_classOf ..)
    have hdids := (similarities beliefs sessionId vectors).clusterOf_ids hd (Similarities.nodup_classOf ..)
    intro id hid hid'
    obtain ⟨x, hx, rfl⟩ := List.mem_map.mp (hcids.mem_iff.mp hid)
    obtain ⟨y, hy, heq⟩ := List.mem_map.mp (hdids.mem_iff.mp hid')
    have hyx := idAt_injective _ _ _ (Similarities.mem_classOf.mp hy).1
      (Similarities.mem_classOf.mp hx).1 heq
    exact hdisjoint hx (hyx ▸ hy)

/-- Clusters and singletons share no memory. -/
theorem parts_disjoint {entries : List MemoryEntry} {clusters : List Cluster}
    (hentries : (entries.map (·.id)).Nodup)
    (h : clusters.Pairwise fun c d => c.ids.Disjoint d.ids) :
    (parts entries clusters).Pairwise List.Disjoint := by
  refine List.pairwise_append.mpr ⟨List.pairwise_map.mpr h, List.pairwise_map.mpr ?_, ?_⟩
  · refine (hentries.filter _).imp fun hne id hid hid' => hne ?_
    exact (List.mem_singleton.mp hid).symm.trans (List.mem_singleton.mp hid')
  · intro A hA B hB id hid hid'
    obtain ⟨c, hc, rfl⟩ := List.mem_map.mp hA
    obtain ⟨alone, halone, rfl⟩ := List.mem_map.mp hB
    have hout := List.all_eq_true.mp (List.mem_filter.mp halone).2 c hc
    rw [← List.mem_singleton.mp hid'] at hout
    simp [hid] at hout

/-- Each part is the class of a root. -/
theorem parts_classes {A : List MemoryId}
    (h : Similarities.Represents f ((similarities beliefs sessionId vectors).unions threshold .complete))
    (hA : A ∈ parts (scopedEntries beliefs sessionId)
      ((similarities beliefs sessionId vectors).cluster threshold .complete)) :
    A ≠ [] ∧ ∃ r, ∀ id, id ∈ A ↔ id ∈ classIds (similarities beliefs sessionId vectors) f r := by
  rcases List.mem_append.mp hA with hcluster | hsingle
  · obtain ⟨c, hc, rfl⟩ := List.mem_map.mp hcluster
    obtain ⟨r, hof⟩ := (cluster_classes h).1 c hc
    have hids := (similarities beliefs sessionId vectors).clusterOf_ids hof (Similarities.nodup_classOf ..)
    exact ⟨List.cons_ne_nil _ _, r, fun id => hids.mem_iff⟩
  · obtain ⟨id, hid, rfl⟩ := List.mem_map.mp hsingle
    obtain ⟨hmem, hout⟩ := List.mem_filter.mp hid
    obtain ⟨e, he, rfl⟩ := List.mem_map.mp hmem
    obtain ⟨x, hx, hxid, -⟩ := exists_position vectors he
    refine ⟨List.cons_ne_nil _ _, f.root x, fun id => ?_⟩
    rw [List.mem_singleton, mem_classIds]
    constructor
    · rintro rfl
      exact ⟨x, ⟨hx, rfl⟩, hxid⟩
    · rintro ⟨y, ⟨hy, hroot⟩, rfl⟩
      -- another member of the class would have put the memory in a cluster
      by_contra hne
      have hxy : x ≠ y := by
        rintro rfl
        exact hne hxid
      have hxclass : x ∈ Similarities.classOf f (similarities beliefs sessionId vectors).ids.length
          (f.root x) := Similarities.mem_classOf.mpr ⟨hx, rfl⟩
      obtain ⟨c, hc⟩ := (similarities beliefs sessionId vectors).exists_clusterOf hxclass
        (Similarities.mem_classOf.mpr ⟨hy, hroot⟩) hxy
      have hmemc : c ∈ (similarities beliefs sessionId vectors).cluster threshold .complete :=
        List.mem_mergeSort.mpr (List.mem_filterMap.mpr
          ⟨_, (OrderedMap.mem_values_iff _ _).mpr ⟨_, Similarities.exists_members h hx⟩, hc⟩)
      have hin : e.id ∈ c.ids :=
        ((similarities beliefs sessionId vectors).clusterOf_ids hc (Similarities.nodup_classOf ..)).mem_iff.mpr
          (List.mem_map.mpr ⟨x, hxclass, hxid⟩)
      simpa [hin] using List.all_eq_true.mp hout c hmemc

theorem ids_nodup : ((scopedEntries beliefs sessionId).map (·.id)).Nodup :=
  List.pairwise_map.mpr ((scopedEntries_sorted beliefs sessionId).imp fun hlt => ne_of_lt hlt)

/-- **Complete linkage** at any threshold the scan recorded pairs for. -/
theorem cluster_completeLinkage (h : dumpFloor ≤ threshold) :
    CompleteLinkage vectors threshold (scopedEntries beliefs sessionId)
      ((similarities beliefs sessionId vectors).cluster threshold .complete) := by
  obtain ⟨hlength, f, hrep, hcomplete, hmaximal⟩ :=
    (similarities beliefs sessionId vectors).unions_complete (dumpFloor_pos.trans_le h)
      (similarities_inRange beliefs sessionId vectors)
  obtain ⟨hclasses, hdisjoint⟩ := cluster_classes hrep
  have hids : ∀ c ∈ (similarities beliefs sessionId vectors).cluster threshold .complete,
      ∃ r, c.ids.Perm (classIds (similarities beliefs sessionId vectors) f r) := fun c hc => by
    obtain ⟨r, hof⟩ := hclasses c hc
    exact ⟨r, (similarities beliefs sessionId vectors).clusterOf_ids hof (Similarities.nodup_classOf ..)⟩
  constructor
  case scanned =>
    intro c hc id hid
    obtain ⟨r, hperm⟩ := hids c hc
    obtain ⟨x, ⟨hx, -⟩, rfl⟩ := mem_classIds.mp (hperm.mem_iff.mp hid)
    exact idAt_mem_entries hx
  case nodup =>
    intro c hc
    obtain ⟨r, hperm⟩ := hids c hc
    exact hperm.nodup_iff.mpr (nodup_classIds f r)
  case disjoint => exact hdisjoint
  case linked =>
    intro c hc a ha b hb hne
    obtain ⟨r, hperm⟩ := hids c hc
    obtain ⟨x, ⟨hx, hrx⟩, rfl⟩ := mem_classIds.mp (hperm.mem_iff.mp ha)
    obtain ⟨y, ⟨hy, hry⟩, rfl⟩ := mem_classIds.mp (hperm.mem_iff.mp hb)
    have hxy : x ≠ y := fun heq => hne (heq ▸ rfl)
    exact (clears_iff_alike _ _ _ h hx hy hxy).mp (hcomplete (hrx.trans hry.symm) hxy)
  case maximal =>
    refine (parts_disjoint ids_nodup hdisjoint).imp_of_mem fun {A B} hA hB hAB => ?_
    obtain ⟨hAne, r, hAmem⟩ := parts_classes hrep hA
    obtain ⟨hBne, r', hBmem⟩ := parts_classes hrep hB
    obtain ⟨a, ha⟩ := List.exists_mem_of_ne_nil A hAne
    obtain ⟨b, hb⟩ := List.exists_mem_of_ne_nil B hBne
    obtain ⟨x, ⟨hx, hrx⟩, rfl⟩ := mem_classIds.mp ((hAmem a).mp ha)
    obtain ⟨y, ⟨hy, hry⟩, rfl⟩ := mem_classIds.mp ((hBmem b).mp hb)
    have hroots : f.root x ≠ f.root y := by
      intro heq
      refine hAB ha ((hBmem _).mpr (mem_classIds.mpr ⟨x, ⟨hx, ?_⟩, rfl⟩))
      rw [heq, hry]
    obtain ⟨x', y', hx', hy', hno⟩ := hmaximal hroots
    have hin : ∀ {z z'}, z < (similarities beliefs sessionId vectors).ids.length →
        f.root z' = f.root z → z' < (similarities beliefs sessionId vectors).ids.length := by
      intro z z' hz heq
      rw [← hlength] at hz ⊢
      exact hrep.lt_of_root (heq ▸ (f.root_le z).trans_lt hz)
    have hxin := hin hx hx'
    have hyin := hin hy hy'
    have hne : x' ≠ y' := by
      rintro rfl
      exact hroots (hx'.symm.trans hy')
    exact ⟨_, (hAmem _).mpr (mem_classIds.mpr ⟨x', ⟨hxin, hx'.trans hrx⟩, rfl⟩),
      _, (hBmem _).mpr (mem_classIds.mpr ⟨y', ⟨hyin, hy'.trans hry⟩, rfl⟩),
      fun halike => hno ((clears_iff_alike _ _ _ h hxin hyin hne).mpr halike)⟩
  case elected =>
    intro c hc e he herep e' he' hmerged
    obtain ⟨r, hof⟩ := hclasses c hc
    obtain ⟨winner, hwinner, hrepr, hperm, htop⟩ :=
      (similarities beliefs sessionId vectors).clusterOf_spec hof
    obtain ⟨y, hy, hyid⟩ := List.mem_map.mp (hperm.mem_iff.mp hmerged)
    obtain ⟨hyclass, hyne⟩ := List.mem_filter.mp hy
    obtain ⟨p, hp, hpid, hporigin⟩ := exists_position vectors he
    obtain ⟨q, hq, hqid, hqorigin⟩ := exists_position vectors he'
    obtain rfl : p = winner := idAt_injective _ _ _ hp (Similarities.mem_classOf.mp hwinner).1
      (hpid.trans (herep.trans hrepr))
    obtain rfl : q = y := idAt_injective _ _ _ hq (Similarities.mem_classOf.mp hyclass).1
      (hqid.trans hyid.symm)
    have hne : q ≠ p := by simpa using hyne
    have hlt : (similarities beliefs sessionId vectors).rank q < (similarities beliefs sessionId vectors).rank p :=
      lt_of_le_of_ne (htop q hyclass) fun heq =>
        hne (idAt_injective _ _ _ hq hp (congrArg (fun k => (ofLex k).2) heq))
    rw [Similarities.rank, Similarities.rank, Prod.Lex.toLex_lt_toLex, OrderDual.toDual_lt_toDual,
      hporigin, hqorigin, hpid, hqid] at hlt
    exact hlt

end Law

/-! ## Carrying the plan out -/

/-- What supersedes a belief, if anything. -/
def BeliefStore.supersededBy? (b : BeliefStore) (id : MemoryId) : Option MemoryId :=
  (b.get id).bind (·.supersededBy)

theorem BeliefStore.supersededBy?_supersede (b : BeliefStore) (id by_ k : MemoryId) :
    (b.supersede id by_).supersededBy? k = b.supersededBy? k ∨
      k = id ∧ (b.supersede id by_).supersededBy? k = some by_ := by
  unfold BeliefStore.supersede BeliefStore.supersededBy?
  split
  · exact .inl rfl
  · next e he =>
    dsimp only
    rw [BeliefStore.get_modify, BeliefStore.get_modify]
    by_cases hk : id = k
    · subst hk
      right
      rw [if_pos rfl, he]
      split <;> exact ⟨rfl, rfl⟩
    · left
      rw [if_neg hk]
      split
      · cases b.get k <;> rfl
      · rfl

/-- From `b` to `b'` the beliefs superseded are members merged by one of the clusters, each by its
representative. -/
def Marks (clusters : List Cluster) (b b' : BeliefStore) : Prop :=
  ∀ id, b'.supersededBy? id = b.supersededBy? id ∨
    ∃ c ∈ clusters, id ∈ c.merged ∧ b'.supersededBy? id = some c.representative

theorem Marks.trans {clusters : List Cluster} {a b c : BeliefStore} (hab : Marks clusters a b)
    (hbc : Marks clusters b c) : Marks clusters a c := by
  intro id
  rcases hbc id with hsame | hmark
  · rw [hsame]
    exact hab id
  · exact .inr hmark

/-- Whatever the journal answers, a consolidation marks by its plan only. -/
theorem consolidate_marks (sessionId : String) (clock : Clock) (vectors : VectorStore)
    (policy : Policy) (m : MemoryState) :
    Marks (plan m.beliefs sessionId vectors policy).clusters m.beliefs
      ((consolidate sessionId clock vectors policy).run m).2.beliefs := by
  refine consolidate_at
    (R := fun m' m'' => Marks (plan m.beliefs sessionId vectors policy).clusters m'.beliefs m''.beliefs)
    (fun _ _ => .inl rfl) (fun _ _ _ => Marks.trans) (fun clock req _ m' => ?_) sessionId clock
    vectors policy m (fun c hc id hid m' k => ?_)
  · rcases append_run clock req m' with ⟨event, journal, hrun, -⟩ | ⟨error, journal, hrun, -⟩
    · rw [hrun]
      exact fun _ => .inl rfl
    · rw [hrun]
      exact fun _ => .inl rfl
  · rcases m'.beliefs.supersededBy?_supersede id c.representative k with hsame | ⟨rfl, hmark⟩
    · exact .inl hsame
    · exact .inr ⟨c, hc, hid, hmark⟩

/-- Nothing newly superseded stands under something superseded. -/
def Flat (b b' : BeliefStore) : Prop :=
  ∀ id winner, b'.supersededBy? id = some winner → b.supersededBy? id ≠ some winner →
    b'.supersededBy? winner = none

theorem flat_of_marks {b b' : BeliefStore} {sessionId : String} {vectors : VectorStore}
    {threshold : Rat} {clusters : List Cluster}
    (h : CompleteLinkage vectors threshold (scopedEntries b sessionId) clusters)
    (hmarks : Marks clusters b b') : Flat b b' := by
  intro id winner hnew hold
  rcases hmarks id with hsame | ⟨c, hc, -, hmark⟩
  · exact absurd (hsame.symm.trans hnew) hold
  obtain rfl : c.representative = winner := Option.some.inj (hmark.symm.trans hnew)
  rcases hmarks c.representative with hsame | ⟨d, hd, hmerged, -⟩
  · obtain ⟨e, he, hid⟩ := List.mem_map.mp (h.scanned c hc _ List.mem_cons_self)
    obtain ⟨hcandidate, hlive⟩ := List.mem_filter.mp he
    rw [BeliefStore.mem_recallCandidates_iff, hid] at hcandidate
    simp only [Bool.and_eq_true, Option.isNone_iff_eq_none] at hlive
    rw [hsame, BeliefStore.supersededBy?, hcandidate]
    exact hlive.1.2
  · by_cases hcd : c = d
    · rw [← hcd] at hmerged
      exact absurd hmerged (List.nodup_cons.mp (h.nodup c hc)).1
    · have : Std.Symm fun c d : Cluster => c.ids.Disjoint d.ids := ⟨fun _ _ => List.disjoint_symm⟩
      have hdisjoint := h.disjoint.forall hc hd hcd
      exact (hdisjoint List.mem_cons_self (List.mem_cons_of_mem _ hmerged)).elim

/-- A policy the program runs under: the dry run, or one its artifact was checked for. -/
def Policy.Loaded (policy : Policy) : Prop :=
  policy = .dryRun ∨ ∃ artifact, Policy.fromArtifact artifact = .ok policy

theorem Policy.Loaded.dumpFloor_le {policy : Policy} (h : policy.Loaded) :
    dumpFloor ≤ policy.threshold := by
  rcases h with rfl | ⟨artifact, h⟩
  · exact le_rfl
  · unfold Policy.fromArtifact at h
    split at h
    · cases h
    split at h
    · cases h
    split at h
    · cases h
    split at h
    · cases h
    split at h
    · cases h
    split at h
    · cases h
    next hfloor =>
      cases h
      exact not_lt.mp hfloor

/-- **Consolidation is complete linkage.** Whatever the store and the similarities, the plan's
clusters are disjoint sets of scanned memories, alike throughout and maximal, each electing its
latest member; and carrying it out, however far the journal lets it, supersedes nothing by a
memory that is superseded. -/
theorem consolidate_completeLinkage (m : MemoryState) (sessionId : String) (clock : Clock)
    (vectors : VectorStore) (policy : Policy) (h : policy.Loaded) :
    CompleteLinkage vectors policy.threshold (scopedEntries m.beliefs sessionId)
        (plan m.beliefs sessionId vectors policy).clusters ∧
      Flat m.beliefs ((consolidate sessionId clock vectors policy).run m).2.beliefs := by
  have hlinkage : CompleteLinkage vectors policy.threshold (scopedEntries m.beliefs sessionId)
      (plan m.beliefs sessionId vectors policy).clusters := cluster_completeLinkage h.dumpFloor_le
  exact ⟨hlinkage, flat_of_marks hlinkage (consolidate_marks sessionId clock vectors policy m)⟩

/-- Two turns that say the same, consolidated under a registered threshold. -/
theorem completeLinkage_saidTwice :
    let m := runSteps [spoken .terminal "a", spoken .terminal "b"] (MemoryState.create ⟨fun _ => ""⟩ [])
    CompleteLinkage alike 1 (scopedEntries m.beliefs "s") (plan m.beliefs "s" alike (.frozen 1)).clusters ∧
      Flat m.beliefs ((consolidate "s" ⟨1⟩ alike (.frozen 1)).run m).2.beliefs :=
  consolidate_completeLinkage _ "s" ⟨1⟩ alike (.frozen 1)
    (.inr ⟨⟨"registered", some 1, some "sweep", some "split"⟩, by decide +kernel⟩)

end MarloweAgent.Memory
