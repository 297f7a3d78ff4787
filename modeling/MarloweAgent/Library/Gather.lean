import Mathlib.Algebra.BigOperators.Group.List.Basic
import MarloweAgent.Library.OrderedMap

/-! Fragments that arrive under keys, in any interleaving, and are joined key by key. What a
key comes to is the product of its own fragments in their order; nothing else about the
interleaving shows. -/

namespace MarloweAgent.Library.Gather

variable {κ M : Type*} [LinearOrder κ] [Monoid M]

/-- The fragments of one key. -/
def fragmentsOf (k : κ) (arrivals : List (κ × M)) : List M := (arrivals.filter (·.1 = k)).map Prod.snd

/-- What one key comes to; nothing where it never occurs. -/
def whole (k : κ) (arrivals : List (κ × M)) : Option M :=
  if fragmentsOf k arrivals = [] then none else some (fragmentsOf k arrivals).prod

/-- One fragment is joined to what its key has so far. -/
def join (m : OrderedMap κ M) (arrival : κ × M) : OrderedMap κ M :=
  m.insert arrival.1 ((m.get? arrival.1).getD 1 * arrival.2)

def gather (m : OrderedMap κ M) (arrivals : List (κ × M)) : OrderedMap κ M := arrivals.foldl join m

@[simp] theorem gather_append (m : OrderedMap κ M) (a b : List (κ × M)) :
    gather m (a ++ b) = gather (gather m a) b :=
  List.foldl_append

theorem get?_gather (m : OrderedMap κ M) (arrivals : List (κ × M)) (k : κ) :
    (gather m arrivals).get? k =
      if fragmentsOf k arrivals = [] then m.get? k
      else some ((m.get? k).getD 1 * (fragmentsOf k arrivals).prod) := by
  induction arrivals generalizing m with
  | nil => rfl
  | cons arrival arrivals ih =>
    obtain ⟨key, x⟩ := arrival
    rw [gather, List.foldl_cons, ← gather, ih, join, OrderedMap.get?_insert]
    by_cases hkey : key = k
    · subst hkey
      have hcons : fragmentsOf key ((key, x) :: arrivals) = x :: fragmentsOf key arrivals := by
        simp [fragmentsOf]
      rw [hcons, if_pos rfl, if_neg (List.cons_ne_nil _ _), List.prod_cons, Option.getD_some, mul_assoc]
      split
      next hnone => rw [hnone, List.prod_nil, mul_one]
      · rfl
    · have hsame : fragmentsOf k ((key, x) :: arrivals) = fragmentsOf k arrivals := by
        simp [fragmentsOf, hkey]
      rw [hsame, if_neg hkey]

theorem get?_gather_empty (arrivals : List (κ × M)) (k : κ) :
    (gather .empty arrivals).get? k = whole k arrivals := by
  rw [get?_gather, whole]
  simp

/-- Two interleavings of the same wholes leave the same map. -/
theorem gather_congr {a b : List (κ × M)} (h : ∀ k, whole k a = whole k b) :
    gather .empty a = gather .empty b := by
  have hbindings : (gather .empty a).bindings = (gather .empty b).bindings := by
    refine OrderedMap.bindings_eq _ (gather .empty b).sorted fun k v => ?_
    rw [get?_gather_empty, h, ← get?_gather_empty]
    exact ⟨OrderedMap.mem_bindings_of_get? _, OrderedMap.get?_of_mem_bindings _⟩
  cases hmap : gather .empty a
  cases hmap' : gather .empty b
  rw [hmap, hmap'] at hbindings
  cases hbindings
  rfl

/-- In key order, one arrival a key, nothing is joined. -/
theorem bindings_gather_sorted {arrivals : List (κ × M)} (h : arrivals.Pairwise (·.1 < ·.1)) :
    (gather .empty arrivals).bindings = arrivals := by
  have hfragments : ∀ k v, (k, v) ∈ arrivals → fragmentsOf k arrivals = [v] := by
    intro k v hmem
    induction arrivals with
    | nil => cases hmem
    | cons first rest ih =>
      obtain ⟨hfirst, hrest⟩ := List.pairwise_cons.mp h
      have hnone : fragmentsOf first.1 rest = [] := by
        simp only [fragmentsOf, List.map_eq_nil_iff, List.filter_eq_nil_iff, decide_eq_true_eq]
        exact fun p hp heq => absurd heq (ne_of_gt (hfirst p hp))
      rcases List.mem_cons.mp hmem with rfl | hmem
      · simpa [fragmentsOf] using hnone
      · have hne : first.1 ≠ k := ne_of_lt (hfirst _ hmem)
        simpa [fragmentsOf, hne] using ih hrest hmem
  refine OrderedMap.bindings_eq _ h fun k v => ?_
  rw [get?_gather_empty, whole]
  constructor
  · intro hwhole
    split at hwhole
    · cases hwhole
    next hsome =>
      obtain ⟨x, hx⟩ := List.exists_mem_of_ne_nil _ hsome
      obtain ⟨⟨key, y⟩, hmem, rfl⟩ := List.mem_map.mp hx
      obtain ⟨hin, hkey⟩ := List.mem_filter.mp hmem
      obtain rfl : key = k := by simpa using hkey
      rw [hfragments key y hin] at hwhole
      simp only [List.prod_singleton, Option.some.injEq] at hwhole
      exact hwhole ▸ hin
  · intro hmem
    rw [hfragments k v hmem, if_neg (List.cons_ne_nil _ _), List.prod_singleton]

end MarloweAgent.Library.Gather
