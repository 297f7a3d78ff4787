import Mathlib.Logic.Function.Basic
import Mathlib.Logic.Relation
import Mathlib.Order.Basic

/-! Worst case over a lineage. A node names its sources and carries a label; its
label is to be below the labels of everything it descends from, and its sources
are to be all of that. Both are laws about a transitive closure, and both come
down to one law about each edge. -/

namespace MarloweAgent.Library

variable {ι τ : Type*}

/-- The nodes there are: each with its sources and its label. -/
abbrev Lineage (ι τ : Type*) := ι → Option (List ι × τ)

namespace Lineage

/-- `x` names `y` as a source. -/
def Names (g : Lineage ι τ) (x y : ι) : Prop := ∃ n, g x = some n ∧ y ∈ n.1

/-- `x` descends from `y`. -/
def Descends (g : Lineage ι τ) : ι → ι → Prop := Relation.TransGen g.Names

/-- Every node names all it descends from, and is worth no more than any of it. -/
structure WorstCase [LE τ] (g : Lineage ι τ) : Prop where
  full : ∀ x n, g x = some n → ∀ a, a ∈ n.1 ↔ g.Descends x a
  least : ∀ x n a m, g x = some n → g.Descends x a → g a = some m → n.2 ≤ m.2

/-- The law of one edge: the node is worth no more than its source, and names all the
source names. -/
def Below [LE τ] (n m : List ι × τ) : Prop := n.2 ≤ m.2 ∧ m.1 ⊆ n.1

theorem Below.refl [Preorder τ] (n : List ι × τ) : Below n n := ⟨le_refl _, List.Subset.refl _⟩

/-- The law of every edge. -/
def EdgesBelow [LE τ] (g : Lineage ι τ) : Prop :=
  ∀ x n a m, g x = some n → a ∈ n.1 → g a = some m → Below n m

/-- **The closure needs no more than its edges.** -/
theorem worstCase_iff_edges [LE τ] (g : Lineage ι τ) : g.WorstCase ↔ g.EdgesBelow := by
  constructor
  · intro h x n a m hx ha hm
    have hxa : g.Descends x a := .single ⟨n, hx, ha⟩
    refine ⟨h.least x n a m hx hxa hm, fun b hb => ?_⟩
    exact (h.full x n hx b).mpr (hxa.tail ⟨m, hm, hb⟩)
  · intro h
    have hfull : ∀ x n, g x = some n → ∀ a, g.Descends x a → a ∈ n.1 := by
      intro x n hx a hxa
      -- along the path, everything reached so far is named by `x`
      induction hxa with
      | single hedge =>
        obtain ⟨n', hx', ha⟩ := hedge
        rw [hx] at hx'
        cases hx'
        exact ha
      | tail _ hedge ih =>
        obtain ⟨m, hm, ha⟩ := hedge
        exact (h x n _ m hx ih hm).2 ha
    refine ⟨fun x n hx a => ⟨fun ha => .single ⟨n, hx, ha⟩, hfull x n hx a⟩, ?_⟩
    intro x n a m hx hxa hm
    exact (h x n a m hx (hfull x n hx a hxa) hm).1

/-- What the new node `n` at `k` has to satisfy for the law to go on holding: it is below
each other source it names, and every other node that names `k` is below it. -/
structure Fits [LE τ] (g : Lineage ι τ) (k : ι) (n : List ι × τ) : Prop where
  sources : ∀ a m, a ∈ n.1 → a ≠ k → g a = some m → Below n m
  heirs : ∀ x m, g x = some m → x ≠ k → k ∈ m.1 → Below m n

variable [DecidableEq ι]

/-- **Filing one node** keeps the law exactly when the node fits. -/
theorem edgesBelow_update_iff [Preorder τ] {g : Lineage ι τ} (h : g.EdgesBelow) (k : ι)
    (n : List ι × τ) : EdgesBelow (Function.update g k (some n)) ↔ g.Fits k n := by
  constructor
  · intro hnew
    constructor
    · intro a m ha hak hm
      refine hnew k n a m ?_ ha ?_
      · simp
      · rwa [Function.update_of_ne hak]
    · intro x m hx hxk hk
      refine hnew x m k n ?_ hk ?_
      · rwa [Function.update_of_ne hxk]
      · simp
  · intro hfits x n' a m hx ha hm
    by_cases hxk : x = k
    · subst hxk
      rw [Function.update_self] at hx
      cases hx
      by_cases hax : a = x
      · subst hax
        rw [Function.update_self] at hm
        cases hm
        exact .refl _
      · rw [Function.update_of_ne hax] at hm
        exact hfits.sources a m ha hax hm
    · rw [Function.update_of_ne hxk] at hx
      by_cases hak : a = k
      · subst hak
        rw [Function.update_self] at hm
        cases hm
        exact hfits.heirs x n' hx hxk ha
      · rw [Function.update_of_ne hak] at hm
        exact h x n' a m hx ha hm

end Lineage

end MarloweAgent.Library

/-! ## Forwarding

Handing a message on. Each node keeps a message, drops it, or hands it to one other
node, and a message arrives when a node that keeps it is reached in finitely many hops.
When one node comes to hand its messages elsewhere, what arrives is decided there. -/

namespace MarloweAgent.Library

/-- What a node does with a message. -/
inductive Hop (ι : Type*)
  | kept
  | handed (next : ι)
  | dropped
  deriving DecidableEq

abbrev Forwarding (ι : Type*) := ι → Hop ι

namespace Forwarding

variable {ι : Type*}

/-- A message at this node reaches one that keeps it. -/
inductive Arrives (f : Forwarding ι) : ι → Prop
  | kept {x : ι} (h : f x = .kept) : Arrives f x
  | handed {x y : ι} (h : f x = .handed y) (hy : Arrives f y) : Arrives f x

variable {f : Forwarding ι} {x y c : ι}

theorem not_arrives_of_dropped (h : f x = .dropped) : ¬ Arrives f x := by
  intro hx
  cases hx with
  | kept hkept => cases h.symm.trans hkept
  | handed hnext => cases h.symm.trans hnext

theorem Arrives.of_handed (hx : Arrives f x) (h : f x = .handed y) : Arrives f y := by
  cases hx with
  | kept hkept => cases hkept.symm.trans h
  | handed hnext hy =>
    obtain rfl : _ = y := Hop.handed.inj (hnext.symm.trans h)
    exact hy

variable [DecidableEq ι]

/-- The message arrives on a way that does not pass through `c`. -/
def ArrivesAvoiding (f : Forwarding ι) (c x : ι) : Prop := Arrives (Function.update f c .dropped) x

/-- Whatever `c` does, what arrives without it arrives. -/
theorem ArrivesAvoiding.update (h : ArrivesAvoiding f c x) (hop : Hop ι) :
    Arrives (Function.update f c hop) x := by
  unfold ArrivesAvoiding at h
  induction h with
  | @kept x h =>
    by_cases hc : x = c
    · subst hc
      simp at h
    · exact .kept (by simpa [hc] using h)
  | @handed x y h _ ih =>
    by_cases hc : x = c
    · subst hc
      simp at h
    · exact .handed (by simpa [hc] using h) ih

/-- A node that dropped everything was on no way. -/
theorem Arrives.update_of_dropped (h : Arrives f x) (hc : f c = .dropped) (hop : Hop ι) :
    Arrives (Function.update f c hop) x := by
  refine ArrivesAvoiding.update (f := f) ?_ hop
  rwa [ArrivesAvoiding, ← hc, Function.update_eq_self]

/-- Where `c` comes to hand its messages on to a place they arrive from, what arrived still
does. -/
theorem Arrives.update {hop : Hop ι} (h : Arrives f x) (hc : Arrives (Function.update f c hop) c) :
    Arrives (Function.update f c hop) x := by
  induction h with
  | @kept x h =>
    by_cases hx : x = c
    · exact hx ▸ hc
    · exact .kept (by simpa [hx] using h)
  | @handed x y h _ ih =>
    by_cases hx : x = c
    · exact hx ▸ hc
    · exact .handed (by simpa [hx] using h) ih

/-- A way from `x` avoids `c`, or what `c` hands to `b` arrives from there without it. -/
theorem Arrives.avoids {b : ι} (h : Arrives (Function.update f c (.handed b)) x) :
    ArrivesAvoiding f c x ∨ ArrivesAvoiding f c b := by
  induction h with
  | @kept x h =>
    by_cases hx : x = c
    · subst hx
      simp at h
    · exact .inl (.kept (by simpa [hx] using h))
  | @handed x y h _ ih =>
    refine ih.elim (fun hy => ?_) .inr
    by_cases hx : x = c
    · subst hx
      obtain rfl : b = y := by simpa using h
      exact .inr hy
    · exact .inl (.handed (by simpa [hx] using h) hy)

/-- **Redirecting one node.** What `c` now hands to `b` arrives exactly when it arrives from
`b` without coming back to `c`. -/
theorem arrives_update_iff {b : ι} :
    Arrives (Function.update f c (.handed b)) c ↔ ArrivesAvoiding f c b := by
  constructor
  · intro h
    exact h.avoids.resolve_left (not_arrives_of_dropped (by simp))
  · exact fun h => .handed (by simp) (h.update _)

end Forwarding

end MarloweAgent.Library
