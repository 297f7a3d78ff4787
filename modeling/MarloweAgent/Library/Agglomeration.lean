import Mathlib.Logic.Function.Basic
import Mathlib.Order.Nat

/-! Greedy agglomeration under complete linkage. Classes are the roots of a forest whose parents
are never above their children; a proposed merge happens when all cross pairs are linked. What is
settled about a pair stays settled, so proposing every linked pair leaves no merge undone. -/

namespace MarloweAgent.Library

/-! ## Forests -/

/-- Parents on the naturals, none above its child. A root is its own parent. -/
structure Forest where
  up : Nat → Nat
  up_le : ∀ x, up x ≤ x

namespace Forest

variable (f : Forest) {x y : Nat}

/-- Follow parents to the root. -/
def root (x : Nat) : Nat := if f.up x = x then x else root (f.up x)
termination_by x
decreasing_by exact Nat.lt_of_le_of_ne (f.up_le x) ‹_›

theorem root_of_up_eq (h : f.up x = x) : f.root x = x := by
  rw [root, if_pos h]

theorem root_up (x : Nat) : f.root (f.up x) = f.root x := by
  by_cases h : f.up x = x
  · rw [h]
  · rw [root.eq_1 f x, if_neg h]

/-- The root is the one map that is constant along parents and keeps the roots. -/
theorem root_eq {g : Nat → Nat} (hup : ∀ x, g (f.up x) = g x) (hroot : ∀ x, f.up x = x → g x = x)
    (x : Nat) : f.root x = g x := by
  induction x using Nat.strongRecOn with
  | ind x ih =>
    by_cases h : f.up x = x
    · rw [f.root_of_up_eq h, hroot x h]
    · rw [← f.root_up x, ih (f.up x) (Nat.lt_of_le_of_ne (f.up_le x) h), hup x]

theorem up_root (x : Nat) : f.up (f.root x) = f.root x := by
  induction x using Nat.strongRecOn with
  | ind x ih =>
    by_cases h : f.up x = x
    · rw [f.root_of_up_eq h, h]
    · rw [← f.root_up x]
      exact ih (f.up x) (Nat.lt_of_le_of_ne (f.up_le x) h)

theorem root_root (x : Nat) : f.root (f.root x) = f.root x := f.root_of_up_eq (f.up_root x)

theorem up_eq_iff : f.up x = x ↔ f.root x = x :=
  ⟨f.root_of_up_eq, fun h => h ▸ f.up_root x⟩

theorem root_le (x : Nat) : f.root x ≤ x := by
  induction x using Nat.strongRecOn with
  | ind x ih =>
    by_cases h : f.up x = x
    · exact (f.root_of_up_eq h).le
    · rw [← f.root_up x]
      exact (ih (f.up x) (Nat.lt_of_le_of_ne (f.up_le x) h)).trans (f.up_le x)

/-- Everything alone. -/
def discrete : Forest := ⟨id, fun _ => Nat.le_refl _⟩

@[simp] theorem root_discrete (x : Nat) : discrete.root x = x := discrete.root_of_up_eq rfl

/-- Point `x` at its grandparent. -/
def halve (x : Nat) : Forest where
  up := Function.update f.up x (f.up (f.up x))
  up_le y := by
    by_cases h : y = x
    · rw [h, Function.update_self]
      exact (f.up_le _).trans (f.up_le x)
    · rw [Function.update_of_ne h]
      exact f.up_le y

/-- Halving a path moves no root. -/
theorem root_halve (x : Nat) : (f.halve x).root = f.root := by
  refine funext fun y => (f.halve x).root_eq (fun y => ?_) (fun y hy => ?_) y
  · by_cases h : y = x
    · simp only [halve, h, Function.update_self, f.root_up]
    · simp only [halve, Function.update_of_ne h, f.root_up]
  · refine f.root_of_up_eq ?_
    by_cases h : y = x
    · simp only [halve, h, Function.update_self] at hy
      rw [h]
      -- a grandparent at `x` squeezes the parent between
      exact Nat.le_antisymm (f.up_le x) (hy.ge.trans (f.up_le _))
    · simpa only [halve, Function.update_of_ne h] using hy

/-- Point the root `drop` at the smaller root `keep`. -/
def link (keep drop : Nat) (h : keep ≤ drop) : Forest where
  up := Function.update f.up drop keep
  up_le y := by
    by_cases hy : y = drop
    · rwa [hy, Function.update_self]
    · rw [Function.update_of_ne hy]
      exact f.up_le y

/-- The classes of the two roots become one, the others stay. -/
theorem root_link {keep drop : Nat} (h : keep ≤ drop) (hkeep : f.up keep = keep)
    (hdrop : f.up drop = drop) (y : Nat) :
    (f.link keep drop h).root y = if f.root y = drop then keep else f.root y := by
  have hk : f.root keep = keep := f.root_of_up_eq hkeep
  refine (f.link keep drop h).root_eq (g := fun y => if f.root y = drop then keep else f.root y)
    (fun y => ?_) (fun y hy => ?_) y
  · by_cases hy : y = drop
    · simp only [link, hy, Function.update_self, hk, f.root_of_up_eq hdrop, if_true]
      split
      · rfl
      · rfl
    · simp only [link, Function.update_of_ne hy, f.root_up]
  · by_cases hyd : y = drop
    · simp only [link, hyd, Function.update_self] at hy
      rw [hyd, f.root_of_up_eq hdrop, if_pos rfl, hy]
    · simp only [link, Function.update_of_ne hyd] at hy
      simp only [f.root_of_up_eq hy, if_neg hyd]

end Forest

/-! ## Classes -/

variable {α β : Type*} {Link : α → α → Prop} {cls cls' cls'' : α → β} {i j : α}

/-- Class mates are linked. -/
def Complete (Link : α → α → Prop) (cls : α → β) : Prop :=
  ∀ ⦃x y⦄, cls x = cls y → x ≠ y → Link x y

/-- The two are together, or a cross pair of their classes is not linked. -/
def Settled (Link : α → α → Prop) (cls : α → β) (i j : α) : Prop :=
  cls i = cls j ∨ ∃ x y, cls x = cls i ∧ cls y = cls j ∧ ¬ Link x y

/-- What a proposed merge of the classes of `i` and `j` does. -/
structure Attempt (Link : α → α → Prop) (i j : α) (cls cls' : α → β) : Prop where
  coarser : ∀ ⦃x y⦄, cls x = cls y → cls' x = cls' y
  complete : Complete Link cls → Complete Link cls'
  settled : Settled Link cls' i j

/-- It leaves the classes alone when it is settled already. -/
theorem Attempt.skip (h : Settled Link cls i j) : Attempt Link i j cls cls :=
  ⟨fun _ _ hxy => hxy, fun hc => hc, h⟩

/-- It joins them when all cross pairs are linked. -/
theorem Attempt.join (symm : ∀ ⦃x y⦄, Link x y → Link y x)
    (hall : ∀ x y, cls x = cls i → cls y = cls j → Link x y) (together : cls' i = cls' j)
    (coarser : ∀ ⦃x y⦄, cls x = cls y → cls' x = cls' y)
    (only : ∀ ⦃x y⦄, cls' x = cls' y → cls x = cls y ∨
      (cls x = cls i ∧ cls y = cls j) ∨ (cls x = cls j ∧ cls y = cls i)) :
    Attempt Link i j cls cls' := by
  refine ⟨coarser, fun hc x y hxy hne => ?_, .inl together⟩
  rcases only hxy with hsame | ⟨hx, hy⟩ | ⟨hx, hy⟩
  · exact hc hsame hne
  · exact hall x y hx hy
  · exact symm (hall y x hy hx)

/-- Coarser classes stay settled. -/
theorem Settled.coarser (h : Settled Link cls i j) (hc : ∀ ⦃x y⦄, cls x = cls y → cls' x = cls' y) :
    Settled Link cls' i j := by
  rcases h with hsame | ⟨x, y, hx, hy, hno⟩
  · exact .inl (hc hsame)
  · exact .inr ⟨x, y, hc hx, hc hy, hno⟩

theorem Settled.symm (symm : ∀ ⦃x y⦄, Link x y → Link y x) (h : Settled Link cls i j) :
    Settled Link cls j i := by
  rcases h with hsame | ⟨x, y, hx, hy, hno⟩
  · exact .inl hsame.symm
  · exact .inr ⟨y, x, hy, hx, fun hyx => hno (symm hyx)⟩

/-- A run of proposals, each attempted on what the ones before left: class mates stay linked, and
every proposal ends settled. -/
theorem attempts {S P : Type*} (classes : S → α → β) (ends : P → α × α) (step : S → P → S)
    (proposals : List P) {Inv : S → Prop}
    (h : ∀ s, ∀ p ∈ proposals, Inv s →
      Inv (step s p) ∧ Attempt Link (ends p).1 (ends p).2 (classes s) (classes (step s p)))
    {s : S} (hs : Inv s) (hc : Complete Link (classes s)) :
    Inv (proposals.foldl step s) ∧ Complete Link (classes (proposals.foldl step s)) ∧
      (∀ ⦃x y⦄, classes s x = classes s y →
        classes (proposals.foldl step s) x = classes (proposals.foldl step s) y) ∧
      ∀ p ∈ proposals, Settled Link (classes (proposals.foldl step s)) (ends p).1 (ends p).2 := by
  induction proposals generalizing s with
  | nil => exact ⟨hs, hc, fun _ _ hxy => hxy, fun _ hp => absurd hp List.not_mem_nil⟩
  | cons p rest ih =>
    obtain ⟨hstep, hattempt⟩ := h s p List.mem_cons_self hs
    obtain ⟨hinv, hcomplete, hcoarser, hsettled⟩ :=
      ih (fun s q hq => h s q (List.mem_cons_of_mem _ hq)) hstep (hattempt.complete hc)
    refine ⟨hinv, hcomplete, fun x y hxy => hcoarser (hattempt.coarser hxy), fun q hq => ?_⟩
    rcases List.mem_cons.mp hq with rfl | hq
    · exact hattempt.settled.coarser hcoarser
    · exact hsettled q hq

/-- Once every linked pair is settled, two classes always have a cross pair that is not linked. -/
theorem exists_unlinked (h : ∀ x y, Link x y → Settled Link cls x y) (hne : cls i ≠ cls j) :
    ∃ x y, cls x = cls i ∧ cls y = cls j ∧ ¬ Link x y := by
  by_cases hlink : Link i j
  · exact (h i j hlink).resolve_left hne
  · exact ⟨i, j, rfl, rfl, hlink⟩

end MarloweAgent.Library
