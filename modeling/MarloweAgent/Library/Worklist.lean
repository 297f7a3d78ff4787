import Mathlib.Algebra.Order.BigOperators.Group.List
import Mathlib.Algebra.Order.Ring.Nat

/-! A walk over a forest with a stack. An object shows items in a row, some of which lead to
another object, and those are put on the stack as they come. A walk that stops at a full state
has seen a first part of the depth-first order, the last object found walked first. -/

namespace MarloweAgent.Library

variable {β ε σ : Type*}

/-! ## Items in a row -/

/-- Items taken one by one, until one finds the state full. -/
def scan (full : σ → Bool) (stop : σ → σ) (absorb : σ → ε → σ) : σ → List ε → σ
  | s, [] => s
  | s, e :: rest => if full s then stop s else scan full stop absorb (absorb s e) rest

/-- No item but the last to come finds the state full. -/
def Room (full : σ → Bool) (absorb : σ → ε → σ) (s : σ) (items : List ε) : Prop :=
  ∀ before e after, items = before ++ e :: after → full (before.foldl absorb s) = false

theorem Room.nil {full : σ → Bool} {absorb : σ → ε → σ} {s : σ} : Room full absorb s [] :=
  fun before e after h => absurd h (by simp)

theorem Room.cons {full : σ → Bool} {absorb : σ → ε → σ} {s : σ} {e : ε} {rest : List ε}
    (hfull : full s = false) (hrest : Room full absorb (absorb s e) rest) :
    Room full absorb s (e :: rest) := by
  intro before d after hsplit
  cases before with
  | nil => exact hfull
  | cons c before =>
    obtain ⟨rfl, hrest'⟩ := List.cons_eq_cons.mp hsplit
    exact hrest before d after hrest'

/-- A scan takes all items, or stops at the first whose state is full. -/
theorem scan_cases (full : σ → Bool) (stop : σ → σ) (absorb : σ → ε → σ) (s : σ) (items : List ε) :
    (scan full stop absorb s items = items.foldl absorb s ∧ Room full absorb s items) ∨
    ∃ before e after, items = before ++ e :: after ∧ Room full absorb s before ∧
      full (before.foldl absorb s) = true ∧ scan full stop absorb s items = stop (before.foldl absorb s) := by
  induction items generalizing s with
  | nil => exact .inl ⟨rfl, .nil⟩
  | cons e rest ih =>
    by_cases hfull : full s = true
    · exact .inr ⟨[], e, rest, rfl, .nil, hfull, by rw [scan, if_pos hfull]; rfl⟩
    · rw [scan, if_neg hfull]
      have hroom := Bool.not_eq_true _ ▸ hfull
      rcases ih (absorb s e) with ⟨hall, hrest⟩ | ⟨before, d, after, rfl, hbefore, hstop, hresult⟩
      · exact .inl ⟨hall, .cons hroom hrest⟩
      · exact .inr ⟨e :: before, d, after, rfl, .cons hroom hbefore, hstop, hresult⟩

/-! ## The walk -/

/-- The items of one object: each is taken, and what it leads to goes on the stack. A full state
ends the row and empties the stack. -/
def listing (full : σ → Bool) (stop : σ → σ) (absorb : σ → ε → σ) (leads : ε → Option β) :
    List ε → σ → List β → σ × List β
  | [], s, stack => (s, stack)
  | e :: rest, s, stack =>
    if full s then (stop s, []) else listing full stop absorb leads rest (absorb s e) ((leads e).toList ++ stack)

/-- Objects whose items lead to lighter ones, all of an object's together. -/
structure Descending (items : β → List ε) (leads : ε → Option β) (weight : β → Nat) : Prop where
  lighter : ∀ b, (((items b).filterMap leads).map weight).sum < weight b

section
variable {items : β → List ε} {leads : ε → Option β} {weight : β → Nat}

theorem listing_weight (full : σ → Bool) (stop : σ → σ) (absorb : σ → ε → σ) (es : List ε) (s : σ)
    (stack : List β) : ((listing full stop absorb leads es s stack).2.map weight).sum ≤
      ((es.filterMap leads).map weight).sum + (stack.map weight).sum := by
  induction es generalizing s stack with
  | nil => simp [listing]
  | cons e rest ih =>
    rw [listing]
    split
    next => simp
    next =>
      have hrest := ih (absorb s e) ((leads e).toList ++ stack)
      cases hlead : leads e with
      | none =>
        rw [hlead] at hrest
        rw [List.filterMap_cons_none hlead]
        exact hrest
      | some b =>
        rw [hlead] at hrest
        rw [List.filterMap_cons_some hlead]
        simp only [Option.toList_some, List.cons_append, List.nil_append, List.map_cons,
          List.sum_cons] at hrest ⊢
        omega

/-- The loop: the object on top of the stack is listed, until the stack is empty. -/
def walk (h : Descending items leads weight) (full : σ → Bool) (stop : σ → σ) (absorb : σ → ε → σ) :
    List β → σ → σ
  | [], s => s
  | b :: stack, s =>
    walk h full stop absorb (listing full stop absorb leads (items b) s stack).2
      (listing full stop absorb leads (items b) s stack).1
termination_by stack => (stack.map weight).sum
decreasing_by
  have hlisting : ((listing full stop absorb leads (items b) s stack).2.map weight).sum ≤
      (((items b).filterMap leads).map weight).sum + (stack.map weight).sum :=
    listing_weight full stop absorb (items b) s stack
  have hlight := h.lighter b
  rw [List.map_cons, List.sum_cons]
  omega

theorem Descending.lighter_of_mem (h : Descending items leads weight) {b c : β}
    (hc : c ∈ (items b).filterMap leads) : weight c < weight b :=
  Nat.lt_of_le_of_lt (List.le_sum_of_mem (List.mem_map_of_mem hc)) (h.lighter b)

/-- The items below an object, in the order a walk comes to them. -/
def order (h : Descending items leads weight) (b : β) : List ε :=
  items b ++ ((items b).filterMap leads).reverse.attach.flatMap fun c => order h c.1
termination_by weight b
decreasing_by exact h.lighter_of_mem (List.mem_reverse.mp c.2)

theorem order_eq (h : Descending items leads weight) (b : β) :
    order h b = items b ++ ((items b).filterMap leads).reverse.flatMap (order h) := by
  rw [order, List.flatMap_subtype (g := order h) (fun _ _ => rfl), List.unattach_attach]

theorem mem_order_of_mem_items (h : Descending items leads weight) {b : β} {e : ε} (he : e ∈ items b) :
    e ∈ order h b := by
  rw [order_eq]
  exact List.mem_append_left _ he

theorem mem_order_of_leads (h : Descending items leads weight) {b c : β} {e : ε}
    (hc : c ∈ (items b).filterMap leads) (he : e ∈ order h c) : e ∈ order h b := by
  rw [order_eq]
  exact List.mem_append_right _ (List.mem_flatMap.mpr ⟨c, List.mem_reverse.mpr hc, he⟩)

/-- One object is listed, where what is then on the stack is walked as it should be. -/
theorem walk_listing (h : Descending items leads weight) {full : σ → Bool} {stop : σ → σ} {absorb : σ → ε → σ}
    (es : List ε) (s : σ) (stack : List β)
    (hwalk : ∀ stack' s', (stack'.map weight).sum ≤ ((es.filterMap leads).map weight).sum +
      (stack.map weight).sum →
        walk h full stop absorb stack' s' = scan full stop absorb s' (stack'.flatMap (order h))) :
    walk h full stop absorb (listing full stop absorb leads es s stack).2
      (listing full stop absorb leads es s stack).1 =
        scan full stop absorb s (es ++ ((es.filterMap leads).reverse ++ stack).flatMap (order h)) := by
  induction es generalizing s stack with
  | nil => exact hwalk stack s (by simp)
  | cons e rest ih =>
    rw [listing, List.cons_append, scan]
    split
    next => rw [walk]
    next =>
      have hfound : (e :: rest).filterMap leads = (leads e).toList ++ rest.filterMap leads := by
        cases hlead : leads e <;> simp [hlead]
      have hsingle : (leads e).toList.reverse = (leads e).toList := by
        cases leads e <;> rfl
      rw [hfound] at hwalk ⊢
      rw [List.reverse_append, hsingle, List.append_assoc]
      refine ih _ _ fun stack' s' hle => hwalk stack' s' ?_
      simp only [List.map_append, List.sum_append] at hle ⊢
      omega

/-- The walk is the scan of the depth-first order. -/
theorem walk_eq_scan (h : Descending items leads weight) (full : σ → Bool) (stop : σ → σ) (absorb : σ → ε → σ)
    (stack : List β) (s : σ) :
    walk h full stop absorb stack s = scan full stop absorb s (stack.flatMap (order h)) := by
  induction hsize : (stack.map weight).sum using Nat.strongRecOn generalizing stack s with
  | ind size ih =>
    cases stack with
    | nil => rw [walk]; rfl
    | cons b stack =>
      rw [List.map_cons, List.sum_cons] at hsize
      have hlight := h.lighter b
      rw [walk, walk_listing h (items b) s stack fun stack' s' hle => ih _ (by omega) stack' s' rfl,
        List.flatMap_append, List.flatMap_cons, order_eq h b, List.append_assoc]

end

end MarloweAgent.Library
