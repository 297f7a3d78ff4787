import Mathlib.Data.List.Basic
import Mathlib.Data.List.Nodup
import Mathlib.Data.Nat.Init

/-! A line of values cut into runs where the step from one value to the next is too wide, and numbers that
are written to places of a list, each place once. -/

namespace MarloweAgent.Library

variable {α β : Type*}

/-! ## Runs -/

/-- The numbers of the runs the values belong to. -/
def runsFrom (wide : α → α → Bool) (previous : Option α) (group : Nat) : List α → List Nat
  | [] => []
  | a :: rest =>
    let group := if previous.any fun before => wide before a then group + 1 else group
    group :: runsFrom wide (some a) group rest

section
variable {wide : α → α → Bool} {previous : Option α} {group : Nat} {l : List α}

theorem length_runsFrom (wide : α → α → Bool) (previous : Option α) (group : Nat) (l : List α) :
    (runsFrom wide previous group l).length = l.length := by
  induction l generalizing previous group with
  | nil => rfl
  | cons a rest ih => exact congrArg Nat.succ (ih _ _)

/-- The number goes up with a wide step and stays otherwise. -/
theorem getElem?_runsFrom_succ {k : Nat} {a b : α} (ha : l[k]? = some a) (hb : l[k + 1]? = some b) :
    (runsFrom wide previous group l)[k + 1]? =
      ((runsFrom wide previous group l)[k]?).map fun run => if wide a b then run + 1 else run := by
  induction l generalizing previous group k with
  | nil => cases ha
  | cons c rest ih =>
    cases k with
    | zero =>
      obtain rfl := Option.some.inj ha
      cases rest with
      | nil => cases hb
      | cons d rest =>
        obtain rfl := Option.some.inj hb
        rfl
    | succ k => exact ih ha hb

/-- Of two values the later has the same number exactly if no step between them is wide, and never a lower
one. -/
theorem runsFrom_eq_iff {p q i j : Nat} (hpq : p ≤ q) (hp : (runsFrom wide previous group l)[p]? = some i)
    (hq : (runsFrom wide previous group l)[q]? = some j) :
    i ≤ j ∧ (i = j ↔ ∀ k a b, p ≤ k → k < q → l[k]? = some a → l[k + 1]? = some b → wide a b = false) := by
  induction q, hpq using Nat.le_induction generalizing j with
  | base =>
    obtain rfl := Option.some.inj (hp.symm.trans hq)
    exact ⟨Nat.le_refl _, iff_of_true rfl fun k _ _ hle hlt => absurd hlt (Nat.not_lt.mpr hle)⟩
  | succ q hpq ih =>
    have hlength : q + 1 < l.length := by
      obtain ⟨h, -⟩ := List.getElem?_eq_some_iff.mp hq
      rwa [length_runsFrom] at h
    have hthis := List.getElem?_eq_getElem (Nat.lt_of_succ_lt hlength)
    have hnext := List.getElem?_eq_getElem hlength
    have hstep : (runsFrom wide previous group l)[q + 1]? =
        ((runsFrom wide previous group l)[q]?).map fun run => if wide l[q] l[q + 1] then run + 1 else run :=
      getElem?_runsFrom_succ hthis hnext
    rw [hq] at hstep
    obtain ⟨run, hrun, hj⟩ := Option.map_eq_some_iff.mp hstep.symm
    obtain ⟨hle, hiff⟩ := ih hrun
    have hsplit : (∀ k a b, p ≤ k → k < q + 1 → l[k]? = some a → l[k + 1]? = some b → wide a b = false) ↔
        (∀ k a b, p ≤ k → k < q → l[k]? = some a → l[k + 1]? = some b → wide a b = false) ∧
          wide l[q] l[q + 1] = false := by
      refine ⟨fun h => ⟨fun k a b hk hkq => h k a b hk (Nat.lt_succ_of_lt hkq),
        h q _ _ hpq (Nat.lt_succ_self q) hthis hnext⟩, fun ⟨h, hlast⟩ k a b hk hkq ha hb => ?_⟩
      rcases Nat.lt_succ_iff_lt_or_eq.mp hkq with hkq | rfl
      · exact h k a b hk hkq ha hb
      · obtain rfl := Option.some.inj (hthis.symm.trans ha)
        obtain rfl := Option.some.inj (hnext.symm.trans hb)
        exact hlast
    rw [hsplit, ← hiff]
    cases hwide : wide l[q] l[q + 1] with
    | true =>
      rw [hwide, if_pos rfl] at hj
      exact ⟨by omega, iff_of_false (by omega) (by simp)⟩
    | false =>
      rw [hwide, if_neg (by decide)] at hj
      obtain rfl : run = j := hj
      simp [hle]

end

/-! ## Places -/

/-- Each value is written to its place. -/
def scatter (l : List β) (pairs : List (Nat × β)) : List β :=
  pairs.foldl (fun l pair => l.set pair.1 pair.2) l

theorem length_scatter (l : List β) (pairs : List (Nat × β)) : (scatter l pairs).length = l.length := by
  induction pairs generalizing l with
  | nil => rfl
  | cons pair rest ih => exact (ih _).trans List.length_set

theorem getElem?_scatter_of_notMem {l : List β} {pairs : List (Nat × β)} {i : Nat}
    (h : i ∉ pairs.map Prod.fst) : (scatter l pairs)[i]? = l[i]? := by
  induction pairs generalizing l with
  | nil => rfl
  | cons pair rest ih =>
    obtain ⟨hi, hrest⟩ := not_or.mp (mt List.mem_cons.mpr h)
    exact (ih hrest).trans (List.getElem?_set_ne (Ne.symm hi))

theorem getElem?_scatter {l : List β} {pairs : List (Nat × β)} {i : Nat} {v : β}
    (hnodup : (pairs.map Prod.fst).Nodup) (hmem : (i, v) ∈ pairs) (hi : i < l.length) :
    (scatter l pairs)[i]? = some v := by
  induction pairs generalizing l with
  | nil => cases hmem
  | cons pair rest ih =>
    obtain ⟨hnew, hrest⟩ := List.nodup_cons.mp hnodup
    rcases List.mem_cons.mp hmem with rfl | hmem
    · exact (getElem?_scatter_of_notMem hnew).trans (List.getElem?_set_self hi)
    · exact ih hrest hmem (by rwa [List.length_set])

end MarloweAgent.Library

/-! ## Slots

Items of a list that are handed elsewhere together, and what comes back for them put at their
places. Where less comes back than was handed on, the places behind stay empty. -/

namespace MarloweAgent.Library

variable {α β : Type*}

/-- The places of the items that are handed on, where the first item has this one. -/
def slotsFrom (p : α → Bool) (first : Nat) (items : List α) : List Nat :=
  ((items.zipIdx first).filter fun item => p item.1).map Prod.snd

def slots (p : α → Bool) (items : List α) : List Nat := slotsFrom p 0 items

/-- What came back, at these places. -/
def fill (row : List (Option β)) (places : List Nat) (back : List β) : List (Option β) :=
  (places.zip back).foldl (fun row put => row.set put.1 (some put.2)) row

/-- Each item that is handed on takes the next of what came back. -/
def place (p : α → Bool) : List α → List β → List (Option β)
  | [], _ => []
  | a :: rest, back => if p a then back.head? :: place p rest back.tail else none :: place p rest back

section
variable {p : α → Bool}

theorem slotsFrom_cons (first : Nat) (a : α) (rest : List α) :
    slotsFrom p first (a :: rest) =
      if p a then first :: slotsFrom p (first + 1) rest else slotsFrom p (first + 1) rest := by
  unfold slotsFrom
  rw [List.zipIdx_cons, List.filter_cons]
  split <;> rfl

theorem place_nil (items : List α) : place p items ([] : List β) = List.replicate items.length none := by
  induction items with
  | nil => rfl
  | cons a rest ih =>
    rw [place, List.head?_nil, List.tail_nil, ih, ite_self]
    rfl

/-- The row behind the places that are done is filled item by item. -/
theorem fill_slotsFrom (done : List (Option β)) (items : List α) (back : List β) :
    fill (done ++ List.replicate items.length none) (slotsFrom p done.length items) back =
      done ++ place p items back := by
  induction items generalizing done back with
  | nil => simp [slotsFrom, fill, place]
  | cons a rest ih =>
    have hnext : ∀ put : Option β, done.length + 1 = (done ++ [put]).length := fun put => by simp
    have hrow : ∀ put : Option β, done ++ put :: List.replicate rest.length none =
        (done ++ [put]) ++ List.replicate rest.length none := fun put => by simp
    rw [slotsFrom_cons, place, List.length_cons, List.replicate_succ]
    by_cases ha : p a = true
    · rw [if_pos ha, if_pos ha]
      cases back with
      | nil => rw [List.head?_nil, List.tail_nil, place_nil, fill, List.zip_nil_right, List.foldl_nil]
      | cons b back =>
        have hset : (done ++ none :: List.replicate rest.length none).set done.length (some b) =
            (done ++ [some b]) ++ List.replicate rest.length none := by simp
        rw [fill, List.zip_cons_cons, List.foldl_cons, hset, hnext (some b)]
        exact (ih (done ++ [some b]) back).trans (by simp)
    · rw [if_neg ha, if_neg ha, hrow none, hnext none]
      exact (ih (done ++ [none]) back).trans (by simp)

/-- What came back stands with the items it was handed on for. -/
theorem fill_slots (items : List α) (back : List β) :
    fill (List.replicate items.length none) (slots p items) back = place p items back :=
  fill_slotsFrom [] items back

theorem length_place (items : List α) (back : List β) : (place p items back).length = items.length := by
  induction items generalizing back with
  | nil => rfl
  | cons a rest ih =>
    rw [place]
    split <;> simp [ih]

/-- An item takes what came back at its own place among those that are handed on. -/
theorem getElem?_place (items : List α) (back : List β) (i : Nat) :
    (place p items back)[i]? =
      items[i]?.map fun a => if p a then back[(items.take i).countP p]? else none := by
  induction items generalizing back i with
  | nil => simp [place]
  | cons a rest ih =>
    rw [place]
    cases i with
    | zero => split <;> simp [*, List.head?_eq_getElem?]
    | succ i =>
      split
      next ha => simp [ih, ha, List.getElem?_tail]
      next ha => simp [ih, ha]

/-- The item at a place is handed on at its own place among those that are. -/
theorem getElem?_filter_countP {items : List α} {i : Nat} {a : α} (hi : items[i]? = some a)
    (ha : p a = true) : (items.filter p)[(items.take i).countP p]? = some a := by
  induction items generalizing i with
  | nil => simp at hi
  | cons b rest ih =>
    cases i with
    | zero =>
      obtain rfl : b = a := by simpa using hi
      simp [ha]
    | succ i =>
      rw [List.getElem?_cons_succ] at hi
      rw [List.filter_cons, List.take_succ_cons, List.countP_cons]
      split
      next hb => simpa using ih hi
      next hb => simpa using ih hi

/-- Each of the items that are handed on has a place in the list. -/
theorem exists_place {items : List α} {k : Nat} (hk : k < (items.filter p).length) :
    ∃ i a, items[i]? = some a ∧ p a = true ∧ (items.take i).countP p = k := by
  induction items generalizing k with
  | nil => simp at hk
  | cons a rest ih =>
    rw [List.filter_cons] at hk
    by_cases ha : p a = true
    · rw [if_pos ha, List.length_cons] at hk
      cases k with
      | zero => exact ⟨0, a, rfl, ha, rfl⟩
      | succ k =>
        obtain ⟨i, b, hi, hb, hcount⟩ := ih (Nat.lt_of_succ_lt_succ hk)
        exact ⟨i + 1, b, hi, hb, by simp [ha, hcount]⟩
    · rw [if_neg ha] at hk
      obtain ⟨i, b, hi, hb, hcount⟩ := ih hk
      exact ⟨i + 1, b, hi, hb, by simp [ha, hcount]⟩

end

end MarloweAgent.Library
