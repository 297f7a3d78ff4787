import Mathlib.Algebra.Ring.Nat
import Mathlib.Data.List.Basic
import Mathlib.Data.List.Sort

/-! Pieces of several sizes on pages. A page takes the pieces in their order, as many as its
room and the count it allows leave. -/

namespace MarloweAgent.Library

variable {α : Type*} {size : α → Nat} {room most : Nat} {pieces : List α}

/-! ## One page -/

/-- How many of the pieces the room is enough for, one after the other. -/
def fitting (size : α → Nat) : Nat → List α → Nat
  | _, [] => 0
  | room, a :: rest => if size a ≤ room then fitting size (room - size a) rest + 1 else 0

theorem fitting_le (size : α → Nat) (room : Nat) (pieces : List α) :
    fitting size room pieces ≤ pieces.length := by
  induction pieces generalizing room with
  | nil => exact Nat.le_refl 0
  | cons a rest ih =>
    rw [fitting, List.length_cons]
    split
    next => exact Nat.succ_le_succ (ih _)
    next => exact Nat.zero_le _

theorem fitting_eq_length_iff :
    fitting size room pieces = pieces.length ↔ (pieces.map size).sum ≤ room := by
  induction pieces generalizing room with
  | nil => simp [fitting]
  | cons a rest ih =>
    rw [fitting, List.map_cons, List.sum_cons, List.length_cons]
    split
    next hfits =>
      rw [Nat.add_right_cancel_iff, ih]
      omega
    next hover => omega

theorem fitting_pos (hne : pieces ≠ []) (hsmall : ∀ a ∈ pieces, size a ≤ room) :
    0 < fitting size room pieces := by
  obtain ⟨a, rest, rfl⟩ := List.exists_cons_of_ne_nil hne
  rw [fitting, if_pos (hsmall a List.mem_cons_self)]
  exact Nat.succ_pos _

/-! ## All pages -/

/-- The pages of some pieces, as far as there is room for the first of those left. -/
def pack (size : α → Nat) (room most : Nat) (pieces : List α) : List (List α) :=
  let taken := fitting size room (pieces.take most)
  if _h : taken = 0 then [] else pieces.take taken :: pack size room most (pieces.drop taken)
termination_by pieces.length
decreasing_by
  have hle := fitting_le size room (pieces.take most)
  rw [List.length_take] at hle
  rw [List.length_drop]
  omega

theorem pack_nil : pack size room most [] = [] := by
  unfold pack
  simp [fitting]

theorem pack_cons (htaken : 0 < fitting size room (pieces.take most)) :
    pack size room most pieces = pieces.take (fitting size room (pieces.take most)) ::
      pack size room most (pieces.drop (fitting size room (pieces.take most))) := by
  conv_lhs => unfold pack
  exact dif_neg (Nat.ne_of_gt htaken)

end MarloweAgent.Library

/-! ## Windows

Windows around marks in a row of places. Windows that overlap are merged: each begins where
the one before it has ended, if that is later. -/

namespace MarloweAgent.Library

/-- The places within so many of a mark, up to the last, from the next on that has not been taken. -/
def windows (around last : Nat) : Nat → List Nat → List Nat
  | _, [] => []
  | next, m :: marks =>
    let first := max (m - around) next
    let stop := min (m + around) last
    List.range' first (stop + 1 - first) ++ windows around last (stop + 1) marks

section
variable {around last next : Nat} {marks : List Nat}

/-- The places in windows are those close to some mark. -/
theorem mem_windows (hsorted : marks.Pairwise (· < ·))
    (hnext : ∀ m ∈ marks, next ≤ min (m + around) last + 1) {i : Nat} :
    i ∈ windows around last next marks ↔
      next ≤ i ∧ i ≤ last ∧ ∃ m ∈ marks, m ≤ i + around ∧ i ≤ m + around := by
  induction marks generalizing next with
  | nil => simp [windows]
  | cons m marks ih =>
    obtain ⟨hfirst, hsorted⟩ := List.pairwise_cons.mp hsorted
    have hm := hnext m List.mem_cons_self
    have hlater : ∀ m' ∈ marks, min (m + around) last + 1 ≤ min (m' + around) last + 1 := fun m' hm' => by
      have := hfirst m' hm'
      omega
    rw [windows, List.mem_append, ih hsorted hlater, List.mem_range'_1]
    constructor
    · rintro (hnear | ⟨hbehind, hlast, m', hm', hnear⟩)
      · exact ⟨by omega, by omega, m, List.mem_cons_self, by omega, by omega⟩
      · exact ⟨by omega, hlast, m', List.mem_cons_of_mem _ hm', hnear⟩
    · rintro ⟨hi, hlast, m', hm', hnear⟩
      by_cases hstop : min (m + around) last + 1 ≤ i
      · rcases List.mem_cons.mp hm' with rfl | hm'
        · omega
        · exact .inr ⟨hstop, hlast, m', hm', hnear⟩
      · -- A place before the end of the first window is in it, whichever mark it is close to.
        have hle : m ≤ m' := by
          rcases List.mem_cons.mp hm' with rfl | hm'
          · exact Nat.le_refl m'
          · exact Nat.le_of_lt (hfirst m' hm')
        exact .inl (by omega)

/-- The places in windows come once, in their order. -/
theorem pairwise_windows (hsorted : marks.Pairwise (· < ·))
    (hnext : ∀ m ∈ marks, next ≤ min (m + around) last + 1) :
    (windows around last next marks).Pairwise (· < ·) := by
  induction marks generalizing next with
  | nil => exact .nil
  | cons m marks ih =>
    obtain ⟨hfirst, hsorted⟩ := List.pairwise_cons.mp hsorted
    have hlater : ∀ m' ∈ marks, min (m + around) last + 1 ≤ min (m' + around) last + 1 := fun m' hm' => by
      have := hfirst m' hm'
      omega
    rw [windows, List.pairwise_append]
    refine ⟨List.pairwise_lt_range', ih hsorted hlater, fun i hi j hj => ?_⟩
    rw [List.mem_range'_1] at hi
    have hj := ((mem_windows hsorted hlater).mp hj).1
    omega

/-- Merged windows around all marks are the places close to one, in their order. -/
theorem windows_eq_filter (hsorted : marks.Pairwise (· < ·)) :
    windows around last 0 marks =
      (List.range (last + 1)).filter fun i => marks.any fun m => m ≤ i + around ∧ i ≤ m + around := by
  have hnext : ∀ m ∈ marks, 0 ≤ min (m + around) last + 1 := fun _ _ => Nat.zero_le _
  refine (pairwise_windows hsorted hnext).eq_of_mem_iff (List.pairwise_lt_range.filter _) fun i => ?_
  rw [mem_windows hsorted hnext, List.mem_filter, List.mem_range]
  simp only [List.any_eq_true, decide_eq_true_eq]
  exact ⟨fun ⟨_, hlast, hnear⟩ => ⟨by omega, hnear⟩, fun ⟨hlast, hnear⟩ => ⟨by omega, by omega, hnear⟩⟩

end

end MarloweAgent.Library
