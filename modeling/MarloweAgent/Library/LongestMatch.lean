import Mathlib.Data.List.Basic
import Mathlib.Data.List.Infix

/-! A text cut into pieces that have a value, the longest such piece first. Which values there are may
differ at the beginning of the text. A text at a place of which no piece begins has no cut. -/

namespace MarloweAgent.Library

variable {α β : Type*}

/-- The longest beginning of a text, of at most this length, that has a value, with its length. -/
def longest (value : List α → Option β) (text : List α) : Nat → Option (Nat × β)
  | 0 => none
  | n + 1 =>
    match value (text.take (n + 1)) with
    | some v => some (n + 1, v)
    | none => longest value text n

section
variable {value : List α → Option β} {text : List α} {bound n : Nat} {v : β}

theorem longest_eq_some (h : longest value text bound = some (n, v)) :
    0 < n ∧ n ≤ bound ∧ value (text.take n) = some v ∧
      ∀ k, n < k → k ≤ bound → value (text.take k) = none := by
  induction bound with
  | zero => cases h
  | succ bound ih =>
    rw [longest] at h
    split at h
    · rename_i w hvalue
      obtain ⟨rfl, rfl⟩ := Prod.mk.inj (Option.some.inj h)
      exact ⟨Nat.succ_pos _, le_rfl, hvalue, fun k hk hle => absurd hle (Nat.not_le.mpr hk)⟩
    · rename_i hnone
      obtain ⟨hpos, hle, hvalue, hlonger⟩ := ih h
      refine ⟨hpos, Nat.le_succ_of_le hle, hvalue, fun k hk hkb => ?_⟩
      rcases Nat.le_succ_iff.mp hkb with hkb | rfl
      · exact hlonger k hk hkb
      · exact hnone

theorem longest_of (hpos : 0 < n) (hle : n ≤ bound) (hvalue : value (text.take n) = some v)
    (hlonger : ∀ k, n < k → k ≤ bound → value (text.take k) = none) :
    longest value text bound = some (n, v) := by
  induction bound with
  | zero => omega
  | succ bound ih =>
    rcases Nat.le_succ_iff.mp hle with hle | rfl
    · rw [longest, hlonger _ (Nat.lt_succ_of_le hle) le_rfl]
      exact ih hle fun k hk hkb => hlonger k hk (Nat.le_succ_of_le hkb)
    · rw [longest, hvalue]

end

/-! ## Cutting -/

/-- The values of the pieces of a text, cut off one after the other. -/
def cut (value : Bool → List α → Option β) (first : Bool) (text : List α) : Option (List β) :=
  if text = [] then some []
  else
    match _hlongest : longest (value first) text text.length with
    | none => none
    | some (n, v) => (cut value false (text.drop n)).map (v :: ·)
termination_by text.length
decreasing_by
  have hpos := (longest_eq_some _hlongest).1
  have hlength := List.length_pos_iff.mpr ‹text ≠ []›
  rw [List.length_drop]
  omega

/-- These pieces, with their values, spell the text, and at the place of each no longer one has a value. -/
inductive Spells (value : Bool → List α → Option β) : Bool → List α → List (List α × β) → Prop
  | nil (first) : Spells value first [] []
  | cons {first piece rest v more} : piece ≠ [] → value first piece = some v →
      (∀ longer, longer <+: piece ++ rest → piece.length < longer.length → value first longer = none) →
      Spells value false rest more → Spells value first (piece ++ rest) ((piece, v) :: more)

section
variable {value : Bool → List α → Option β} {first : Bool} {text : List α}

theorem Spells.flatten {pieces : List (List α × β)} (h : Spells value first text pieces) :
    (pieces.map Prod.fst).flatten = text := by
  induction h with
  | nil => rfl
  | cons _ _ _ _ ih => rw [List.map_cons, List.flatten_cons, ih]

theorem Spells.mem {pieces : List (List α × β)} (h : Spells value first text pieces) {piece : List α} {v : β}
    (hmem : (piece, v) ∈ pieces) : piece <:+: text ∧ ∃ atStart, value atStart piece = some v := by
  induction h with
  | nil => cases hmem
  | cons _ hvalue _ _ ih =>
    rcases List.mem_cons.mp hmem with heq | hmem
    · obtain ⟨rfl, rfl⟩ := Prod.mk.inj heq
      exact ⟨(List.prefix_append _ _).isInfix, _, hvalue⟩
    · obtain ⟨hpart, hsome⟩ := ih hmem
      exact ⟨hpart.trans (List.suffix_append _ _).isInfix, hsome⟩

theorem cut_nil : cut value first [] = some [] := by
  rw [cut, if_pos rfl]

theorem cut_of_longest {n : Nat} {v : β} (h : longest (value first) text text.length = some (n, v)) :
    cut value first text = (cut value false (text.drop n)).map (v :: ·) := by
  have hne : text ≠ [] := by
    rintro rfl
    cases h
  rw [cut, if_neg hne]
  split
  · rename_i hnone
    rw [hnone] at h
    cases h
  · rename_i hsome
    rw [hsome] at h
    obtain ⟨rfl, rfl⟩ := Prod.mk.inj (Option.some.inj h)
    rfl

theorem cut_of_longest_none (hne : text ≠ []) (h : longest (value first) text text.length = none) :
    cut value first text = none := by
  rw [cut, if_neg hne]
  split
  · rfl
  · rename_i hsome
    rw [hsome] at h
    cases h

/-- The values of a cut are those of pieces that spell the text. -/
theorem cut_eq_some {vs : List β} (h : cut value first text = some vs) :
    ∃ pieces, Spells value first text pieces ∧ pieces.map Prod.snd = vs := by
  induction first, text using cut.induct value generalizing vs with
  | case1 first =>
    rw [cut_nil] at h
    obtain rfl := Option.some.inj h
    exact ⟨[], .nil _, rfl⟩
  | case2 first text hne hlongest =>
    rw [cut_of_longest_none hne hlongest] at h
    cases h
  | case3 first text hne n v hlongest ih =>
    rw [cut_of_longest hlongest] at h
    obtain ⟨more, hmore, rfl⟩ := Option.map_eq_some_iff.mp h
    obtain ⟨pieces, hpieces, rfl⟩ := ih hmore
    obtain ⟨hpos, hle, hvalue, hlonger⟩ := longest_eq_some hlongest
    have hlength : (text.take n).length = n := by rw [List.length_take, Nat.min_eq_left hle]
    have hpiece : text.take n ≠ [] := List.ne_nil_of_length_pos (hpos.trans_eq hlength.symm)
    have hnone : ∀ longer, longer <+: text.take n ++ text.drop n → (text.take n).length < longer.length →
        value first longer = none := by
      intro longer hlonger' hlt
      rw [List.take_append_drop] at hlonger'
      rw [List.prefix_iff_eq_take.mp hlonger']
      exact hlonger _ (hlength.symm.trans_lt hlt) hlonger'.length_le
    have hspells : Spells value first (text.take n ++ text.drop n) _ := .cons hpiece hvalue hnone hpieces
    rw [List.take_append_drop] at hspells
    exact ⟨_, hspells, rfl⟩

/-- A text has one spelling at most, and its cut is that. -/
theorem Spells.cut_eq {pieces : List (List α × β)} (h : Spells value first text pieces) :
    cut value first text = some (pieces.map Prod.snd) := by
  induction h with
  | nil => exact cut_nil
  | @cons first piece rest v more hne hvalue hlonger _ ih =>
    have hlongest : longest (value first) (piece ++ rest) (piece ++ rest).length = some (piece.length, v) := by
      refine longest_of (List.length_pos_iff.mpr hne) (by simp) (by simpa using hvalue) fun k hk hle => ?_
      refine hlonger _ (List.take_prefix _ _) ?_
      rwa [List.length_take, Nat.min_eq_left hle]
    rw [cut_of_longest hlongest, List.drop_left, ih]
    rfl

end

end MarloweAgent.Library

/-! ## Fair cuts

Two lists that have to fit into one room. While they do not, the longer of them loses its last element.
The first loses it where they are as long. -/

namespace MarloweAgent.Library

variable {α : Type*}

def fairCut (room : Nat) (a b : List α) : List α × List α :=
  if room < a.length + b.length then
    if b.length ≤ a.length then fairCut room a.dropLast b else fairCut room a b.dropLast
  else (a, b)
termination_by a.length + b.length
decreasing_by all_goals (simp only [List.length_dropLast]; omega)

/-- How many elements are left of lists of these lengths: all of them where they fit, else all of a list
that fits in its half and what room it leaves to the other, and else the halves. -/
def shares (room m n : Nat) : Nat × Nat :=
  if m + n ≤ room then (m, n)
  else if m ≤ room / 2 then (m, room - m)
  else if n ≤ (room + 1) / 2 then (room - n, n)
  else (room / 2, (room + 1) / 2)

section
variable {room m n : Nat}

theorem shares_le : (shares room m n).1 ≤ m ∧ (shares room m n).2 ≤ n := by
  unfold shares
  split_ifs <;> dsimp only <;> omega

theorem shares_add (h : room ≤ m + n) : (shares room m n).1 + (shares room m n).2 = room := by
  unfold shares
  split_ifs <;> dsimp only <;> omega

/-- The loss of one element of the longer list changes nothing of what is left at the end. -/
theorem shares_pred_left (h : room < m + n) (hnm : n ≤ m) : shares room (m - 1) n = shares room m n := by
  unfold shares
  split_ifs <;> first | rfl | (rw [Prod.mk.injEq]; omega)

theorem shares_pred_right (h : room < m + n) (hmn : m < n) : shares room m (n - 1) = shares room m n := by
  unfold shares
  split_ifs <;> first | rfl | (rw [Prod.mk.injEq]; omega)

end

theorem take_dropLast {l : List α} {n : Nat} (h : n ≤ l.length - 1) : l.dropLast.take n = l.take n := by
  rw [List.dropLast_eq_take, List.take_take, Nat.min_eq_left h]

/-- What is left are the beginnings of the lists, of these lengths. -/
theorem fairCut_eq (room : Nat) (a b : List α) :
    fairCut room a b =
      (a.take (shares room a.length b.length).1, b.take (shares room a.length b.length).2) := by
  induction a, b using fairCut.induct room with
  | case1 a b hlong hfirst ih =>
    have hshares := shares_pred_left hlong hfirst
    have hfit : (shares room a.length b.length).1 ≤ a.length - 1 := hshares ▸ shares_le.1
    rw [fairCut, if_pos hlong, if_pos hfirst, ih, List.length_dropLast, hshares, take_dropLast hfit]
  | case2 a b hlong hsecond ih =>
    have hshares := shares_pred_right hlong (Nat.not_le.mp hsecond)
    have hfit : (shares room a.length b.length).2 ≤ b.length - 1 := hshares ▸ shares_le.2
    rw [fairCut, if_pos hlong, if_neg hsecond, ih, List.length_dropLast, hshares, take_dropLast hfit]
  | case3 a b hfits =>
    have hshares : shares room a.length b.length = (a.length, b.length) := if_pos (Nat.not_lt.mp hfits)
    rw [fairCut, if_neg hfits, hshares, List.take_length, List.take_length]

end MarloweAgent.Library
