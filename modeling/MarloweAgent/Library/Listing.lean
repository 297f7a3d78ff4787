import Mathlib.Data.List.Forall2
import Mathlib.Data.List.Flatten

/-! Texts that are written block by block and read line by line. A reader who looks for the lines that
carry a mark finds one for each block only where no block holds a second. -/

namespace MarloweAgent.Library

variable {α β : Type*}

/-! ## Lines -/

section
variable [DecidableEq α] {sep : α}

/-- Blocks with an end each have their own lines, and an empty one stands behind them. -/
theorem splitOn_blocks (block : β → List α) (blocks : List β) :
    (blocks.flatMap fun b => block b ++ [sep]).splitOn sep =
      (blocks.flatMap fun b => (block b).splitOn sep) ++ [[]] := by
  induction blocks with
  | nil => rfl
  | cons b rest ih =>
    rw [List.flatMap_cons, List.append_assoc, List.singleton_append, List.splitOn_append_cons_self, ih,
      List.flatMap_cons, List.append_assoc]

/-- What stands before a text is on its first line. -/
theorem splitOn_append_left {front text first : List α} {rest : List (List α)} (hfront : sep ∉ front)
    (htext : text.splitOn sep = first :: rest) : (front ++ text).splitOn sep = (front ++ first) :: rest := by
  induction front with
  | nil => exact htext
  | cons c front ih =>
    obtain ⟨hc, hfront⟩ := not_or.mp (mt List.mem_cons.mpr hfront)
    rw [List.cons_append, List.splitOn_cons_eq_if_modifyHead, if_neg (by simpa using Ne.symm hc), ih hfront]
    rfl

/-- What stands behind a text is on its last line. -/
theorem splitOn_append_right {suffix : List α} (hsuffix : sep ∉ suffix) (text : List α) :
    ∃ front last, text.splitOn sep = front ++ [last] ∧
      (text ++ suffix).splitOn sep = front ++ [last ++ suffix] := by
  induction text with
  | nil => exact ⟨[], [], rfl, List.splitOn_eq_singleton hsuffix⟩
  | cons c text ih =>
    obtain ⟨front, last, htext, hboth⟩ := ih
    rw [List.cons_append, List.splitOn_cons_eq_if_modifyHead, List.splitOn_cons_eq_if_modifyHead, htext, hboth]
    by_cases hc : (c == sep) = true
    · rw [if_pos hc, if_pos hc]
      exact ⟨[] :: front, last, rfl, rfl⟩
    · rw [if_neg hc, if_neg hc]
      cases front with
      | nil => exact ⟨[], c :: last, rfl, rfl⟩
      | cons first front => exact ⟨(c :: first) :: front, last, rfl, rfl⟩

end

/-! ## Marked lines -/

theorem length_le_flatMap {marked : α → List β} {blocks : List α} (hsome : ∀ b ∈ blocks, marked b ≠ []) :
    blocks.length ≤ (blocks.flatMap marked).length := by
  induction blocks with
  | nil => exact Nat.zero_le _
  | cons b rest ih =>
    obtain ⟨hb, hrest⟩ := List.forall_mem_cons.mp hsome
    have hpos := List.length_pos_iff.mpr hb
    have hmany := ih hrest
    rw [List.flatMap_cons, List.length_append, List.length_cons]
    omega

/-- Where each block has a marked line, the marked lines go with the blocks exactly if each block has one,
which goes with it. -/
theorem forall₂_flatMap_iff {R : α → β → Prop} {marked : α → List β} {blocks : List α}
    (hsome : ∀ b ∈ blocks, marked b ≠ []) :
    List.Forall₂ R blocks (blocks.flatMap marked) ↔ ∀ b ∈ blocks, ∃ line, marked b = [line] ∧ R b line := by
  induction blocks with
  | nil => simp
  | cons b rest ih =>
    obtain ⟨hb, hrest⟩ := List.forall_mem_cons.mp hsome
    have hmany := length_le_flatMap hrest
    rw [List.flatMap_cons, List.forall_mem_cons, ← ih hrest]
    constructor
    · intro h
      obtain ⟨line, more, hline⟩ := List.exists_cons_of_ne_nil hb
      rw [hline, List.cons_append, List.forall₂_cons] at h
      have hlength := h.2.length_eq
      rw [List.length_append] at hlength
      obtain rfl : more = [] := List.length_eq_zero_iff.mp (by omega)
      exact ⟨⟨line, hline, h.1⟩, h.2⟩
    · rintro ⟨⟨line, hline, hR⟩, h⟩
      rw [hline]
      exact .cons hR h

end MarloweAgent.Library
