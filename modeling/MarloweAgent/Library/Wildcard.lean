import Mathlib.Data.List.Basic

/-! Patterns with a wildcard that stands for any run. Over letters, the pattern is its literals
between wildcards, and finding each literal leftmost loses no match. -/

namespace MarloweAgent.Library

/-- The wildcard stands for a run, and any other part of the pattern for one item it matches. -/
inductive Matches {β γ : Type*} (wild : β) (one : β → γ → Prop) : List β → List γ → Prop
  | nil : Matches wild one [] []
  | run {pat : List β} {rest : List γ} (run : List γ) :
    Matches wild one pat rest → Matches wild one (wild :: pat) (run ++ rest)
  | one {p : β} {s : γ} {pat : List β} {rest : List γ} : p ≠ wild → one p s →
    Matches wild one pat rest → Matches wild one (p :: pat) (s :: rest)

section Matches

variable {β γ : Type*} {wild : β} {one : β → γ → Prop} {p : β} {pat : List β} {items : List γ}

theorem matches_nil_iff : Matches wild one [] items ↔ items = [] := by
  constructor
  · intro h
    cases h
    rfl
  · rintro rfl
    exact .nil

theorem matches_wild_iff : Matches wild one (wild :: pat) items ↔
    ∃ run rest, items = run ++ rest ∧ Matches wild one pat rest := by
  constructor
  · intro h
    cases h with
    | run run hrest => exact ⟨run, _, rfl, hrest⟩
    | one hne => exact absurd rfl hne
  · rintro ⟨run, rest, rfl, hrest⟩
    exact .run run hrest

theorem matches_cons_iff (hp : p ≠ wild) : Matches wild one (p :: pat) items ↔
    ∃ s rest, items = s :: rest ∧ one p s ∧ Matches wild one pat rest := by
  constructor
  · intro h
    cases h with
    | run run hrest => exact absurd rfl hp
    | one _ hone hrest => exact ⟨_, _, rfl, hone, hrest⟩
  · rintro ⟨s, rest, rfl, hone, hrest⟩
    exact .one hp hone hrest

end Matches

/-! ## Literals between wildcards -/

section Literals

variable {α : Type*}

/-- The literals in order with a run before each, the last one at the end. -/
def Floats : List (List α) → List α → Prop
  | [], _ => False
  | [last], text => last <:+ text
  | lit :: next :: more, text =>
    ∃ run rest, text = run ++ (lit ++ rest) ∧ Floats (next :: more) rest

/-- The same, with no run before the first. -/
def Anchored : List (List α) → List α → Prop
  | [], _ => False
  | [whole], text => text = whole
  | first :: lit :: more, text => ∃ rest, text = first ++ rest ∧ Floats (lit :: more) rest

theorem Floats.append {lits : List (List α)} {text : List α} (h : Floats lits text)
    (before : List α) : Floats lits (before ++ text) := by
  match lits, h with
  | [last], h => exact List.IsSuffix.trans h (List.suffix_append before text)
  | lit :: next :: more, ⟨run, rest, htext, hrest⟩ =>
    exact ⟨before ++ run, rest, by rw [htext, List.append_assoc], hrest⟩

/-- To float is to be anchored after some run. -/
theorem floats_iff {lits : List (List α)} {text : List α} :
    Floats lits text ↔ ∃ run rest, text = run ++ rest ∧ Anchored lits rest := by
  match lits with
  | [] => exact iff_of_false id fun ⟨_, _, _, h⟩ => h
  | [last] =>
    constructor
    · rintro ⟨run, rfl⟩
      exact ⟨run, last, rfl, rfl⟩
    · rintro ⟨run, rest, rfl, rfl⟩
      exact List.suffix_append run rest
  | lit :: next :: more =>
    constructor
    · rintro ⟨run, rest, rfl, hrest⟩
      exact ⟨run, lit ++ rest, rfl, rest, rfl, hrest⟩
    · rintro ⟨run, _, rfl, rest, rfl, hrest⟩
      exact ⟨run, rest, rfl, hrest⟩

theorem anchored_nil_cons {lits : List (List α)} (hlits : lits ≠ []) {text : List α} :
    Anchored ([] :: lits) text ↔ Floats lits text := by
  match lits, hlits with
  | lit :: more, _ =>
    constructor
    · rintro ⟨rest, rfl, hrest⟩
      exact hrest
    · intro h
      exact ⟨text, rfl, h⟩

theorem anchored_cons_cons {a : α} {first : List α} {lits : List (List α)} {text : List α} :
    Anchored ((a :: first) :: lits) text ↔ ∃ rest, text = a :: rest ∧ Anchored (first :: lits) rest := by
  match lits with
  | [] =>
    constructor
    · rintro rfl
      exact ⟨first, rfl, rfl⟩
    · rintro ⟨_, rfl, rfl⟩
      rfl
  | lit :: more =>
    constructor
    · rintro ⟨rest, rfl, hrest⟩
      exact ⟨first ++ rest, rfl, rest, rfl, hrest⟩
    · rintro ⟨_, rfl, rest, rfl, hrest⟩
      exact ⟨rest, rfl, hrest⟩

/-- A text matches if it has the literals between the wildcards. -/
theorem matches_iff_anchored [DecidableEq α] {wild : α} {pat text : List α} :
    Matches wild Eq pat text ↔ Anchored (pat.splitOn wild) text := by
  induction pat generalizing text with
  | nil => exact matches_nil_iff
  | cons a pat ih =>
    have hsplit : (a :: pat).splitOn wild =
        if a == wild then [] :: pat.splitOn wild else (pat.splitOn wild).modifyHead (a :: ·) :=
      List.splitOnP_cons_eq_if_modifyHead a pat
    have hne : pat.splitOn wild ≠ [] := List.splitOnP_ne_nil _ _
    by_cases ha : a = wild
    · subst ha
      rw [hsplit, if_pos (beq_self_eq_true a), anchored_nil_cons hne, matches_wild_iff, floats_iff]
      simp only [ih]
    · rw [hsplit, if_neg (by simpa using ha), matches_cons_iff ha]
      obtain ⟨first, lits, hparts⟩ := List.exists_cons_of_ne_nil hne
      rw [hparts, List.modifyHead_cons, anchored_cons_cons]
      simp only [ih, hparts]
      constructor
      · rintro ⟨s, rest, rfl, rfl, hrest⟩
        exact ⟨rest, rfl, hrest⟩
      · rintro ⟨rest, rfl, hrest⟩
        exact ⟨a, rest, rfl, rfl, hrest⟩

/-! ## Leftmost -/

theorem floats_nil_cons {lits : List (List α)} (hlits : lits ≠ []) {text : List α} :
    Floats ([] :: lits) text ↔ Floats lits text := by
  match lits, hlits with
  | lit :: more, _ =>
    constructor
    · rintro ⟨run, rest, rfl, hrest⟩
      exact hrest.append run
    · intro h
      exact ⟨[], text, rfl, h⟩

/-- What follows the leftmost place of a literal has what follows any other. -/
theorem floats_cons_iff {lit : List α} {lits : List (List α)} (hlits : lits ≠ []) {text : List α}
    {i : Nat} (hfound : lit <+: text.drop i) (hleft : ∀ j < i, ¬ lit <+: text.drop j) :
    Floats (lit :: lits) text ↔ Floats lits (text.drop (i + lit.length)) := by
  match lits, hlits with
  | next :: more, _ =>
    constructor
    · rintro ⟨run, rest, rfl, hrest⟩
      have hle : i ≤ run.length := by
        by_contra hlt
        refine hleft run.length (by omega) ?_
        rw [List.drop_left]
        exact List.prefix_append lit rest
      have hdrop : (run ++ (lit ++ rest)).drop (i + lit.length) =
          ((run ++ lit).drop (i + lit.length)) ++ rest := by
        rw [← List.append_assoc, List.drop_append_of_le_length (by simp; omega)]
      rw [hdrop]
      exact hrest.append _
    · intro h
      obtain ⟨rest, hrest⟩ := hfound
      refine ⟨text.take i, rest, ?_, ?_⟩
      · rw [hrest, List.take_append_drop]
      · rw [← List.drop_drop, ← hrest, List.drop_left] at h
        exact h

theorem not_floats_cons {lit : List α} {lits : List (List α)} {text : List α}
    (hnone : ∀ i, ¬ lit <+: text.drop i) : ¬ Floats (lit :: lits) text := by
  intro h
  obtain ⟨run, rest, rfl, hrest⟩ := floats_iff.mp h
  refine hnone run.length ?_
  rw [List.drop_left]
  match lits, hrest with
  | [], hrest => exact hrest ▸ List.prefix_refl _
  | next :: more, ⟨after, hafter, _⟩ => exact hafter ▸ List.prefix_append lit after

end Literals

end MarloweAgent.Library
