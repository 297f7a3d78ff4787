import Mathlib.Data.List.Infix

/-! Texts with tags in them, and how much of a text can be read before the rest of it is
known. A table of tags is legible when one symbol starts every tag and stands nowhere else
in any of them, and no tag begins another: then two tags never overlap, and the only thing
that more text can change is what a fragment of a tag at the end turns out to be. -/

namespace MarloweAgent.Library.Tags

variable {α β : Type}

inductive Token (α β : Type)
  | plain (a : α)
  | tag (b : β)
  deriving DecidableEq, Repr

def Token.plain? : Token α β → Option α
  | plain a => some a
  | tag _ => none

section Reading
variable [DecidableEq α] (table : List (List α × β))

/-- The tag that a text begins with. -/
def tagAt (s : List α) : Option (List α × β) := table.find? fun t => t.1.isPrefixOf s

/-- A text, symbol by symbol, after the first `n` symbols. -/
def readFrom : Nat → List α → List (Token α β)
  | _, [] => []
  | n + 1, _ :: rest => readFrom n rest
  | 0, a :: rest =>
    match tagAt table (a :: rest) with
    | some (word, b) => .tag b :: readFrom (word.length - 1) rest
    | none => .plain a :: readFrom 0 rest

/-- A text with its tags told from the rest, each tag at the first place it can stand. -/
def reading (s : List α) : List (Token α β) := readFrom table 0 s

end Reading

structure Legible (table : List (List α × β)) (mark : α) : Prop where
  marked : ∀ t ∈ table, ∃ body, t.1 = mark :: body ∧ mark ∉ body
  apart : ∀ t ∈ table, ∀ t' ∈ table, t.1 <+: t'.1 → t = t'

/-- A beginning of a tag, short of the whole. -/
def IsFragment (table : List (List α × β)) (s : List α) : Prop :=
  s ≠ [] ∧ ∃ t ∈ table, s <+: t.1 ∧ s.length < t.1.length

section
variable [DecidableEq α] {table : List (List α × β)}

theorem readFrom_eq_drop (n : Nat) (s : List α) : readFrom table n s = reading table (s.drop n) := by
  induction s generalizing n with
  | nil => cases n <;> rfl
  | cons a rest ih =>
    cases n with
    | zero => rfl
    | succ n => exact ih n

theorem tagAt_mem {s : List α} {t : List α × β} (h : tagAt table s = some t) :
    t ∈ table ∧ t.1 <+: s := by
  have hpre : t.1.isPrefixOf s = true := by simpa using List.find?_some h
  exact ⟨List.mem_of_find?_eq_some h, List.isPrefixOf_iff_prefix.mp hpre⟩

theorem tagAt_eq_none {s : List α} : tagAt table s = none ↔ ∀ t ∈ table, ¬t.1 <+: s := by
  simp [tagAt]

@[simp] theorem reading_nil : reading table [] = [] := rfl

theorem reading_cons_plain {a : α} {rest : List α} (h : tagAt table (a :: rest) = none) :
    reading table (a :: rest) = .plain a :: reading table rest := by
  rw [reading, readFrom, h]
  rfl

/-- Symbols where no tag stands are plain. -/
theorem reading_plain_before {s : List α} {n : Nat} (hn : n ≤ s.length)
    (hnone : ∀ i < n, tagAt table (s.drop i) = none) :
    reading table s = (s.take n).map .plain ++ reading table (s.drop n) := by
  induction n generalizing s with
  | zero => rfl
  | succ n ih =>
    cases s with
    | nil => cases hn
    | cons a rest =>
      have hfirst := hnone 0 (by omega)
      have hrest := ih (s := rest) (by simpa using hn) fun i hi => by
        simpa using hnone (i + 1) (by omega)
      rw [reading_cons_plain hfirst, hrest]
      rfl

/-- A text without tags is plain. -/
theorem reading_of_no_tag {s : List α} (hnone : ∀ i, tagAt table (s.drop i) = none) :
    reading table s = s.map .plain := by
  rw [reading_plain_before (Nat.le_refl s.length) fun i _ => hnone i, List.take_length, List.drop_length]
  simp

end

namespace Legible
variable {table : List (List α × β)} {mark : α} (legible : Legible table mark)
include legible

/-- After its first symbol a fragment, or a tag, has no mark. -/
theorem head_eq_mark {s : List α} {t : List α × β} (ht : t ∈ table) (hpre : s <+: t.1) (hne : s ≠ []) :
    ∃ body, s = mark :: body ∧ mark ∉ body := by
  obtain ⟨body, hword, hmark⟩ := legible.marked t ht
  cases s with
  | nil => exact absurd rfl hne
  | cons a rest =>
    rw [hword, List.cons_prefix_cons] at hpre
    obtain ⟨rfl, hrest⟩ := hpre
    exact ⟨rest, rfl, fun hmem => hmark (hrest.subset hmem)⟩

/-- Nothing that begins like a tag stands further on in a fragment or in a tag. -/
theorem not_prefix_drop {s f : List α} {t : List α × β} {i j : Nat} (ht : t ∈ table) (hne : s.drop i ≠ [])
    (hpre : s.drop i <+: t.1) (hij : i < j) (hf : f <+: s.drop j) (hmark : f.head? = some mark) : False := by
  obtain ⟨body, hdrop, hnone⟩ := legible.head_eq_mark ht hpre hne
  have hlater : s.drop j = body.drop (j - i - 1) := by
    have hsum : j = i + (1 + (j - i - 1)) := by omega
    rw [hsum, ← List.drop_drop, hdrop, ← List.drop_drop]
    simp
  rw [hlater] at hf
  have hmem : mark ∈ f := List.mem_of_head? hmark
  exact hnone (List.drop_subset _ _ (hf.subset hmem))

variable [DecidableEq α]

theorem tagAt_eq_some {s : List α} {t : List α × β} :
    tagAt table s = some t ↔ t ∈ table ∧ t.1 <+: s := by
  refine ⟨tagAt_mem, fun ⟨hmem, hpre⟩ => ?_⟩
  cases hfound : tagAt table s with
  | none => exact absurd hpre (tagAt_eq_none.mp hfound t hmem)
  | some t' =>
    obtain ⟨hmem', hpre'⟩ := tagAt_mem hfound
    rcases List.prefix_or_prefix_of_prefix hpre hpre' with h | h
    · rw [legible.apart t hmem t' hmem' h]
    · rw [legible.apart t' hmem' t hmem h]

theorem reading_tag {s : List α} {t : List α × β} (h : tagAt table s = some t) :
    reading table s = .tag t.2 :: reading table (s.drop t.1.length) := by
  obtain ⟨hmem, hpre⟩ := tagAt_mem h
  obtain ⟨body, hword, -⟩ := legible.marked t hmem
  cases s with
  | nil => simp [hword] at hpre
  | cons a rest =>
    rw [reading, readFrom, h, hword]
    show _ :: readFrom table _ rest = _
    rw [readFrom_eq_drop, hword]
    rfl

/-- A tag in a longer text is a tag of the text, or begins with a fragment at its end. -/
theorem tagAt_append {s v : List α} {i : Nat} {t : List α × β} (hi : i < s.length)
    (h : tagAt table ((s ++ v).drop i) = some t) :
    tagAt table (s.drop i) = some t ∨ IsFragment table (s.drop i) := by
  obtain ⟨hmem, hpre⟩ := tagAt_mem h
  rw [List.drop_append_of_le_length (Nat.le_of_lt hi)] at hpre
  rcases Nat.lt_or_ge (s.drop i).length t.1.length with hlt | hge
  · refine .inr ⟨by simpa using hi, t, hmem, ?_, hlt⟩
    exact List.prefix_of_prefix_length_le (List.prefix_append _ v) hpre (Nat.le_of_lt hlt)
  · exact .inl (legible.tagAt_eq_some.mpr
      ⟨hmem, List.prefix_of_prefix_length_le hpre (List.prefix_append _ v) hge⟩)

/-- What comes before the fragment at the end of a text, or before nothing, is read whatever
comes after. -/
theorem reading_append_of_no_tag {s : List α} {k : Nat} (hk : k ≤ s.length)
    (hnone : ∀ i, tagAt table (s.drop i) = none) (hfragment : ∀ i < k, ¬IsFragment table (s.drop i))
    (v : List α) :
    reading table (s ++ v) = (s.take k).map .plain ++ reading table (s.drop k ++ v) := by
  have hplain : ∀ i < k, tagAt table ((s ++ v).drop i) = none := by
    intro i hi
    cases hfound : tagAt table ((s ++ v).drop i) with
    | none => rfl
    | some t =>
      rcases legible.tagAt_append (by omega) hfound with h | h
      · rw [hnone i] at h
        cases h
      · exact absurd h (hfragment i hi)
  have hlen : k ≤ (s ++ v).length := by
    rw [List.length_append]
    omega
  rw [reading_plain_before hlen hplain, List.take_append_of_le_length hk, List.drop_append_of_le_length hk]

/-- Up to the end of its first tag a text is read whatever comes after. -/
theorem reading_append_of_tag {s : List α} {k : Nat} {t : List α × β}
    (hnone : ∀ i < k, tagAt table (s.drop i) = none) (htag : tagAt table (s.drop k) = some t)
    (v : List α) :
    reading table (s ++ v) =
      (s.take k).map .plain ++ .tag t.2 :: reading table (s.drop (k + t.1.length) ++ v) := by
  obtain ⟨hmem, hpre⟩ := tagAt_mem htag
  obtain ⟨body, hword, -⟩ := legible.marked t hmem
  have hk : k + t.1.length ≤ s.length := by
    have hle := hpre.length_le
    have hpos : 0 < t.1.length := by simp [hword]
    rw [List.length_drop] at hle
    omega
  have hplain : ∀ i < k, tagAt table ((s ++ v).drop i) = none := by
    intro i hi
    cases hfound : tagAt table ((s ++ v).drop i) with
    | none => rfl
    | some t' =>
      rcases legible.tagAt_append (by omega) hfound with h | ⟨hne, t'', ht'', hfragment, -⟩
      · rw [hnone i hi] at h
        cases h
      · exact (legible.not_prefix_drop ht'' hne hfragment hi hpre (by simp [hword])).elim
  have hfirst : tagAt table ((s ++ v).drop k) = some t := by
    rw [List.drop_append_of_le_length (by omega)]
    exact legible.tagAt_eq_some.mpr ⟨hmem, hpre.trans (List.prefix_append _ v)⟩
  have hlen : k ≤ (s ++ v).length := by
    rw [List.length_append]
    omega
  rw [reading_plain_before hlen hplain, legible.reading_tag hfirst, List.drop_drop,
    List.take_append_of_le_length (by omega), List.drop_append_of_le_length hk]

end Legible

end MarloweAgent.Library.Tags
