import Mathlib.Data.List.DropRight
import Mathlib.Data.List.Basic

/-! Texts that are written line by line and then trimmed at their end. -/

namespace MarloweAgent.Library

variable {α : Type*} {p : α → Bool} {a b : List α}

/-! ## Trimming -/

theorem rdropWhile_append_blank (a : List α) (hb : ∀ c ∈ b, p c = true) :
    (a ++ b).rdropWhile p = a.rdropWhile p := by
  have hreverse : ∀ c ∈ b.reverse, p c = true := fun c hc => hb c (List.mem_reverse.mp hc)
  rw [List.rdropWhile, List.reverse_append, List.dropWhile_append_of_pos hreverse, List.rdropWhile]

theorem rdropWhile_append_visible (a : List α) (hb : ∃ c ∈ b, p c = false) :
    (a ++ b).rdropWhile p = a ++ b.rdropWhile p := by
  have hne : ¬ (b.reverse.dropWhile p).isEmpty = true := by
    obtain ⟨c, hc, hp⟩ := hb
    intro hempty
    rw [List.isEmpty_iff, List.dropWhile_eq_nil_iff] at hempty
    exact absurd (hempty c (List.mem_reverse.mpr hc)) (by simp [hp])
  rw [List.rdropWhile, List.reverse_append, List.dropWhile_append, if_neg hne, List.reverse_append,
    List.reverse_reverse, List.rdropWhile]

/-- Behind what it trims, a list has the start it had. -/
theorem head?_rdropWhile (hb : ∃ c ∈ b, p c = false) : (b.rdropWhile p).head? = b.head? := by
  obtain ⟨c, hc, hp⟩ := hb
  have hprefix := List.rdropWhile_prefix p b
  cases hrest : b.rdropWhile p with
  | nil => exact absurd (List.rdropWhile_eq_nil_iff.mp hrest c hc) (by simp [hp])
  | cons d rest =>
    rw [hrest] at hprefix
    obtain ⟨after, rfl⟩ := hprefix
    rfl

/-! ## Lines -/

/-- Each line with its end. -/
def unlines (sep : α) (ls : List (List α)) : List α := ls.flatMap fun l => l ++ [sep]

/-- The last line with something to see, between those before it and the blank ones behind. -/
theorem exists_lastVisible {ls : List (List α)} (h : ∃ l ∈ ls, ∃ c ∈ l, p c = false) :
    ∃ front last blanks, ls = front ++ last :: blanks ∧ (∃ c ∈ last, p c = false) ∧
      ∀ l ∈ blanks, ∀ c ∈ l, p c = true := by
  induction ls with
  | nil => simp at h
  | cons l rest ih =>
    by_cases hrest : ∃ l ∈ rest, ∃ c ∈ l, p c = false
    · obtain ⟨front, last, blanks, rfl, hlast, hblanks⟩ := ih hrest
      exact ⟨l :: front, last, blanks, rfl, hlast, hblanks⟩
    · refine ⟨[], l, rest, rfl, ?_, fun l hl c hc => ?_⟩
      · exact (List.exists_mem_cons_iff _ _ _).mp h |>.resolve_right hrest
      · by_contra hp
        exact hrest ⟨l, hl, c, hc, Bool.not_eq_true _ ▸ hp⟩

variable {sep : α} {front blanks : List (List α)} {last : List α}

theorem intercalate_append (sep : α) (front : List (List α)) (last : List α) (blanks : List (List α)) :
    [sep].intercalate (front ++ last :: blanks) =
      unlines sep front ++ last ++ blanks.flatMap fun l => sep :: l := by
  induction front generalizing last blanks with
  | nil =>
    induction blanks generalizing last with
    | nil => simp [unlines]
    | cons l rest ih =>
      have htail := ih l
      rw [List.nil_append] at htail ⊢
      rw [List.intercalate_cons_cons, htail]
      simp [unlines]
  | cons l rest ih =>
    rw [List.cons_append, List.intercalate_cons_of_ne_nil (by simp), ih]
    simp [unlines]

theorem intercalate_concat (sep : α) (front : List (List α)) (last : List α) :
    [sep].intercalate (front ++ [last]) = unlines sep front ++ last := by
  rw [intercalate_append, List.flatMap_nil, List.append_nil]

/-- Blank lines behind others add what is blank. -/
theorem intercalate_blank (hsep : p sep = true) (hblanks : ∀ l ∈ blanks, ∀ c ∈ l, p c = true)
    (front : List (List α)) : ∃ rest, [sep].intercalate (front ++ blanks) =
      [sep].intercalate front ++ rest ∧ ∀ c ∈ rest, p c = true := by
  have hrest : ∀ c ∈ blanks.flatMap fun l => sep :: l, p c = true := fun c hc => by
    obtain ⟨l, hl, hmem⟩ := List.mem_flatMap.mp hc
    rcases List.mem_cons.mp hmem with rfl | hmem
    · exact hsep
    · exact hblanks l hl c hmem
  rcases List.eq_nil_or_concat front with rfl | ⟨before, l, rfl⟩
  · refine ⟨[sep].intercalate blanks, by simp, fun c hc => ?_⟩
    cases blanks with
    | nil => simp at hc
    | cons l more =>
      obtain ⟨hl, hmore⟩ := List.forall_mem_cons.mp hblanks
      rw [← List.nil_append (l :: more), intercalate_append] at hc
      simp only [unlines, List.flatMap_nil, List.nil_append, List.mem_append] at hc
      rw [List.flatMap_cons] at hrest
      exact hc.elim (hl c) fun hc => hrest c (List.mem_append_right _ hc)
  · refine ⟨_, ?_, hrest⟩
    rw [List.concat_eq_append, List.append_assoc, List.singleton_append, intercalate_append,
      intercalate_concat]

/-- The text of some lines, trimmed: the last one with something to see is its last. -/
theorem rdropWhile_unlines (hsep : p sep = true) (hlast : ∃ c ∈ last, p c = false)
    (hblanks : ∀ l ∈ blanks, ∀ c ∈ l, p c = true) :
    (unlines sep (front ++ last :: blanks)).rdropWhile p =
      [sep].intercalate (front ++ [last.rdropWhile p]) := by
  have hblank : ∀ c ∈ sep :: unlines sep blanks, p c = true := by
    refine List.forall_mem_cons.mpr ⟨hsep, fun c hc => ?_⟩
    obtain ⟨l, hl, hmem⟩ := List.mem_flatMap.mp hc
    rcases List.mem_append.mp hmem with hmem | hmem
    · exact hblanks l hl c hmem
    · exact List.mem_singleton.mp hmem ▸ hsep
  have hsplit : unlines sep (front ++ last :: blanks) =
      (unlines sep front ++ last) ++ sep :: unlines sep blanks := by simp [unlines]
  rw [hsplit, rdropWhile_append_blank _ hblank, rdropWhile_append_visible _ hlast, intercalate_concat]

/-! ## Words -/

/-- A word without a separator stands on one side of it. -/
theorem infix_apart {word a b : List α} {sep : α} (hsep : sep ∉ word) (h : word <:+: a ++ sep :: b) :
    word <:+: a ∨ word <:+: b := by
  obtain ⟨u, v, huv⟩ := h
  rcases List.append_eq_append_iff.mp huv with ⟨as, ha, -⟩ | ⟨bs, hu, hb⟩
  · exact .inl ⟨u, as, ha.symm⟩
  · cases bs with
    | nil =>
      rw [List.append_nil] at hu
      exact .inl ⟨u, [], by rw [List.append_nil, hu]⟩
    | cons c bs =>
      obtain ⟨rfl, rfl⟩ := List.cons.inj hb
      rcases List.append_eq_append_iff.mp hu with ⟨as, -, hword⟩ | ⟨cs, -, hcs⟩
      · exact absurd (by rw [hword]; simp) hsep
      · cases cs with
        | nil => exact absurd (by rw [show word = _ from hcs.symm]; simp) hsep
        | cons c cs =>
          rw [(List.cons.inj hcs).2]
          exact .inr ⟨cs, v, rfl⟩

/-- It stands before what is padded with separators. -/
theorem infix_padded {word a : List α} {sep : α} (hne : word ≠ []) (hsep : sep ∉ word) (n : Nat)
    (h : word <:+: a ++ List.replicate n sep) : word <:+: a := by
  induction n with
  | zero => rwa [List.replicate_zero, List.append_nil] at h
  | succ n ih =>
    rw [List.replicate_succ', ← List.append_assoc] at h
    rcases infix_apart hsep h with hpadded | hnil
    · exact ih hpadded
    · exact absurd (List.infix_nil.mp hnil) hne

/-! ## Lines of a text -/

/-- The lines of a text, each with its end; behind the last end, what is left is one too. -/
def splitInclusive [DecidableEq α] (sep : α) : List α → List (List α)
  | [] => []
  | a :: rest =>
    if a = sep then [a] :: splitInclusive sep rest
    else
      match splitInclusive sep rest with
      | [] => [[a]]
      | l :: ls => (a :: l) :: ls

section
variable [DecidableEq α] {text l rest : List α}

theorem splitInclusive_line (h : sep ∉ l) :
    splitInclusive sep (l ++ sep :: rest) = (l ++ [sep]) :: splitInclusive sep rest := by
  induction l with
  | nil => simp [splitInclusive]
  | cons a l ih =>
    obtain ⟨hne, hl⟩ := List.ne_and_not_mem_of_not_mem_cons h
    simp [splitInclusive, Ne.symm hne, ih hl]

theorem splitInclusive_last (hne : l ≠ []) (h : sep ∉ l) : splitInclusive sep l = [l] := by
  induction l with
  | nil => exact absurd rfl hne
  | cons a l ih =>
    obtain ⟨hsep, hl⟩ := List.ne_and_not_mem_of_not_mem_cons h
    cases l with
    | nil => simp [splitInclusive, Ne.symm hsep]
    | cons b l =>
      rw [splitInclusive, if_neg (Ne.symm hsep), ih (List.cons_ne_nil b l) hl]

/-- A text is empty, one line without an end, or a line with its end before a text. -/
@[elab_as_elim]
theorem lines_induction (sep : α) {motive : List α → Prop} (nil : motive [])
    (last : ∀ l, l ≠ [] → sep ∉ l → motive l)
    (line : ∀ l rest, sep ∉ l → motive rest → motive (l ++ sep :: rest)) (text : List α) :
    motive text := by
  by_cases h : sep ∈ text
  · obtain ⟨l, rest, rfl, hl⟩ := List.eq_append_cons_of_mem h
    exact line l rest hl (lines_induction sep nil last line rest)
  · by_cases hne : text = []
    · exact hne ▸ nil
    · exact last text hne h
termination_by text.length
decreasing_by simp only [*, List.length_append, List.length_cons]; omega

/-- Behind the end of a line, its text is split on its own. -/
theorem splitInclusive_append (text rest : List α) : splitInclusive sep (text ++ sep :: rest) =
    splitInclusive sep (text ++ [sep]) ++ splitInclusive sep rest := by
  induction text using lines_induction sep with
  | nil => simp [splitInclusive]
  | last l hne hl => rw [splitInclusive_line hl, splitInclusive_line hl]; simp [splitInclusive]
  | line l text hl ih =>
    rw [List.append_assoc, List.append_assoc, List.cons_append, List.cons_append,
      splitInclusive_line hl, splitInclusive_line hl, ih, List.cons_append]

end

/-! ## Lists of lines -/

/-- Lines as a text has them: each with its end, but for the last one, which may lack it. -/
inductive Lined (sep : α) : List (List α) → Prop
  | nil : Lined sep []
  | last {l : List α} (hne : l ≠ []) (h : sep ∉ l) : Lined sep [l]
  | line {l : List α} {ls : List (List α)} (h : sep ∉ l) (hrest : Lined sep ls) : Lined sep ((l ++ [sep]) :: ls)

theorem Lined.ne_nil {ls : List (List α)} (h : Lined sep ls) : ∀ l ∈ ls, l ≠ [] := by
  induction h with
  | nil => simp
  | last hne => simpa using hne
  | line _ _ ih => exact List.forall_mem_cons.mpr ⟨by simp, ih⟩

/-- Some lines in a row are lines again. -/
theorem Lined.drop {ls : List (List α)} (h : Lined sep ls) (n : Nat) : Lined sep (ls.drop n) := by
  induction h generalizing n with
  | nil => simpa using .nil
  | last hne hl =>
    cases n with
    | zero => exact .last hne hl
    | succ n => simpa using .nil
  | line hl hrest ih =>
    cases n with
    | zero => exact .line hl hrest
    | succ n => exact ih n

theorem Lined.take {ls : List (List α)} (h : Lined sep ls) (n : Nat) : Lined sep (ls.take n) := by
  induction h generalizing n with
  | nil => simpa using .nil
  | last hne hl =>
    cases n with
    | zero => exact .nil
    | succ n => simpa using .last hne hl
  | line hl hrest ih =>
    cases n with
    | zero => exact .nil
    | succ n => exact .line hl (ih n)

/-- Lines that others follow end as lines do. -/
theorem Lined.take_ends {ls : List (List α)} (h : Lined sep ls) {n : Nat} (hpos : 0 < n)
    (hn : n < ls.length) : ∃ body, (ls.take n).flatten = body ++ [sep] := by
  induction h generalizing n with
  | nil => exact absurd hn (Nat.not_lt_zero n)
  | last =>
    rw [List.length_singleton] at hn
    omega
  | @line l ls _ _ ih =>
    obtain ⟨n, rfl⟩ := Nat.exists_eq_add_one.mpr hpos
    rw [List.length_cons] at hn
    rw [List.take_succ_cons, List.flatten_cons]
    by_cases hn0 : n = 0
    · exact ⟨l, by simp [hn0]⟩
    · obtain ⟨body, hbody⟩ := ih (Nat.pos_of_ne_zero hn0) (by omega)
      exact ⟨l ++ [sep] ++ body, by rw [hbody, ← List.append_assoc]⟩

/-- What stands before each line, without an end of its own, leaves them lines. -/
theorem Lined.mapIdx {ls : List (List α)} (h : Lined sep ls) {label : Nat → List α}
    (hlabel : ∀ i, sep ∉ label i) : Lined sep (ls.mapIdx fun i l => label i ++ l) := by
  induction h generalizing label with
  | nil => exact .nil
  | last hne hl =>
    simpa using .last (by simp [hne]) (by simp [hlabel 0, hl])
  | line hl hrest ih =>
    rw [List.mapIdx_cons, ← List.append_assoc]
    exact .line (by simp [hlabel 0, hl]) (ih fun i => hlabel (i + 1))

section
variable [DecidableEq α]

theorem lined_splitInclusive (text : List α) : Lined sep (splitInclusive sep text) := by
  induction text using lines_induction sep with
  | nil => exact .nil
  | last l hne hl =>
    rw [splitInclusive_last hne hl]
    exact .last hne hl
  | line l rest hl ih =>
    rw [splitInclusive_line hl]
    exact .line hl ih

/-- Lines are the lines of their text. -/
theorem Lined.splitInclusive_flatten {ls : List (List α)} (h : Lined sep ls) :
    splitInclusive sep ls.flatten = ls := by
  induction h with
  | nil => rfl
  | last hne hl => rw [List.flatten_singleton, splitInclusive_last hne hl]
  | line hl _ ih =>
    rw [List.flatten_cons, List.append_assoc, List.singleton_append, splitInclusive_line hl, ih]

theorem flatten_splitInclusive (text : List α) : (splitInclusive sep text).flatten = text := by
  induction text using lines_induction sep with
  | nil => rfl
  | last l hne hl => rw [splitInclusive_last hne hl, List.flatten_singleton]
  | line l rest hl ih => rw [splitInclusive_line hl, List.flatten_cons, ih]; simp

/-- What a piece of a text holds before it has as many ends as lines. -/
theorem Lined.count_take {ls : List (List α)} (h : Lined sep ls) {i : Nat} (hi : i < ls.length) :
    (ls.take i).flatten.count sep = i := by
  induction h generalizing i with
  | nil => simp at hi
  | last =>
    obtain rfl : i = 0 := by simpa using hi
    rfl
  | line hl _ ih =>
    cases i with
    | zero => rfl
    | succ i =>
      have hrest := ih (Nat.lt_of_succ_lt_succ hi)
      simp [List.count_eq_zero.mpr hl, hrest]

end

end MarloweAgent.Library
