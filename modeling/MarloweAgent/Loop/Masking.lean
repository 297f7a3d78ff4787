import MarloweAgent.Loop.Fates

/-! What masking does to the tool results of a session. A result is taken for a placeholder by its
first character, and a placeholder may be longer than the result it replaces. -/

namespace MarloweAgent.Loop
open Contract Library
open Assembler (maskBlock maskOldest clearToolResults)

/-! ## The notice -/

/-- The text that stands for a cleared result of `n` tokens. -/
def clearedNotice (n : Nat) : String := s!"[tool result cleared · {n} tokens]"

def IsPlaceholder (b : Block) : Prop := ∃ n, b.text = clearedNotice n

/-- What the walk takes for a placeholder. -/
def opensBracket (b : Block) : Bool := Text.startsWith b.text "["

/-- Eleven tokens, and one more for every three digits of the number from the second on. -/
def noticeTokens (n : Nat) : Nat := ((34 + (Nat.toDigits 10 n).length) / 3) % 2 ^ 32

theorem clearedNotice_toList (n : Nat) : (clearedNotice n).toList =
    '[' :: "tool result cleared · ".toList ++ Nat.toDigits 10 n ++ " tokens]".toList := by
  have hfront : ("[tool result cleared · " : String).toList = '[' :: "tool result cleared · ".toList := by
    decide
  show ("[tool result cleared · " ++ toString n ++ " tokens]").toList = _
  rw [String.toList_append, String.toList_append, hfront, Nat.toString_eq_ofList_toDigits,
    String.toList_ofList (l := Nat.toDigits 10 n)]

theorem startsWith_clearedNotice (n : Nat) : Text.startsWith (clearedNotice n) "[" = true := by
  have hopen : ("[" : String).toList = ['['] := by decide
  rw [Text.startsWith, clearedNotice_toList, hopen]
  simp

theorem byteLen_toDigits (n : Nat) : Text.byteLen (Nat.toDigits 10 n) = (Nat.toDigits 10 n).length := by
  have hone : ∀ c ∈ Nat.toDigits 10 n, c.utf8Size = 1 := by
    intro c hc
    have hdigit := Nat.isDigit_of_mem_toDigits (by decide) (by decide) hc
    simp only [Char.isDigit, Bool.and_eq_true, decide_eq_true_eq] at hdigit
    exact Char.utf8Size_eq_one_iff.mpr (UInt32.le_trans hdigit.2 (by decide))
  rw [Text.byteLen, List.map_congr_left hone]
  simp

theorem estimateTokens_clearedNotice (n : Nat) : estimateTokens (clearedNotice n) = noticeTokens n := by
  have hdigits := Text.utf8ByteSize_ofList (Nat.toDigits 10 n)
  rw [← Nat.toString_eq_ofList_toDigits, byteLen_toDigits] at hdigits
  have hfront : ("[tool result cleared · " : String).utf8ByteSize = 24 := by decide
  have hback : (" tokens]" : String).utf8ByteSize = 8 := by decide
  show estimateTokens ("[tool result cleared · " ++ toString n ++ " tokens]") = _
  rw [estimateTokens, noticeTokens, String.utf8ByteSize_append, String.utf8ByteSize_append, hfront,
    hback, hdigits]
  congr 2
  omega

theorem maskBlock_text (b : Block) : (maskBlock b).text = clearedNotice b.tokens := by
  unfold maskBlock clearedNotice
  rfl

theorem maskBlock_tokens (b : Block) : (maskBlock b).tokens = noticeTokens b.tokens := by
  rw [← estimateTokens_clearedNotice, ← maskBlock_text]
  rfl

theorem opensBracket_of_placeholder {b : Block} (h : IsPlaceholder b) : opensBracket b = true := by
  obtain ⟨n, hn⟩ := h
  rw [opensBracket, hn]
  exact startsWith_clearedNotice n

theorem isPlaceholder_maskBlock (b : Block) : IsPlaceholder (maskBlock b) := ⟨_, maskBlock_text b⟩

/-! ## What the walk does -/

/-- The tool results among some blocks. -/
def toolResults (blocks : List Block) : List Block := blocks.filter fun b => b.source = .toolResults

theorem toolResults_cons_of_pos {b : Block} (h : b.source = .toolResults) (rest : List Block) :
    toolResults (b :: rest) = b :: toolResults rest := List.filter_cons_of_pos (by simpa using h)

theorem toolResults_cons_of_neg {b : Block} (h : b.source ≠ .toolResults) (rest : List Block) :
    toolResults (b :: rest) = toolResults rest := List.filter_cons_of_neg (by simpa using h)

/-- What masking makes of a result. -/
def masked (b : Block) : Block := if opensBracket b then b else maskBlock b

theorem masked_trust (b : Block) : (masked b).trust = b.trust := by
  unfold masked
  split <;> rfl

theorem masked_source (b : Block) : (masked b).source = b.source := by
  unfold masked
  split <;> rfl

theorem opensBracket_masked (b : Block) : opensBracket (masked b) = true := by
  unfold masked
  split
  next h => exact h
  next => exact opensBracket_of_placeholder (isPlaceholder_maskBlock b)

theorem maskOldest_zero (l : List Block) : maskOldest 0 l = (l, 0) := by
  induction l with
  | nil => rfl
  | cons b rest ih =>
    unfold maskOldest
    rw [if_neg (fun h => h.2 rfl), ih]

theorem maskOldest_other {b : Block} (h : b.source ≠ .toolResults) (n : Nat) (rest : List Block) :
    maskOldest n (b :: rest) = (b :: (maskOldest n rest).1, (maskOldest n rest).2) := by
  rw [maskOldest, if_neg fun hb => h hb.1]

theorem maskOldest_result {b : Block} (h : b.source = .toolResults) (n : Nat) (rest : List Block) :
    maskOldest (n + 1) (b :: rest) = (masked b :: (maskOldest n rest).1,
      (maskOldest n rest).2 + if opensBracket b then 0 else 1) := by
  rw [maskOldest, if_pos ⟨h, Nat.succ_ne_zero n⟩]
  unfold masked opensBracket
  dsimp only
  rw [Nat.add_sub_cancel]
  split <;> rfl

/-- The walk over the `n` oldest results, place by place. -/
theorem getElem?_maskOldest (n : Nat) (l : List Block) (i : Nat) :
    (maskOldest n l).1[i]? = l[i]?.map fun b =>
      if b.source = .toolResults ∧ (toolResults (l.take i)).length < n then masked b else b := by
  induction l generalizing n i with
  | nil => cases n <;> rfl
  | cons b rest ih =>
    by_cases hb : b.source = .toolResults
    · cases n with
      | zero =>
        rw [maskOldest_zero]
        simp
      | succ n =>
        rw [maskOldest_result hb]
        cases i with
        | zero => simp [hb, toolResults]
        | succ i =>
          simp only [List.getElem?_cons_succ, List.take_succ_cons, toolResults_cons_of_pos hb,
            List.length_cons, Nat.add_lt_add_iff_right]
          exact ih n i
    · rw [maskOldest_other hb]
      cases i with
      | zero => simp [hb]
      | succ i =>
        simp only [List.getElem?_cons_succ, List.take_succ_cons, toolResults_cons_of_neg hb]
        exact ih n i

theorem toolResults_maskOldest (n : Nat) (l : List Block) :
    toolResults (maskOldest n l).1 = ((toolResults l).take n).map masked ++ (toolResults l).drop n := by
  induction l generalizing n with
  | nil => cases n <;> rfl
  | cons b rest ih =>
    by_cases hb : b.source = .toolResults
    · cases n with
      | zero => simp [maskOldest_zero]
      | succ n =>
        rw [maskOldest_result hb, toolResults_cons_of_pos ((masked_source b).trans hb),
          toolResults_cons_of_pos hb, ih]
        rfl
    · rw [maskOldest_other hb, toolResults_cons_of_neg hb, toolResults_cons_of_neg hb, ih]

/-- A walk that finds only brackets changes nothing. -/
theorem maskOldest_idle {n : Nat} {l : List Block}
    (h : ∀ b ∈ (toolResults l).take n, opensBracket b = true) : maskOldest n l = (l, 0) := by
  induction l generalizing n with
  | nil => cases n <;> rfl
  | cons b rest ih =>
    by_cases hb : b.source = .toolResults
    · cases n with
      | zero => exact maskOldest_zero _
      | succ n =>
        rw [toolResults_cons_of_pos hb, List.take_succ_cons, List.forall_mem_cons] at h
        rw [maskOldest_result hb, ih h.2, masked, if_pos h.1, if_pos h.1]
    · rw [toolResults_cons_of_neg hb] at h
      rw [maskOldest_other hb, ih h]

/-- The results a walk over the `n` oldest replaces. -/
def replaced (n : Nat) (l : List Block) : List Block :=
  ((toolResults l).take n).filter fun b => !opensBracket b

def tokensOf (blocks : List Block) : Nat := (blocks.map Block.tokens).sum

theorem tokensOf_cons (b : Block) (rest : List Block) :
    tokensOf (b :: rest) = b.tokens + tokensOf rest := by
  rw [tokensOf, List.map_cons, List.sum_cons, tokensOf]

/-- What the walk saves, and what its notices cost. -/
theorem tokensOf_maskOldest (n : Nat) (l : List Block) :
    tokensOf (maskOldest n l).1 + tokensOf (replaced n l) =
      tokensOf l + ((replaced n l).map fun b => noticeTokens b.tokens).sum := by
  induction l generalizing n with
  | nil => cases n <;> rfl
  | cons b rest ih =>
    by_cases hb : b.source = .toolResults
    · cases n with
      | zero => simp [maskOldest_zero, replaced, tokensOf]
      | succ n =>
        have hrest := ih n
        rw [maskOldest_result hb, replaced, toolResults_cons_of_pos hb, List.take_succ_cons, masked]
        unfold replaced at hrest
        cases hopen : opensBracket b with
        | true =>
          rw [List.filter_cons_of_neg (by simp [hopen]), if_pos rfl, tokensOf_cons, tokensOf_cons]
          omega
        | false =>
          rw [List.filter_cons_of_pos (by simp [hopen]), if_neg Bool.false_ne_true, tokensOf_cons,
            tokensOf_cons, tokensOf_cons, maskBlock_tokens, List.map_cons, List.sum_cons]
          omega
    · have hrest := ih n
      rw [maskOldest_other hb, replaced, toolResults_cons_of_neg hb, tokensOf_cons, tokensOf_cons]
      unfold replaced at hrest
      omega

theorem tokensOf_append (a b : List Block) : tokensOf (a ++ b) = tokensOf a + tokensOf b := by
  rw [tokensOf, List.map_append, List.sum_append, tokensOf, tokensOf]

/-! ## A session's results -/

namespace SessionState

variable (state : SessionState) (keep : Nat)

/-- The session once all results but the newest `keep` are masked. -/
def cleared : SessionState := (clearToolResults state keep).1

/-- How many results are older than the newest `keep`. -/
def olderResults : Nat := (toolResults state.volatile).length - keep

theorem clearToolResults_eq : clearToolResults state keep =
    ({ state with volatile := (maskOldest (state.olderResults keep) state.volatile).1 },
      (maskOldest (state.olderResults keep) state.volatile).2) := rfl

theorem cleared_volatile :
    (state.cleared keep).volatile = (maskOldest (state.olderResults keep) state.volatile).1 := rfl

/-- What masking promises. -/
structure Masks : Prop where
  frame : state.cleared keep = { state with volatile := (state.cleared keep).volatile }
  older : ∀ b ∈ (toolResults (state.cleared keep).volatile).take (state.olderResults keep),
    IsPlaceholder b
  /-- A block that is no result, or one of the newest `keep`, is where it was. -/
  others : ∀ (i : Nat) (b : Block), state.volatile[i]? = some b →
    (b.source = .toolResults → (toolResults (state.volatile.drop (i + 1))).length < keep) →
    (state.cleared keep).volatile[i]? = some b
  trust : (state.cleared keep).volatile.map Block.trust = state.volatile.map Block.trust
  tokens : tokensOf (state.cleared keep).sources ≤ tokensOf state.sources
  idle : clearToolResults (state.cleared keep) keep = (state.cleared keep, 0)

/-- A result stands behind those before it and before those behind it. -/
theorem length_toolResults {i : Nat} {b : Block} {l : List Block} (h : l[i]? = some b)
    (hb : b.source = .toolResults) : (toolResults l).length =
      (toolResults (l.take i)).length + (toolResults (l.drop (i + 1))).length + 1 := by
  obtain ⟨hlt, hget⟩ := List.getElem?_eq_some_iff.mp h
  have hsplit : l = l.take i ++ b :: l.drop (i + 1) := by
    rw [← hget, List.getElem_cons_drop, List.take_append_drop]
  conv_lhs => rw [hsplit, toolResults, List.filter_append, List.filter_cons_of_pos (by simpa using hb)]
  rw [List.length_append, List.length_cons]
  exact (Nat.add_assoc _ _ _).symm

theorem cleared_others {i : Nat} {b : Block} (h : state.volatile[i]? = some b)
    (hkept : b.source = .toolResults → (toolResults (state.volatile.drop (i + 1))).length < keep) :
    (state.cleared keep).volatile[i]? = some b := by
  rw [cleared_volatile, getElem?_maskOldest, h, Option.map_some, if_neg]
  rintro ⟨hb, hrank⟩
  have hlength := length_toolResults h hb
  have hafter := hkept hb
  unfold olderResults at hrank
  omega

theorem cleared_trust :
    (state.cleared keep).volatile.map Block.trust = state.volatile.map Block.trust := by
  refine List.ext_getElem? fun i => ?_
  rw [cleared_volatile, List.getElem?_map, List.getElem?_map, getElem?_maskOldest, Option.map_map]
  refine congrArg (Option.map · _) (funext fun b => ?_)
  simp only [Function.comp_apply]
  split
  · exact masked_trust b
  · rfl

theorem toolResults_cleared : toolResults (state.cleared keep).volatile =
    ((toolResults state.volatile).take (state.olderResults keep)).map masked ++
      (toolResults state.volatile).drop (state.olderResults keep) := toolResults_maskOldest _ _

/-- As many results, in the same order. -/
theorem take_toolResults_cleared :
    (toolResults (state.cleared keep).volatile).take (state.olderResults keep) =
      ((toolResults state.volatile).take (state.olderResults keep)).map masked := by
  rw [toolResults_cleared, List.take_append_of_le_length, List.take_of_length_le]
  · simp
  · simp only [List.length_map, List.length_take]
    exact Nat.le_min.mpr ⟨Nat.le_refl _, Nat.sub_le _ _⟩

theorem olderResults_cleared : (state.cleared keep).olderResults keep = state.olderResults keep := by
  have hlength : (toolResults (state.cleared keep).volatile).length = (toolResults state.volatile).length := by
    rw [toolResults_cleared]
    simp only [List.length_append, List.length_map, List.length_take, List.length_drop]
    omega
  rw [olderResults, hlength, olderResults]

theorem cleared_idle : clearToolResults (state.cleared keep) keep = (state.cleared keep, 0) := by
  have hopen : ∀ b ∈ (toolResults (state.cleared keep).volatile).take (state.olderResults keep),
      opensBracket b = true := by
    rw [take_toolResults_cleared]
    intro b hb
    obtain ⟨b, -, rfl⟩ := List.mem_map.mp hb
    exact opensBracket_masked b
  rw [clearToolResults_eq, olderResults_cleared, maskOldest_idle hopen]

theorem cleared_tokens : tokensOf (state.cleared keep).sources ≤ tokensOf state.sources ↔
    ((replaced (state.olderResults keep) state.volatile).map fun b => noticeTokens b.tokens).sum ≤
      tokensOf (replaced (state.olderResults keep) state.volatile) := by
  have hwalk := tokensOf_maskOldest (state.olderResults keep) state.volatile
  rw [← cleared_volatile] at hwalk
  have hstable : (state.cleared keep).stableBlocks = state.stableBlocks := rfl
  have hcontext : (state.cleared keep).contextBlocks = state.contextBlocks := rfl
  rw [sources, sources, tokensOf_append, tokensOf_append _ state.volatile, hstable, hcontext]
  omega

theorem cleared_older :
    (∀ b ∈ (toolResults (state.cleared keep).volatile).take (state.olderResults keep),
        IsPlaceholder b) ↔
      ∀ b ∈ (toolResults state.volatile).take (state.olderResults keep),
        opensBracket b = true → IsPlaceholder b := by
  rw [take_toolResults_cleared, List.forall_mem_map]
  refine forall₂_congr fun b _ => ?_
  unfold masked
  split
  next hopen => exact ⟨fun h _ => h, fun h => h hopen⟩
  next hopen => exact iff_of_true (isPlaceholder_maskBlock b) fun h => absurd h hopen

/-- **Masking does what it promises exactly when no older result but a placeholder begins with a
bracket and the results it replaces hold as many tokens as their notices.** -/
theorem masks_iff : state.Masks keep ↔
    (∀ b ∈ (toolResults state.volatile).take (state.olderResults keep),
      opensBracket b = true → IsPlaceholder b) ∧
    ((replaced (state.olderResults keep) state.volatile).map fun b => noticeTokens b.tokens).sum ≤
      tokensOf (replaced (state.olderResults keep) state.volatile) := by
  constructor
  · exact fun h => ⟨(state.cleared_older keep).mp h.older, (state.cleared_tokens keep).mp h.tokens⟩
  · rintro ⟨holder, htokens⟩
    exact
      { frame := rfl
        older := (state.cleared_older keep).mpr holder
        others := fun i b h hkept => state.cleared_others keep h hkept
        trust := state.cleared_trust keep
        tokens := (state.cleared_tokens keep).mpr htokens
        idle := state.cleared_idle keep }

/-- A list that was fetched, a word, and the newest result. -/
def threeResults : SessionState :=
  { SessionState.new 1 "M" with
    volatile := [.toolResult "[1, 2, 3]" "look" .agentObserved none false,
      .toolResult "ok" "look" .agentObserved none false,
      .toolResult "done" "look" .agentObserved none false] }

/-- The list is taken for a placeholder and stays; the word becomes eleven tokens. -/
theorem list_stays_and_word_grows :
    ¬ (∀ (state : SessionState) (keep : Nat), state.Masks keep) ∧
      (threeResults.cleared 1).volatile.map Block.text =
        ["[1, 2, 3]", "[tool result cleared · 1 tokens]", "done"] ∧
      tokensOf threeResults.volatile = 6 ∧ tokensOf (threeResults.cleared 1).volatile = 16 := by
  have htokens : tokensOf (threeResults.cleared 1).volatile = 16 := by decide
  refine ⟨fun h => ?_, by decide, by decide, htokens⟩
  have hgrown := (h threeResults 1).tokens
  exact absurd hgrown (by decide)

end SessionState

end MarloweAgent.Loop
