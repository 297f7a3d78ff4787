import MarloweAgent.Memory.Wordpiece

/-! What the pieces of a text say: those of a word spell it, and the id of a special token stands for its
literal in the text. -/

namespace MarloweAgent.Memory
open Contract Library

/-! ## Basic tokens -/

section
variable {unicode : Unicode}

/-- A token is one punctuation mark or has none. -/
def Unicode.Whole (unicode : Unicode) (token : List Char) : Prop :=
  (∃ c, unicode.isPunctuation c = true ∧ token = [c]) ∨
    (token ≠ [] ∧ ∀ c ∈ token, unicode.isPunctuation c = false)

theorem whole_of_mem_current {current token : List Char}
    (hcurrent : ∀ c ∈ current, unicode.isPunctuation c = false)
    (h : token ∈ (if current.isEmpty then [] else [current])) : unicode.Whole token := by
  split at h
  · cases h
  · rename_i hne
    rw [List.mem_singleton.mp h]
    exact .inr ⟨by simpa using hne, hcurrent⟩

theorem whole_of_mem_splitOnPunctuation {text current token : List Char}
    (hcurrent : ∀ c ∈ current, unicode.isPunctuation c = false)
    (h : token ∈ splitOnPunctuation unicode current text) : unicode.Whole token := by
  induction text generalizing current with
  | nil => exact whole_of_mem_current hcurrent h
  | cons c rest ih =>
    rw [splitOnPunctuation] at h
    split at h
    · rename_i hc
      rcases List.mem_append.mp h with h | h
      · exact whole_of_mem_current hcurrent h
      rcases List.mem_cons.mp h with rfl | h
      · exact .inl ⟨c, hc, rfl⟩
      · exact ih (by simp) h
    · rename_i hc
      have hnext : ∀ d ∈ current ++ [c], unicode.isPunctuation d = false := by
        simpa [or_imp, forall_and, hc] using hcurrent
      exact ih hnext h

theorem whole_of_mem_basicTokenize {text token : List Char} (h : token ∈ basicTokenize unicode text) :
    unicode.Whole token := by
  obtain ⟨word, -, h⟩ := List.mem_flatMap.mp h
  split at h
  · cases h
  · dsimp only at h
    split at h
    · cases h
    · exact whole_of_mem_splitOnPunctuation (by simp) h

theorem Unicode.Whole.ne_nil {token : List Char} (h : unicode.Whole token) : token ≠ [] := by
  rcases h with ⟨c, -, rfl⟩ | ⟨hne, -⟩
  · exact List.cons_ne_nil _ _
  · exact hne

/-- A token in which a punctuation mark stands has no other characters. -/
theorem Unicode.Whole.eq_singleton {token : List Char} {c : Char} (h : unicode.Whole token)
    (hc : unicode.isPunctuation c = true) (hmem : c ∈ token) : token = [c] := by
  rcases h with ⟨d, -, rfl⟩ | ⟨-, hnone⟩
  · rw [List.mem_singleton.mp hmem]
  · rw [hnone c hmem] at hc
    cases hc

theorem isPunctuation_bracket : unicode.isPunctuation '[' = true := rfl

theorem isPunctuation_hash : unicode.isPunctuation '#' = true := rfl

end

/-! ## Words -/

namespace Vocab
variable {vocab : Vocab} {unicode : Unicode}

/-- No two tokens have one id. -/
def Distinct (vocab : Vocab) : Prop :=
  ∀ (s t : String) (id : TokenId), vocab.id s = some id → vocab.id t = some id → s = t

/-- These ids are those of pieces which spell the token, each the longest in its place that the vocabulary has;
the first is in the vocabulary as it is and the others behind the mark of a continuation. -/
def SpelledBy (vocab : Vocab) (token : List Char) (ids : List TokenId) : Prop :=
  ∃ pieces : List (List Char × TokenId), pieces ≠ [] ∧ pieces.map Prod.snd = ids ∧
    (pieces.map Prod.fst).flatten = token ∧ Spells vocab.piece true token pieces ∧
    ∀ piece ∈ pieces.head?, ¬ "##".toList <+: piece.1

theorem spelledBy_of_cut {token : List Char} {ids : List TokenId} (h : unicode.Whole token)
    (hcut : cut vocab.piece true token = some ids) : vocab.SpelledBy token ids := by
  obtain ⟨pieces, hspells, hids⟩ := cut_eq_some hcut
  refine ⟨pieces, ?_, hids, hspells.flatten, hspells, ?_⟩
  · rintro rfl
    exact h.ne_nil hspells.flatten.symm
  · -- A mark of a continuation would be two punctuation marks in one token.
    rintro ⟨piece, id⟩ hfirst hmark
    have hmem : (piece, id) ∈ pieces := List.mem_of_mem_head? hfirst
    have hpiece : piece <:+: token := (hspells.mem hmem).1
    have hhash : '#' ∈ token := hpiece.subset (hmark.subset (by decide))
    have hlength := hmark.length_le.trans hpiece.length_le
    rw [h.eq_singleton isPunctuation_hash hhash] at hlength
    exact absurd hlength (by decide)

/-- A word that is too long, or that no pieces spell, is unknown. -/
def Unknown (vocab : Vocab) (token : List Char) : Prop :=
  maxInputCharsPerWord < token.length ∨ ∀ ids, ¬ vocab.SpelledBy token ids

theorem wordpiece_cases {token : List Char} (h : unicode.Whole token) :
    (vocab.wordpiece token = [vocab.unkId] ∧ vocab.Unknown token) ∨
      vocab.SpelledBy token (vocab.wordpiece token) := by
  unfold wordpiece
  split
  · rename_i hlong
    exact .inl ⟨rfl, .inl hlong⟩
  cases hcut : cut vocab.piece true token with
  | none =>
    refine .inl ⟨rfl, .inr fun ids ⟨pieces, _, _, _, hspells, _⟩ => ?_⟩
    rw [hspells.cut_eq] at hcut
    cases hcut
  | some ids => exact .inr (spelledBy_of_cut h hcut)

/-- A word has the id of a special token only where it is not known. -/
theorem special_notMem_wordpiece (hdistinct : vocab.Distinct) {literal : Literal} (hliteral : literal ≠ .unk)
    {token : List Char} (h : unicode.Whole token) : vocab.special literal ∉ vocab.wordpiece token := by
  have hunk : vocab.special literal ∉ [vocab.unkId] := by
    intro hmem
    have htext := hdistinct literal.text Literal.unk.text vocab.unkId
      (by rw [id_text, List.mem_singleton.mp hmem]) vocab.unk
    cases literal <;> first | exact hliteral rfl | exact absurd htext (by decide)
  unfold wordpiece
  split
  · exact hunk
  cases hcut : cut vocab.piece true token with
  | none => exact hunk
  | some ids =>
    intro hmem
    obtain ⟨pieces, hspells, rfl⟩ := cut_eq_some hcut
    obtain ⟨⟨piece, id⟩, hmem, rfl⟩ := List.mem_map.mp hmem
    obtain ⟨hpart, first, hid⟩ := hspells.mem hmem
    have htext : pieceText first piece = literal.text := hdistinct _ _ _ hid (id_text vocab literal)
    have hchars : (if first then piece else '#' :: '#' :: piece) = literal.text.toList := by
      rw [← htext, pieceText, String.toList_ofList]
    cases first with
    | false =>
      have hhead : some '#' = literal.text.toList.head? := congrArg List.head? hchars
      cases literal <;> exact absurd hhead (by decide)
    | true =>
      obtain rfl : piece = literal.text.toList := hchars
      have hbracket : '[' ∈ token := hpart.subset (by cases literal <;> decide)
      have hlength := hpart.length_le
      rw [h.eq_singleton isPunctuation_bracket hbracket] at hlength
      exact absurd hlength (by cases literal <;> decide)

end Vocab

/-! ## Literals -/

namespace Literal

/-- The literal stands at this place of a text. -/
def StandsAt (literal : Literal) (text : List Char) (i : Nat) : Prop := literal.text.toList <+: text.drop i

/-- At how many places of a text a literal stands. -/
def occurrences (literal : Literal) (text : List Char) : Nat :=
  text.tails.countP fun rest => literal.text.toList.isPrefixOf rest

theorem toList_text (literal : Literal) :
    ∃ body, literal.text.toList = '[' :: body ∧ '[' ∉ body := by
  cases literal <;> exact ⟨_, rfl, by decide⟩

theorem text_injective {literal other : Literal} (h : literal.text = other.text) : literal = other := by
  cases literal <;> cases other <;> first | rfl | exact absurd h (by decide)

/-- No literal begins with another. -/
theorem eq_of_prefix {literal other : Literal} (h : literal.text.toList <+: other.text.toList) :
    literal = other := by
  cases literal <;> cases other <;> first | rfl | exact absurd h (by decide)

theorem eq_of_prefix_of_prefix {literal other : Literal} {text : List Char}
    (h : literal.text.toList <+: text) (hother : other.text.toList <+: text) : literal = other := by
  rcases List.prefix_or_prefix_of_prefix h hother with h | h
  · exact eq_of_prefix h
  · exact Eq.symm ( eq_of_prefix h)

theorem occurrences_cons (literal : Literal) (c : Char) (rest : List Char) :
    literal.occurrences (c :: rest) =
      literal.occurrences rest + if literal.text.toList <+: c :: rest then 1 else 0 := by
  simp only [occurrences, List.tails, List.countP_cons, List.isPrefixOf_iff_prefix]

/-- No literal begins within what has no bracket. -/
theorem occurrences_append (literal : Literal) {body : List Char} (hbody : '[' ∉ body) (rest : List Char) :
    literal.occurrences (body ++ rest) = literal.occurrences rest := by
  induction body with
  | nil => rfl
  | cons c body ih =>
    obtain ⟨hc, hbody⟩ := not_or.mp (mt List.mem_cons.mpr hbody)
    obtain ⟨tail, htail, -⟩ := literal.toList_text
    rw [List.cons_append, occurrences_cons, if_neg, ih hbody, Nat.add_zero]
    rw [htail, List.cons_prefix_cons]
    exact fun h => hc h.1

/-- Two literals in a text do not overlap. -/
theorem add_le_of_standsAt {literal other : Literal} {text : List Char} {i j : Nat}
    (h : literal.StandsAt text i) (hother : other.StandsAt text j) (hlt : i < j) :
    i + literal.text.toList.length ≤ j := by
  by_contra hinside
  obtain ⟨rest, hrest⟩ := h
  obtain ⟨body, hbody, hnone⟩ := literal.toList_text
  obtain ⟨tail, htail, -⟩ := other.toList_text
  have hdrop : text.drop j = body.drop (j - i - 1) ++ rest := by
    have hj : text.drop j = (text.drop i).drop (j - i - 1 + 1) := by
      rw [List.drop_drop]
      congr 1
      omega
    rw [hbody, List.length_cons] at hinside
    rw [hj, ← hrest, hbody, List.cons_append, List.drop_succ_cons, List.drop_append_of_le_length (by omega)]
  have hlength : 0 < (body.drop (j - i - 1)).length := by
    rw [hbody, List.length_cons] at hinside
    rw [List.length_drop]
    omega
  obtain ⟨c, more, hmore⟩ := List.exists_cons_of_length_pos hlength
  rw [StandsAt, htail, hdrop, hmore, List.cons_append, List.cons_prefix_cons] at hother
  obtain ⟨rfl, -⟩ := hother
  have hmem : '[' ∈ body.drop (j - i - 1) := hmore ▸ List.mem_cons_self
  exact hnone (List.mem_of_mem_drop hmem)

end Literal

theorem literalAt_eq_some {text : List Char} {literal : Literal} (h : literalAt text = some literal) :
    literal.text.toList <+: text := by
  unfold literalAt at h
  split at h
  · have hfound := List.find?_some h
    exact List.isPrefixOf_iff_prefix.mp hfound
  · cases h

theorem literalAt_eq_none {text : List Char} (h : literalAt text = none) (literal : Literal) :
    ¬ literal.text.toList <+: text := by
  intro hpre
  unfold literalAt at h
  split at h
  · exact List.find?_eq_none.mp h literal literal.mem_all (List.isPrefixOf_iff_prefix.mpr hpre)
  · rename_i hhead
    obtain ⟨body, hbody, -⟩ := literal.toList_text
    obtain ⟨rest, rfl⟩ := hpre
    rw [hbody] at hhead
    exact hhead rfl

theorem count_textSegment (literal : Literal) (run : List Char) :
    (textSegment run).count (.special literal) = 0 := by
  unfold textSegment
  split <;> simp

/-- A literal is split off wherever it stands, once what is to be passed has been. -/
theorem count_splitOnSpecialFrom (literal : Literal) (run : List Char) (skip : Nat) (text : List Char) :
    (splitOnSpecialFrom run skip text).count (.special literal) = literal.occurrences (text.drop skip) := by
  induction text generalizing run skip with
  | nil =>
    obtain ⟨body, hbody, -⟩ := literal.toList_text
    rw [splitOnSpecialFrom, count_textSegment, List.drop_nil]
    simp [Literal.occurrences, hbody]
  | cons c rest ih =>
    cases skip with
    | succ skip => exact ih run skip
    | zero =>
      rw [splitOnSpecialFrom, List.drop_zero, Literal.occurrences_cons]
      split
      · rename_i found hfound
        have hpre := literalAt_eq_some hfound
        have hthis : (literal.text.toList <+: c :: rest) ↔ found = literal :=
          ⟨fun h => Literal.eq_of_prefix_of_prefix hpre h, fun h => h ▸ hpre⟩
        obtain ⟨body, hbody, hnone⟩ := found.toList_text
        rw [hbody, List.cons_prefix_cons] at hpre
        obtain ⟨-, after, rfl⟩ := hpre
        rw [List.count_append, count_textSegment, List.count_cons, ih, hbody, List.length_cons,
          Nat.add_sub_cancel, List.drop_left, literal.occurrences_append hnone, Nat.zero_add, if_congr hthis rfl rfl]
        simp
      · rename_i hnone
        rw [ih, if_neg (literalAt_eq_none hnone literal)]
        rfl

theorem count_pieces {vocab : Vocab} (unicode : Unicode) (hdistinct : vocab.Distinct) {literal : Literal}
    (hliteral : literal ≠ .unk) (segments : List Segment) :
    (segments.flatMap (Segment.pieces vocab unicode)).count (vocab.special literal) =
      segments.count (.special literal) := by
  induction segments with
  | nil => rfl
  | cons segment rest ih =>
    rw [List.flatMap_cons, List.count_append, ih, List.count_cons, Nat.add_comm]
    congr 1
    cases segment with
    | special found =>
      have hsame : vocab.special found = vocab.special literal ↔ found = literal := by
        refine ⟨fun h => Literal.text_injective ?_, fun h => h ▸ rfl⟩
        exact hdistinct _ _ _ (vocab.id_text found) (h ▸ vocab.id_text literal)
      rw [Segment.pieces, List.count_singleton, beq_eq_decide, beq_eq_decide]
      simp [hsame]
    | text chunk =>
      rw [Segment.pieces, List.count_eq_zero.mpr]
      · rfl
      intro hmem
      obtain ⟨token, htoken, hmem⟩ := List.mem_flatMap.mp hmem
      exact vocab.special_notMem_wordpiece hdistinct hliteral (whole_of_mem_basicTokenize htoken) hmem

def tinyTokens : OrderedMap String TokenId :=
  (["[PAD]", "[UNK]", "[CLS]", "[SEP]", "[MASK]", "run", "##ning"].zipIdx).foldl
    (fun tokens (token, index) => tokens.insert token index) .empty

def tinyVocab : Vocab where
  tokens := tinyTokens
  unkId := 1
  clsId := 2
  sepId := 3
  unk := by decide +kernel
  cls := by decide +kernel
  sep := by decide +kernel
  present literal := by cases literal <;> decide +kernel

theorem tinyVocab_distinct : tinyVocab.Distinct := by
  have hbindings : ∀ a ∈ tinyTokens.bindings, ∀ b ∈ tinyTokens.bindings, a.2 = b.2 → a.1 = b.1 := by
    decide +kernel
  intro s t id hs ht
  exact hbindings _ (tinyTokens.mem_bindings_of_get? hs) _ (tinyTokens.mem_bindings_of_get? ht) rfl

/-- The tables, as far as the letters without accents go. -/
def plainLetters : Unicode where
  category c :=
    if c.isLower then .lowercaseLetter
    else if c.isUpper then .uppercaseLetter
    else if c = ' ' then .spaceSeparator
    else .unassigned
  lowercase text := text.map Char.toLower
  nfd text := text

end MarloweAgent.Memory
