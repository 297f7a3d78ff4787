import MarloweAgent.Extract.Html

/-! Which blocks are the document: the marked article if it has enough text, else what is not chrome if
that has enough, else the page. The links of a page are left out where they are most of a block, in the
article too, and it is measured with them. -/

namespace MarloweAgent.Extract.Html
open Contract

def isLinkFarm (b : TextBlock) : Bool :=
  decide (40 ≤ Text.byteLen b.text) && decide (Text.byteLen b.text * 65 < b.linkChars * 100)

def hasText (b : TextBlock) : Bool := decide (trim b.text ≠ [])

/-- Each block on a line, the blank ones left out. -/
def join (blocks : List TextBlock) : List Char := (blocks.filter hasText).flatMap fun b => b.text ++ ['\n']

def totalBytes (blocks : List TextBlock) : Nat := (blocks.map (Text.byteLen ·.text)).sum

/-- Whether what the page marks as its content has enough text to be the article. -/
def hasArticle (blocks : List TextBlock) : Bool :=
  decide (200 ≤ totalBytes (blocks.filter (·.content))) &&
    decide (totalBytes blocks * 15 ≤ totalBytes (blocks.filter (·.content)) * 100)

/-- Whether what is left without the chrome has enough text to be the document. -/
def isEnough (blocks : List TextBlock) (text : List Char) : Bool :=
  decide (totalBytes blocks * 10 ≤ Text.byteLen (trim text) * 100) && decide (120 ≤ Text.byteLen (trim text))

def selectContent (blocks : List TextBlock) (warnings : List Warning) : List Char × List Warning :=
  if totalBytes blocks = 0 then ([], warnings)
  else if hasArticle blocks then (join (blocks.filter fun b => b.content && !isLinkFarm b), warnings)
  else
    let kept := join (blocks.filter fun b => !b.boilerplate && !isLinkFarm b)
    if isEnough blocks kept then (kept, warnings)
    else
      (join blocks,
        if 120 ≤ totalBytes blocks then
          warnings ++ [.recovered "content selection found no clear article; returning the full page text"]
        else warnings)

/-- Content selection only removes text, and never all of it: it gives some of the blocks that are not
blank, a text that is not blank if there is any, and where there is no article enough of the page or all
of it. -/
structure Selects (blocks : List TextBlock) (result : List Char) : Prop where
  part : ∃ chosen, List.Sublist chosen (blocks.filter hasText) ∧ result = chosen.flatMap fun b => b.text ++ ['\n']
  remains : (∃ b ∈ blocks, hasText b = true) → trim result ≠ []
  page : hasArticle blocks = false → isEnough blocks result = true ∨ result = join blocks

theorem hasText_iff {b : TextBlock} : hasText b = true ↔ ∃ c ∈ b.text, Text.isWhitespace c = false := by
  rw [hasText, decide_eq_true_iff, ne_eq, trim_eq_nil]
  simp

theorem trim_join {blocks : List TextBlock} : trim (join blocks) ≠ [] ↔ ∃ b ∈ blocks, hasText b = true := by
  rw [ne_eq, trim_eq_nil]
  constructor
  · intro h
    by_contra hnone
    refine h fun c hc => ?_
    obtain ⟨b, hb, -⟩ := List.mem_flatMap.mp hc
    obtain ⟨hmem, htext⟩ := List.mem_filter.mp hb
    exact absurd ⟨b, hmem, htext⟩ hnone
  · rintro ⟨b, hb, htext⟩ hblank
    obtain ⟨c, hc, hsolid⟩ := hasText_iff.mp htext
    have hmem : c ∈ join blocks :=
      List.mem_flatMap.mpr ⟨b, List.mem_filter.mpr ⟨hb, htext⟩, List.mem_append_left _ hc⟩
    rw [hblank c hmem] at hsolid
    cases hsolid

/-- What is joined of some of the blocks is some of those that are not blank. -/
theorem join_part (p : TextBlock → Bool) (blocks : List TextBlock) :
    ∃ chosen, List.Sublist chosen (blocks.filter hasText) ∧
      join (blocks.filter p) = chosen.flatMap fun b => b.text ++ ['\n'] := by
  refine ⟨(blocks.filter p).filter hasText, ?_, rfl⟩
  exact List.filter_sublist.filter hasText

theorem blank_of_totalBytes {blocks : List TextBlock} (h : totalBytes blocks = 0) : ∀ b ∈ blocks, b.text = [] := by
  intro b hb
  have hzero : Text.byteLen b.text = 0 := List.sum_eq_zero_iff_forall_eq_nat.mp h _ (List.mem_map_of_mem hb)
  by_contra hsome
  exact absurd hzero (Nat.ne_of_gt (byteLen_pos hsome))

theorem hasArticle_of_none {blocks : List TextBlock} (h : totalBytes blocks = 0) : hasArticle blocks = false := by
  have hmarked : totalBytes (blocks.filter (·.content)) = 0 := by
    refine List.sum_eq_zero_iff_forall_eq_nat.mpr fun n hn => ?_
    obtain ⟨b, hb, rfl⟩ := List.mem_map.mp hn
    rw [blank_of_totalBytes h b (List.mem_filter.mp hb).1]
    rfl
  rw [hasArticle, hmarked]
  rfl

/-- **Content selection removes everything just if the article it takes is all link farm.** -/
theorem selectContent_iff (blocks : List TextBlock) (warnings : List Warning) :
    Selects blocks (selectContent blocks warnings).1 ↔
      (hasArticle blocks = true → (∃ b ∈ blocks, hasText b = true) →
        ∃ b ∈ blocks, b.content = true ∧ isLinkFarm b = false ∧ hasText b = true) := by
  have hmarked : trim (join (blocks.filter fun b => b.content && !isLinkFarm b)) ≠ [] ↔
      ∃ b ∈ blocks, b.content = true ∧ isLinkFarm b = false ∧ hasText b = true := by
    rw [trim_join]
    simp only [List.mem_filter, Bool.and_eq_true, Bool.not_eq_true', and_assoc]
  by_cases hzero : totalBytes blocks = 0
  · have hresult : (selectContent blocks warnings).1 = [] := by rw [selectContent, if_pos hzero]
    have hnone := hasArticle_of_none hzero
    have hblank : ¬ ∃ b ∈ blocks, hasText b = true := by
      rintro ⟨b, hb, htext⟩
      rw [hasText, blank_of_totalBytes hzero b hb] at htext
      cases htext
    rw [hresult, hnone]
    refine ⟨fun _ harticle => absurd harticle Bool.false_ne_true, fun _ => ⟨⟨[], List.nil_sublist _, rfl⟩, ?_, ?_⟩⟩
    · exact fun hsome => absurd hsome hblank
    · intro _
      refine .inr (Eq.symm ?_)
      have hfilter : blocks.filter hasText = [] :=
        List.filter_eq_nil_iff.mpr fun b hb htext => hblank ⟨b, hb, htext⟩
      rw [join, hfilter, List.flatMap_nil]
  · cases harticle : hasArticle blocks with
    | true =>
      have hresult : (selectContent blocks warnings).1 = join (blocks.filter fun b => b.content && !isLinkFarm b) := by
        rw [selectContent, if_neg hzero, if_pos harticle]
      rw [hresult]
      refine ⟨fun h _ hsome => hmarked.mp (h.remains hsome), fun h => ⟨join_part _ blocks, ?_, ?_⟩⟩
      · exact fun hsome => hmarked.mpr (h rfl hsome)
      · intro hnone
        rw [harticle] at hnone
        cases hnone
    | false =>
      refine ⟨fun _ h => absurd h Bool.false_ne_true, fun _ => ?_⟩
      rw [selectContent, if_neg hzero, if_neg (by rw [harticle]; exact Bool.false_ne_true)]
      dsimp only
      split
      · rename_i henough
        refine ⟨join_part _ blocks, fun _ hempty => ?_, fun _ => .inl henough⟩
        rw [isEnough, hempty, Bool.and_eq_true] at henough
        exact absurd (of_decide_eq_true henough.2) (by decide)
      · refine ⟨⟨_, List.Sublist.refl _, rfl⟩, fun hsome => trim_join.mpr hsome, fun _ => .inr rfl⟩

/-- An article of links is all that is taken of the page, and nothing of it is kept. -/
theorem links_removed :
    let blocks : List TextBlock := [⟨List.replicate 200 'a', false, true, 200⟩, ⟨['b'], false, false, 0⟩]
    selectContent blocks [] = ([], []) ∧ ¬ Selects blocks (selectContent blocks []).1 := by
  have hresult : selectContent [⟨List.replicate 200 'a', false, true, 200⟩, ⟨['b'], false, false, 0⟩] [] = ([], []) := by
    decide +kernel
  refine ⟨hresult, fun h => h.remains ⟨⟨['b'], false, false, 0⟩, by simp, by decide⟩ ?_⟩
  rw [hresult]
  rfl

end MarloweAgent.Extract.Html
