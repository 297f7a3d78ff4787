import MarloweAgent.Contract.Text
import MarloweAgent.Library.Tags

/-! Reasoning that arrives in the `content` channel. A splitter tells the text inside think
blocks from the text outside them while the text is still arriving, holds back what might yet
become a tag, and takes back what it has passed on as speech when a closing tag proves that it
was reasoning. -/

namespace MarloweAgent.Provider
open Contract Library

inductive Segment
  | reasoning (text : List Char)
  | speech (text : List Char)
  deriving DecidableEq, Repr

def Segment.isReasoning : Segment → Bool
  | reasoning _ => true
  | speech _ => false

structure Split where
  segments : List Segment := []
  retractSpeech : Bool := false
  deriving DecidableEq, Repr

def openTags : List (List Char) := ["<think>".toList, "<thinking>".toList]

def closeTags : List (List Char) := ["</think>".toList, "</thinking>".toList]

/-- The tags, and whether each is an opening one. -/
def thinkTags : List (List Char × Bool) := openTags.map (·, true) ++ closeTags.map (·, false)

structure ThinkSplitter where
  inside : Bool := false
  pending : List Char := []
  spoke : Bool := false
  sawTag : Bool := false
  deriving DecidableEq, Repr

/-- A tag that was found, against the best one so far. -/
def earlier (s : List Char) (best : Option (Nat × Nat × Bool)) (tag : List Char × Bool) :
    Option (Nat × Nat × Bool) :=
  match Text.find s tag.1 with
  | some pos => if best.all (pos < ·.1) then some (pos, tag.1.length, tag.2) else best
  | none => best

/-- The earliest tag: where, how long, whether it opens. -/
def nextTag (s : List Char) : Option (Nat × Nat × Bool) := thinkTags.foldl (earlier s) none

/-- How many characters at the end could still become a tag. -/
def partialTagFrom (s : List Char) : Nat :=
  ((openTags ++ closeTags).findSome? fun tag =>
    (List.range' 1 (tag.length - 1)).reverse.find? fun take =>
      take ≤ s.length && s.drop (s.length - take) = tag.take take).getD 0

/-! ## Finding a tag -/

/-- The best tag among some of them. -/
def IsEarliest (s : List Char) (tags : List (List Char × Bool)) : Option (Nat × Nat × Bool) → Prop
  | none => ∀ t ∈ tags, ∀ i, ¬t.1 <+: s.drop i
  | some (pos, len, opening) =>
    (∃ word, (word, opening) ∈ tags ∧ word.length = len ∧ word <+: s.drop pos) ∧
      ∀ t ∈ tags, ∀ i < pos, ¬t.1 <+: s.drop i

theorem isEarliest_earlier {s : List Char} {tags : List (List Char × Bool)}
    {best : Option (Nat × Nat × Bool)} (tag : List Char × Bool) (h : IsEarliest s tags best) :
    IsEarliest s (tags ++ [tag]) (earlier s best tag) := by
  unfold earlier
  cases hfind : Text.find s tag.1 with
  | none =>
    have hnone := Text.find_eq_none hfind
    cases best with
    | none =>
      intro t ht
      rcases List.mem_append.mp ht with ht | ht
      · exact h t ht
      · obtain rfl := List.mem_singleton.mp ht
        exact hnone
    | some b =>
      obtain ⟨⟨word, hmem, hlen, hpre⟩, hbefore⟩ := h
      refine ⟨⟨word, List.mem_append_left _ hmem, hlen, hpre⟩, fun t ht i hi => ?_⟩
      rcases List.mem_append.mp ht with ht | ht
      · exact hbefore t ht i hi
      · obtain rfl := List.mem_singleton.mp ht
        exact hnone i
  | some pos =>
    obtain ⟨hpre, hfirst⟩ := Text.find_eq_some hfind
    cases best with
    | none =>
      refine ⟨⟨tag.1, by simp, rfl, hpre⟩, fun t ht i hi => ?_⟩
      rcases List.mem_append.mp ht with ht | ht
      · exact h t ht i
      · obtain rfl := List.mem_singleton.mp ht
        exact hfirst i hi
    | some b =>
      obtain ⟨⟨word, hmem, hlen, hword⟩, hbefore⟩ := h
      show IsEarliest s _ (if decide (pos < b.1) = true then _ else _)
      split
      next hlt =>
        have hlt : pos < b.1 := by simpa using hlt
        refine ⟨⟨tag.1, by simp, rfl, hpre⟩, fun t ht i hi => ?_⟩
        rcases List.mem_append.mp ht with ht | ht
        · exact hbefore t ht i (by omega)
        · obtain rfl := List.mem_singleton.mp ht
          exact hfirst i hi
      next hge =>
        have hge : ¬pos < b.1 := by simpa using hge
        refine ⟨⟨word, List.mem_append_left _ hmem, hlen, hword⟩, fun t ht i hi => ?_⟩
        rcases List.mem_append.mp ht with ht | ht
        · exact hbefore t ht i hi
        · obtain rfl := List.mem_singleton.mp ht
          exact hfirst i (by omega)

theorem nextTag_isEarliest (s : List Char) : IsEarliest s thinkTags (nextTag s) := by
  suffices h : ∀ tags done best, IsEarliest s done best →
      IsEarliest s (done ++ tags) (tags.foldl (earlier s) best) from
    h thinkTags [] none (fun t ht => absurd ht List.not_mem_nil)
  intro tags
  induction tags with
  | nil =>
    intro done best h
    simpa using h
  | cons tag tags ih =>
    intro done best h
    have hrest := ih (done ++ [tag]) _ (isEarliest_earlier tag h)
    simpa using hrest

theorem thinkTags_legible : Tags.Legible thinkTags '<' where
  marked := by
    intro t ht
    simp only [thinkTags, openTags, closeTags, List.map_cons, List.map_nil, List.cons_append,
      List.nil_append, List.mem_cons, List.not_mem_nil, or_false] at ht
    rcases ht with rfl | rfl | rfl | rfl <;> exact ⟨_, rfl, by decide⟩
  apart := by decide

theorem tagAt_of_nextTag_none {s : List Char} (h : nextTag s = none) (i : Nat) :
    Tags.tagAt thinkTags (s.drop i) = none := by
  have hearliest := nextTag_isEarliest s
  rw [h] at hearliest
  exact Tags.tagAt_eq_none.mpr fun t ht => hearliest t ht i

theorem tagAt_of_nextTag_some {s : List Char} {pos len : Nat} {opening : Bool}
    (h : nextTag s = some (pos, len, opening)) :
    (∃ word, Tags.tagAt thinkTags (s.drop pos) = some (word, opening) ∧ word.length = len) ∧
      ∀ i < pos, Tags.tagAt thinkTags (s.drop i) = none := by
  have hearliest := nextTag_isEarliest s
  rw [h] at hearliest
  obtain ⟨⟨word, hmem, hlen, hpre⟩, hbefore⟩ := hearliest
  exact ⟨⟨word, thinkTags_legible.tagAt_eq_some.mpr ⟨hmem, hpre⟩, hlen⟩,
    fun i hi => Tags.tagAt_eq_none.mpr fun t ht => hbefore t ht i hi⟩

theorem word_mem_thinkTags {word : List Char} (h : word ∈ openTags ++ closeTags) :
    ∃ opening, (word, opening) ∈ thinkTags := by
  rcases List.mem_append.mp h with h | h
  · exact ⟨true, List.mem_append_left _ (List.mem_map_of_mem h)⟩
  · exact ⟨false, List.mem_append_right _ (List.mem_map_of_mem h)⟩

theorem word_of_mem_thinkTags {t : List Char × Bool} (h : t ∈ thinkTags) : t.1 ∈ openTags ++ closeTags := by
  rcases List.mem_append.mp h with h | h
  · obtain ⟨word, hword, rfl⟩ := List.mem_map.mp h
    exact List.mem_append_left _ hword
  · obtain ⟨word, hword, rfl⟩ := List.mem_map.mp h
    exact List.mem_append_right _ hword

/-- What is kept back is the only fragment of a tag that the text ends with. -/
theorem partialTagFrom_spec (s : List Char) :
    ∀ i < s.length - partialTagFrom s, ¬Tags.IsFragment thinkTags (s.drop i) := by
  intro i hi hfragment
  obtain ⟨hne, t, ht, hpre, hlen⟩ := hfragment
  have hword := word_of_mem_thinkTags ht
  unfold partialTagFrom at hi
  cases hfound : (openTags ++ closeTags).findSome? fun tag =>
      (List.range' 1 (tag.length - 1)).reverse.find? fun take =>
        take ≤ s.length && s.drop (s.length - take) = tag.take take with
  | none =>
    have hnone := List.findSome?_eq_none_iff.mp hfound t.1 hword
    have hsize : (s.drop i).length = s.length - i := List.length_drop
    have hpos := List.length_pos_iff.mpr hne
    have hnot := List.find?_eq_none.mp hnone (s.length - i)
      (List.mem_reverse.mpr (List.mem_range'_1.mpr (by omega)))
    have htake : s.drop i = t.1.take (s.length - i) := by
      rw [← hsize]
      exact List.prefix_iff_eq_take.mp hpre
    have hback : s.length - (s.length - i) = i := by omega
    simp [hback, htake] at hnot
  | some take =>
    rw [hfound, Option.getD_some] at hi
    obtain ⟨tag, htag, htake⟩ := List.exists_of_findSome?_eq_some hfound
    have hrange := List.mem_range'_1.mp (List.mem_reverse.mp (List.mem_of_find?_eq_some htake))
    have hmatch := List.find?_some htake
    simp only [Bool.and_eq_true, decide_eq_true_eq] at hmatch
    obtain ⟨hle, hdrop⟩ := hmatch
    obtain ⟨opening, hmem⟩ := word_mem_thinkTags htag
    obtain ⟨body, hbody, -⟩ := thinkTags_legible.marked _ hmem
    refine thinkTags_legible.not_prefix_drop ht hne hpre hi (List.prefix_refl _) ?_
    rw [hdrop, show tag = '<' :: body from hbody]
    cases take with
    | zero => omega
    | succ n => rfl

/-! ## The splitter -/

namespace ThinkSplitter

def push (s : ThinkSplitter) (split : Split) (text : List Char) : ThinkSplitter × Split :=
  if text = [] then (s, split)
  else if s.inside then (s, { split with segments := split.segments ++ [.reasoning text] })
  else ({ s with spoke := true }, { split with segments := split.segments ++ [.speech text] })

/-- What a tag does. A closing tag without an opening one takes back what was spoken. -/
def turn (s : ThinkSplitter) (split : Split) (opening : Bool) : ThinkSplitter × Split :=
  if opening then ({ s with inside := true }, split)
  else if !s.inside && s.spoke then
    ({ s with inside := false, spoke := false },
      { segments := split.segments.filter Segment.isReasoning, retractSpeech := true })
  else ({ s with inside := false }, split)

/-- The loop of `feed`. -/
def consume (s : ThinkSplitter) (split : Split) (rest : List Char) : ThinkSplitter × Split :=
  if _hrest : rest = [] then (s, split)
  else
    match _htag : nextTag rest with
    | some (pos, len, opening) =>
      let (s, split) := push { s with sawTag := true } split (rest.take pos)
      let (s, split) := turn s split opening
      consume s split (rest.drop (pos + len))
    | none =>
      let keep := partialTagFrom rest
      let (s, split) := push s split (rest.take (rest.length - keep))
      ({ s with pending := rest.drop (rest.length - keep) }, split)
termination_by rest.length
decreasing_by
  obtain ⟨⟨word, htagAt, rfl⟩, -⟩ := tagAt_of_nextTag_some _htag
  obtain ⟨body, hbody, -⟩ := thinkTags_legible.marked _ (Tags.tagAt_mem htagAt).1
  have hword : 0 < word.length := by
    rw [show word = '<' :: body from hbody]
    exact Nat.succ_pos _
  have hlen := List.length_pos_iff.mpr _hrest
  rw [List.length_drop]
  omega

/-- One streamed chunk. -/
def feed (s : ThinkSplitter) (chunk : List Char) : ThinkSplitter × Split :=
  consume { s with pending := [] } {} (s.pending ++ chunk)

/-- The stream ended: what is still held back was never a tag. -/
def finish (s : ThinkSplitter) : ThinkSplitter × Split := push { s with pending := [] } {} s.pending

end ThinkSplitter

/-- What the caller has: the reasoning and the speech of the call so far. -/
structure Channels where
  reasoning : List Char := []
  speech : List Char := []
  deriving DecidableEq, Repr

def Channels.add (c : Channels) : Segment → Channels
  | .reasoning text => { c with reasoning := c.reasoning ++ text }
  | .speech text => { c with speech := c.speech ++ text }

/-- A retraction moves the speech so far into the reasoning, before the new segments come in. -/
def Channels.receive (c : Channels) (split : Split) : Channels :=
  split.segments.foldl add
    (if split.retractSpeech then { reasoning := c.reasoning ++ c.speech, speech := [] } else c)

def heardFrom (s : ThinkSplitter) (c : Channels) : List (List Char) → Channels
  | [] => c.receive s.finish.2
  | chunk :: more => heardFrom (s.feed chunk).1 (c.receive (s.feed chunk).2) more

/-- What is heard of a text that arrives in these chunks. -/
def heard (chunks : List (List Char)) : Channels := heardFrom {} {} chunks

end MarloweAgent.Provider
