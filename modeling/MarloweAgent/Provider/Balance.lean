import MarloweAgent.Library.Trace
import MarloweAgent.Provider.Parts

/-! What the ledger of a streamed call says after every piece of it: the counters agree with what
the caller was told, the buffer is empty or waits for the first retraction, and text that might
be taken back is paid for. -/

namespace MarloweAgent.Provider
open Contract Library Loop
open Mcp (Json)

/-! ## What the caller was told -/

namespace Told

/-- Reasoning that has a text: thought, or speech that became it. -/
def thought : Told → Bool
  | delta _ _ => false
  | reasoning text _ => text ≠ []
  | retract _ => true

def cost : Told → Nat
  | delta _ _ => 0
  | reasoning _ tokens => tokens
  | retract tokens => tokens

def keep (answer : Nat) : Told → Nat
  | delta _ charged => answer + charged
  | reasoning _ _ => answer
  | retract _ => 0

end Told

/-- The tokens of the thinking block: told with reasoning, or moved there by a retraction. -/
def reported (told : List Told) : Nat := (told.map Told.cost).sum

/-- The tokens of the answer: charged to speech that was not retracted. -/
def answered (told : List Told) : Nat := told.foldl Told.keep 0

/-- A retraction moves exactly what was charged to the speech it retracts. -/
def MovesExactly (told : List Told) : Prop :=
  ∀ before n after, told = before ++ .retract n :: after → n = answered before

@[simp] theorem reported_concat (told : List Told) (t : Told) :
    reported (told ++ [t]) = reported told + t.cost := by
  simp [reported]

@[simp] theorem answered_concat (told : List Told) (t : Told) :
    answered (told ++ [t]) = t.keep (answered told) := by
  simp [answered]

theorem MovesExactly.concat {told : List Told} {t : Told} (h : MovesExactly told)
    (hmove : ∀ n, t = .retract n → n = answered told) : MovesExactly (told ++ [t]) := by
  intro before n after heq
  rcases List.eq_nil_or_concat after with rfl | ⟨front, last, rfl⟩
  · obtain ⟨rfl, hlast⟩ := List.append_inj' heq rfl
    exact hmove n (List.cons.inj hlast).1
  · have hfront : told ++ [t] = (before ++ .retract n :: front) ++ [last] := by simpa using heq
    exact h before n front (List.append_inj' hfront rfl).1

/-- The counters say what the caller was told. -/
structure Balanced (s : Streaming) : Prop where
  reported : s.reasoningTokens = reported s.told
  answered : s.speechTokens = answered s.told
  moved : MovesExactly s.told

/-- Some speech comes while a think block may still be open. -/
def undecided (thinking : Bool) (ps : List Part) : Bool :=
  thinking && (Run.before Part.closes ps).any Part.speaks

/-- The frames swallowed without any text to claim their tokens. Speech that is held claims
them up to the first retraction. -/
def unclaimed (thinking : Bool) (ps : List Part) : Nat :=
  (if undecided thinking ps then Run.since Part.retracts ps else ps).countP Part.isSwallowed

/-- A retraction comes after some speech. -/
def takenBack (ps : List Part) : Bool := (Run.after Part.speaks ps).any Part.retracts

/-- The speech still held at the end is no answer. -/
def narrated (thinking : Bool) (frames : List Json) : Bool :=
  undecided thinking (parts frames) && !(parts frames).any Part.retracts &&
    !((frames.flatMap callsIn).isEmpty &&
      ((parts frames).any Part.closes || !(splitterAfter {} frames).sawTag))

/-- Some reasoning text is produced. -/
def producesReasoning (thinking : Bool) (frames : List Json) : Bool :=
  (parts frames).any Part.thinks || takenBack (parts frames) || narrated thinking frames

/-- Some reasoning text is produced with a token charged for it. -/
def chargesReasoning (thinking : Bool) (frames : List Json) : Bool :=
  (parts frames).any Part.paysThought || takenBack (parts frames) || narrated thinking frames

/-! ## Cutting one more piece off -/

section
variable (ps : List Part) (p : Part) (thinking : Bool)

theorem takenBack_concat :
    takenBack (ps ++ [p]) = (takenBack ps || ps.any Part.speaks && p.retracts) := by
  unfold takenBack
  rw [Run.after_concat, List.any_append]
  cases ps.any Part.speaks <;> simp

theorem undecided_concat :
    undecided thinking (ps ++ [p]) =
      (undecided thinking ps || thinking && !ps.any Part.closes && (!p.closes && p.speaks)) := by
  unfold undecided
  rw [Run.before_concat, List.any_append]
  cases ps.any Part.closes <;> cases p.closes <;> cases thinking <;> simp

theorem unclaimed_concat (h : undecided thinking (ps ++ [p]) = undecided thinking ps) :
    unclaimed thinking (ps ++ [p]) =
      unclaimed thinking ps +
        ((!undecided thinking ps || ps.any Part.retracts) && p.isSwallowed).toNat := by
  unfold unclaimed
  rw [h]
  cases undecided thinking ps with
  | false => cases hp : p.isSwallowed <;> simp [hp]
  | true =>
    rw [if_pos rfl, if_pos rfl, Run.since_concat]
    cases p <;> cases ps.any Part.retracts <;> simp [Part.isSwallowed, Part.retracts]

end

/-- Up to a retraction, speech that is held claims every token. -/
theorem unclaimed_of_held {thinking : Bool} {ps : List Part} (hundecided : undecided thinking ps = true)
    (hnone : ps.any Part.retracts = false) : unclaimed thinking ps = 0 := by
  unfold unclaimed
  rw [hundecided, if_pos rfl, Run.since_eq_nil hnone]
  rfl

/-! ## What holds after every piece -/

/-- The ledger after the pieces `ps`. -/
structure Kept (thinking : Bool) (ps : List Part) (s : Streaming) : Prop where
  balanced : Balanced s
  counted : s.reasoningTokens + s.speechTokens + s.heldTokens = ps.countP Part.pays
  closed : s.closed = (!thinking || ps.any Part.closes)
  thought : s.told.any Told.thought = (ps.any Part.thinks || takenBack ps)
  charged : 0 < s.reasoningTokens ↔ (ps.any Part.paysThought || takenBack ps) = true
  silent : ps.any Part.speaks = false → s.text = [] ∧ s.held = []
  spoken : ps.any Part.speaks = true → s.text ≠ [] ∨ s.held ≠ [] ∨ takenBack ps = true
  held : s.held ≠ [] ↔ undecided thinking ps = true ∧ ps.any Part.retracts = false
  unclaimed : s.held = [] → s.heldTokens = unclaimed thinking ps
  quiet : s.closed = false → s.speechTokens = 0

/-- Text that a retraction would move has been paid for on its own side. -/
structure Paid (ps : List Part) (s : Streaming) : Prop where
  text : s.text ≠ [] → 0 < s.speechTokens ∨ 0 < s.reasoningTokens
  held : s.held ≠ [] → 0 < s.heldTokens ∨ 0 < s.reasoningTokens
  last : ∀ seg charged, ps.getLast? = some (.segment seg charged) →
    0 < s.reasoningTokens ∨ if s.closed then 0 < s.speechTokens else 0 < s.heldTokens

theorem Streaming.retract_eq (s : Streaming) :
    s.retract =
      { s with
        text := []
        held := []
        closed := true
        reasoningTokens :=
          s.reasoningTokens + (if s.held = [] then 0 else s.heldTokens) +
            if s.text = [] then 0 else s.speechTokens
        speechTokens := if s.text = [] then s.speechTokens else 0
        heldTokens := if s.held = [] then s.heldTokens else 0
        told :=
          s.told ++ (if s.held = [] then [] else [.reasoning s.held s.heldTokens]) ++
            if s.text = [] then [] else [.retract s.speechTokens] } := by
  unfold retract routeHeld takeBack
  by_cases hheld : s.held = [] <;> by_cases htext : s.text = [] <;> simp [hheld, htext]

namespace Balanced

variable {s : Streaming}

/-- One more callback, with the counters moved by what it says. -/
theorem tell {t : Told} {s' : Streaming} (h : Balanced s) (htold : s'.told = s.told ++ [t])
    (hreasoning : s'.reasoningTokens = s.reasoningTokens + t.cost)
    (hspeech : s'.speechTokens = t.keep s.speechTokens) (hmove : ∀ n, t = .retract n → n = s.speechTokens) :
    Balanced s' where
  reported := by rw [htold, reported_concat, hreasoning, h.reported]
  answered := by rw [htold, answered_concat, hspeech, h.answered]
  moved := by
    rw [htold]
    exact h.moved.concat fun n hn => h.answered ▸ hmove n hn

/-- Nothing is told and neither counter moves. -/
theorem of_same {s' : Streaming} (h : Balanced s) (htold : s'.told = s.told)
    (hreasoning : s'.reasoningTokens = s.reasoningTokens) (hspeech : s'.speechTokens = s.speechTokens) :
    Balanced s' where
  reported := by rw [htold, hreasoning, h.reported]
  answered := by rw [htold, hspeech, h.answered]
  moved := htold ▸ h.moved

theorem routeHeld (h : Balanced s) : Balanced s.routeHeld := by
  unfold Streaming.routeHeld
  split
  · exact h
  · exact h.tell rfl rfl rfl nofun

theorem takeBack (h : Balanced s) : Balanced s.takeBack := by
  unfold Streaming.takeBack
  split
  · exact h
  · exact h.tell rfl rfl rfl fun n hn => (Told.retract.inj hn).symm

theorem hear (h : Balanced s) (p : Part) : Balanced (s.hear p) := by
  cases p with
  | field r charged => exact h.tell rfl rfl rfl nofun
  | retraction => exact h.routeHeld.takeBack.of_same rfl rfl rfl
  | segment seg charged =>
    cases seg with
    | reasoning r => exact h.tell rfl rfl rfl nofun
    | speech t =>
      cases hclosed : s.closed with
      | true =>
        refine h.tell (t := .delta t charged.toNat) ?_ ?_ ?_ nofun <;>
          simp [Streaming.hear, Streaming.hearSegment, hclosed, Told.cost, Told.keep]
      | false =>
        refine h.of_same ?_ ?_ ?_ <;> simp [Streaming.hear, Streaming.hearSegment, hclosed]
  | swallowed => exact h.of_same rfl rfl rfl

end Balanced

namespace Kept

variable {thinking : Bool} {ps : List Part} {s : Streaming}

/-- A piece without speech decides nothing that was undecided. -/
theorem undecided_silent {p : Part} (hp : p.speaks = false) :
    undecided thinking (ps ++ [p]) = undecided thinking ps := by
  simp [undecided_concat, hp]

theorem field {r : List Char} (charged : Bool) (hr : r ≠ []) (h : Kept thinking ps s) :
    Kept thinking (ps ++ [.field r charged]) (s.hear (.field r charged)) where
  balanced := h.balanced.hear _
  counted := by
    simp only [Streaming.hear, List.countP_append, List.countP_singleton, ← h.counted]
    cases charged <;> simp
    omega
  closed := by simp [Streaming.hear]
  thought := by simp [Streaming.hear, Told.thought, hr, takenBack_concat]
  charged := by
    have hcharged := h.charged
    cases charged <;>
      simp_all [Streaming.hear, takenBack_concat]
  silent := by simpa [Streaming.hear] using h.silent
  spoken := by simpa [Streaming.hear, takenBack_concat] using h.spoken
  held := by simpa [Streaming.hear, undecided_silent] using h.held
  unclaimed hnil := by
    rw [unclaimed_concat _ _ _ (undecided_silent rfl)]
    simpa [Streaming.hear] using h.unclaimed hnil
  quiet := by simp [Streaming.hear]

theorem retraction (h : Kept thinking ps s) (hpaid : Paid ps s) :
    Kept thinking (ps ++ [.retraction]) (s.hear .retraction) := by
  have hbalanced := h.balanced.hear .retraction
  simp only [Streaming.hear, Streaming.retract_eq] at hbalanced ⊢
  refine ⟨hbalanced, ?_, ?_, ?_, ?_, ?_, ?_, ?_, fun _ => ?_, ?_⟩
  · simp only [List.countP_append, List.countP_singleton, ← h.counted]
    by_cases hheld : s.held = [] <;> by_cases htext : s.text = [] <;> simp [hheld, htext] <;> omega
  · simp
  · rw [takenBack_concat, List.any_append]
    cases hspoke : ps.any Part.speaks with
    | false =>
      obtain ⟨htext, hheld⟩ := h.silent hspoke
      simp [htext, hheld, h.thought]
    | true =>
      have hthought := h.thought
      have hmoved := h.spoken hspoke
      by_cases hheld : s.held = [] <;> by_cases htext : s.text = [] <;>
        simp_all [Told.thought]
  · rw [takenBack_concat, List.any_append]
    have hcharged := h.charged
    cases hspoke : ps.any Part.speaks with
    | false =>
      obtain ⟨htext, hheld⟩ := h.silent hspoke
      simpa [htext, hheld] using hcharged
    | true =>
      suffices hpos : 0 < s.reasoningTokens + (if s.held = [] then 0 else s.heldTokens) +
          if s.text = [] then 0 else s.speechTokens by simpa using hpos
      rcases h.spoken hspoke with htext | hheld | hback
      · have hpos := hpaid.text htext
        rw [if_neg htext]
        omega
      · have hpos := hpaid.held hheld
        rw [if_neg hheld]
        omega
      · have hpos := hcharged.mpr (by simp [hback])
        omega
  · simp
  · intro hspoke
    have hspoke : ps.any Part.speaks = true := by simpa using hspoke
    simp [takenBack_concat, hspoke]
  · simp
  · rw [unclaimed_concat _ _ _ (undecided_silent rfl)]
    by_cases hheld : s.held = []
    · simp [hheld, h.unclaimed hheld]
    · obtain ⟨hundecided, hnone⟩ := h.held.mp hheld
      simp [hheld, unclaimed_of_held hundecided hnone]
  · simp

theorem reasoning {r : List Char} (charged : Bool) (hr : r ≠ []) (h : Kept thinking ps s) :
    Kept thinking (ps ++ [.segment (.reasoning r) charged]) (s.hear (.segment (.reasoning r) charged)) where
  balanced := h.balanced.hear _
  counted := by
    simp only [Streaming.hear, Streaming.hearSegment, List.countP_append, List.countP_singleton, ← h.counted]
    cases charged <;> simp
    omega
  closed := by simpa [Streaming.hear, Streaming.hearSegment] using h.closed
  thought := by simp [Streaming.hear, Streaming.hearSegment, Told.thought, hr, Segment.isReasoning]
  charged := by
    have hcharged := h.charged
    cases charged <;>
      simp_all [Streaming.hear, Streaming.hearSegment, takenBack_concat, Segment.isReasoning]
  silent := by simpa [Streaming.hear, Streaming.hearSegment, Segment.isReasoning] using h.silent
  spoken := by
    simpa [Streaming.hear, Streaming.hearSegment, Segment.isReasoning, takenBack_concat] using h.spoken
  held := by
    simpa [Streaming.hear, Streaming.hearSegment, undecided_silent, Segment.isReasoning] using h.held
  unclaimed hnil := by
    rw [unclaimed_concat _ _ _ (undecided_silent rfl)]
    simpa [Streaming.hear, Streaming.hearSegment] using h.unclaimed hnil
  quiet := by simpa [Streaming.hear, Streaming.hearSegment] using h.quiet

/-- Speech after the block is known shut. -/
theorem shown {t : List Char} (charged : Bool) (ht : t ≠ []) (hopen : s.closed = true) (h : Kept thinking ps s) :
    Kept thinking (ps ++ [.segment (.speech t) charged]) (s.hear (.segment (.speech t) charged)) := by
  have hnext : undecided thinking (ps ++ [.segment (.speech t) charged]) = undecided thinking ps := by
    have hclosed := h.closed
    rw [hopen] at hclosed
    have hshut : (thinking && !ps.any Part.closes) = false := by
      simpa using congrArg not hclosed.symm
    rw [undecided_concat, hshut, Bool.false_and, Bool.or_false]
  have hbalanced := h.balanced.hear (.segment (.speech t) charged)
  simp only [Streaming.hear, Streaming.hearSegment, hopen, if_true] at hbalanced ⊢
  refine ⟨hbalanced, ?_, ?_, ?_, ?_, ?_, ?_, ?_, fun hnil => ?_, ?_⟩
  · simp only [List.countP_append, List.countP_singleton, ← h.counted]
    cases charged <;> simp
    omega
  · simpa [hopen] using h.closed
  · simpa [Told.thought, Segment.isReasoning, takenBack_concat] using h.thought
  · simpa [Segment.isReasoning, takenBack_concat] using h.charged
  · simp [Segment.isReasoning]
  · simp [ht]
  · simpa [hnext] using h.held
  · rw [unclaimed_concat _ _ _ hnext]
    simpa using h.unclaimed hnil
  · simp

/-- Speech while the block may still be open. -/
theorem waits {t : List Char} (charged : Bool) (ht : t ≠ []) (hopen : s.closed = false) (h : Kept thinking ps s) :
    Kept thinking (ps ++ [.segment (.speech t) charged]) (s.hear (.segment (.speech t) charged)) := by
  have hclosed := h.closed
  rw [hopen] at hclosed
  obtain ⟨hthinking, hnone⟩ : thinking = true ∧ ps.any Part.closes = false := by simpa using hclosed.symm
  have hretracts : ps.any Part.retracts = false := by
    refine List.any_eq_false.mpr fun p hp hretract => List.any_eq_false.mp hnone p hp ?_
    cases p <;> simp at hretract ⊢
  have hnext : undecided thinking (ps ++ [.segment (.speech t) charged]) = true := by
    simp [undecided_concat, hthinking, hnone, Segment.isReasoning]
  have hbalanced := h.balanced.hear (.segment (.speech t) charged)
  simp only [Streaming.hear, Streaming.hearSegment, hopen, Bool.false_eq_true, if_false] at hbalanced ⊢
  refine ⟨hbalanced, ?_, ?_, ?_, ?_, ?_, ?_, ?_, fun hnil => ?_, ?_⟩
  · simp only [List.countP_append, List.countP_singleton, ← h.counted]
    cases charged <;> simp
    omega
  · simp [hnone, hthinking]
  · simpa [Segment.isReasoning, takenBack_concat] using h.thought
  · simpa [Segment.isReasoning, takenBack_concat] using h.charged
  · simp [Segment.isReasoning]
  · simp [ht]
  · simpa [hnext, ht] using hretracts
  · simp [ht] at hnil
  · exact fun _ => h.quiet hopen

theorem swallowed (h : Kept thinking ps s) : Kept thinking (ps ++ [.swallowed]) (s.hear .swallowed) where
  balanced := h.balanced.hear _
  counted := by simp [Streaming.hear, ← h.counted, Nat.add_assoc]
  closed := by simpa [Streaming.hear] using h.closed
  thought := by simpa [Streaming.hear, takenBack_concat] using h.thought
  charged := by
    simpa [Streaming.hear, takenBack_concat] using h.charged
  silent := by simpa [Streaming.hear] using h.silent
  spoken := by simpa [Streaming.hear, takenBack_concat] using h.spoken
  held := by simpa [Streaming.hear, undecided_silent] using h.held
  unclaimed hnil := by
    have hunheld : (!undecided thinking ps || ps.any Part.retracts) = true := by
      cases hundecided : undecided thinking ps with
      | false => rfl
      | true =>
        cases hany : ps.any Part.retracts with
        | true => rfl
        | false => exact absurd hnil (h.held.mpr ⟨hundecided, hany⟩)
    rw [unclaimed_concat _ _ _ (undecided_silent rfl), hunheld]
    simpa [Streaming.hear] using h.unclaimed hnil
  quiet := by simpa [Streaming.hear] using h.quiet

theorem hear {p : Part} (h : Kept thinking ps s) (hpaid : Paid ps s) (htext : p.text ≠ some []) :
    Kept thinking (ps ++ [p]) (s.hear p) := by
  cases p with
  | field r charged => exact h.field charged fun hr => htext (congrArg some hr)
  | retraction => exact h.retraction hpaid
  | segment seg charged =>
    cases seg with
    | reasoning r => exact h.reasoning charged fun hr => htext (congrArg some hr)
    | speech t =>
      have ht : t ≠ [] := fun ht => htext (congrArg some ht)
      cases hclosed : s.closed with
      | true => exact h.shown charged ht hclosed
      | false => exact h.waits charged ht hclosed
  | swallowed => exact h.swallowed

end Kept

theorem Paid.hear {thinking : Bool} {ps : List Part} {s : Streaming} {p : Part} (hpaid : Paid ps s)
    (h : Kept thinking ps s) (hfits : Fits ps p) : Paid (ps ++ [p]) (s.hear p) := by
  cases p with
  | field r charged =>
    refine ⟨fun htext => (hpaid.text htext).imp_right fun hpos => ?_,
      fun hheld => (hpaid.held hheld).imp_right fun hpos => ?_, by simp⟩ <;>
      · simp only [Streaming.hear]
        omega
  | retraction =>
    refine ⟨fun htext => absurd ?_ htext, fun hheld => absurd ?_ hheld, by simp⟩ <;>
      simp [Streaming.hear, Streaming.retract_eq]
  | segment seg charged =>
    have hpaidFor : charged = true ∨ 0 < s.reasoningTokens ∨
        if s.closed then 0 < s.speechTokens else 0 < s.heldTokens := by
      cases charged with
      | true => exact .inl rfl
      | false =>
        rcases hfits.paid seg rfl with hany | ⟨seg', charged', hlast⟩
        · exact .inr (.inl (h.charged.mpr (by simp [hany])))
        · exact .inr (hpaid.last seg' charged' hlast)
    cases seg with
    | reasoning r =>
      refine ⟨fun htext => (hpaid.text htext).imp_right fun hpos => ?_,
        fun hheld => (hpaid.held hheld).imp_right fun hpos => ?_, fun _ _ _ => ?_⟩
      · simp only [Streaming.hear, Streaming.hearSegment]
        omega
      · simp only [Streaming.hear, Streaming.hearSegment]
        omega
      · simp only [Streaming.hear, Streaming.hearSegment]
        rcases hpaidFor with rfl | hpos | hpos
        · exact .inl (Nat.succ_pos _)
        · exact .inl (by omega)
        · exact .inr hpos
    | speech t =>
      cases hclosed : s.closed with
      | true =>
        simp only [hclosed, if_true] at hpaidFor
        have hnow : 0 < s.speechTokens + charged.toNat ∨ 0 < s.reasoningTokens := by
          rcases hpaidFor with rfl | hpos | hpos
          · exact .inl (Nat.succ_pos _)
          · exact .inr hpos
          · exact .inl (by omega)
        simp only [Streaming.hear, Streaming.hearSegment, hclosed, if_true]
        exact ⟨fun _ => hnow, hpaid.held, fun _ _ _ => hnow.symm⟩
      | false =>
        simp only [hclosed, Bool.false_eq_true, if_false] at hpaidFor
        have hnow : 0 < s.heldTokens + charged.toNat ∨ 0 < s.reasoningTokens := by
          rcases hpaidFor with rfl | hpos | hpos
          · exact .inl (Nat.succ_pos _)
          · exact .inr hpos
          · exact .inl (by omega)
        simp only [Streaming.hear, Streaming.hearSegment, hclosed, Bool.false_eq_true, if_false]
        exact ⟨hpaid.text, fun _ => hnow, fun _ _ _ => hnow.symm⟩
  | swallowed =>
    refine ⟨hpaid.text, fun hheld => (hpaid.held hheld).imp_left fun hpos => ?_, by simp⟩
    simp only [Streaming.hear]
    omega

/-- The run: every piece that fits keeps the ledger. -/
theorem Kept.foldl_hear {thinking : Bool} {ps qs : List Part} {s : Streaming} (h : Kept thinking ps s)
    (hpaid : Paid ps s) (hfit : Fit ps qs) :
    Kept thinking (ps ++ qs) (qs.foldl Streaming.hear s) ∧ Paid (ps ++ qs) (qs.foldl Streaming.hear s) := by
  induction qs generalizing ps s with
  | nil => simpa using And.intro h hpaid
  | cons q qs ih =>
    obtain ⟨hfits, hrest⟩ := hfit
    have hnext := ih (h.hear hpaid hfits.text) (hpaid.hear h hfits) hrest
    simpa using hnext

end MarloweAgent.Provider
