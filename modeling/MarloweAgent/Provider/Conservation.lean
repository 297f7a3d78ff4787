import MarloweAgent.Provider.Balance

/-! What becomes of the tokens of a streamed call. The reasoning that was reported and the
answer that was left make up what was charged and what the engine counted, as long as every
frame the splitter swallows is claimed by text that comes out of the buffer later. -/

namespace MarloweAgent.Provider
open Contract Library Loop
open Mcp (Json)

/-- The engine's own count: from the last frame that says it is done. -/
def completionCount (frames : List Json) : Nat :=
  frames.foldl
    (fun n frame =>
      if (frame.get? "done").bind Json.asBool = some true then Streaming.counter frame "eval_count" else n) 0

/-! ## The end of a call -/

/-- The tail is one piece at most, and nothing is charged for it. -/
theorem Kept.hear_tail {thinking : Bool} {ps : List Part} {s : Streaming} {splitter : ThinkSplitter}
    (h : Kept thinking ps s) (hpaid : Paid ps s) :
    Kept thinking (ps ++ tailParts splitter) ((tailParts splitter).foldl Streaming.hear s) := by
  rcases tailParts_cases splitter with ⟨-, htail⟩ | ⟨hpending, seg, htext, htail⟩
  · rw [htail]
    simpa using h
  · rw [htail]
    refine h.hear hpaid fun hnil => hpending ?_
    rw [← htext]
    exact Option.some.inj hnil

/-- Text that waits at the end has been paid for. -/
theorem held_paid {thinking : Bool} {ps : List Part} {s : Streaming} {splitter : ThinkSplitter}
    (h : Kept thinking ps s) (hpaid : Paid ps s)
    (hpending : splitter.pending ≠ [] → 0 < ps.countP Part.pays)
    (hheld : ((tailParts splitter).foldl Streaming.hear s).held ≠ []) :
    0 < ((tailParts splitter).foldl Streaming.hear s).heldTokens ∨
      0 < ((tailParts splitter).foldl Streaming.hear s).reasoningTokens := by
  rcases tailParts_cases splitter with ⟨-, htail⟩ | ⟨hne, seg, -, htail⟩
  · rw [htail] at hheld ⊢
    exact hpaid.held hheld
  · rw [htail] at hheld ⊢
    have hcounted := h.counted
    have hpos := hpending hne
    cases seg with
    | reasoning r => exact hpaid.held hheld
    | speech t =>
      cases hclosed : s.closed with
      | true =>
        simp only [List.foldl_cons, List.foldl_nil, Streaming.hear, Streaming.hearSegment, hclosed,
          if_true] at hheld ⊢
        exact hpaid.held hheld
      | false =>
        have hquiet := h.quiet hclosed
        simp only [List.foldl_cons, List.foldl_nil, Streaming.hear, Streaming.hearSegment, hclosed,
          Bool.false_eq_true, if_false, Bool.toNat_false, Nat.add_zero]
        omega

/-- The ledger once the buffer is resolved. -/
structure Released (thinking : Bool) (frames : List Json) (s : Streaming) : Prop where
  balanced : Balanced s
  counted : s.reasoningTokens + s.speechTokens + s.heldTokens = frames.countP bringsText
  thought : s.told.any Told.thought = producesReasoning thinking frames
  charged : 0 < s.reasoningTokens ↔ chargesReasoning thinking frames = true
  unclaimed : s.heldTokens = unclaimed thinking (parts frames)
  counter : s.usage.completionTokens = completionCount frames

theorem finish_sawTag (splitter : ThinkSplitter) : splitter.finish.1.sawTag = splitter.sawTag := by
  unfold ThinkSplitter.finish ThinkSplitter.push
  split
  · rfl
  · cases splitter.inside <;> rfl

theorem Kept.released {thinking : Bool} {frames : List Json} {s : Streaming}
    (h : Kept thinking (parts frames) s)
    (hpaid : s.held ≠ [] → 0 < s.heldTokens ∨ 0 < s.reasoningTokens)
    (hcalls : s.toolCalls = frames.flatMap callsIn)
    (htag : s.splitter.sawTag = (splitterAfter {} frames).sawTag)
    (hcounter : s.usage.completionTokens = completionCount frames) : Released thinking frames s.release := by
  have hcounted := h.counted
  rw [countP_parts] at hcounted
  have hthought := h.thought
  have hcharged := h.charged
  unfold Streaming.release
  by_cases hheld : s.held = []
  · -- Nothing is held, so nothing is narrated.
    have hnarrated : narrated thinking frames = false := by
      unfold narrated
      cases hundecided : undecided thinking (parts frames) && !(parts frames).any Part.retracts with
      | false => rfl
      | true => exact absurd hheld (h.held.mpr (by simpa using hundecided))
    rw [if_pos hheld]
    exact
      { balanced := h.balanced
        counted := hcounted
        thought := by simpa [producesReasoning, hnarrated] using hthought
        charged := by simpa [chargesReasoning, hnarrated] using hcharged
        unclaimed := h.unclaimed hheld
        counter := hcounter }
  · obtain ⟨hundecided, hretracts⟩ := h.held.mp hheld
    have hzero := unclaimed_of_held hundecided hretracts
    have hthinking : thinking = true := by
      cases thinking with
      | true => rfl
      | false => cases hundecided
    have hclosed : s.closed = (parts frames).any Part.closes := by
      rw [h.closed, hthinking]
      rfl
    have hnarrated : narrated thinking frames =
        !decide (s.toolCalls.isEmpty = true ∧ (s.closed = true ∨ (!s.splitter.sawTag) = true)) := by
      unfold narrated
      rw [hundecided, hretracts, ← hcalls, ← hclosed, ← htag]
      simp only [Bool.decide_and, Bool.decide_or, Bool.decide_eq_true]
      rfl
    rw [if_neg hheld]
    split
    next hanswer =>
      -- The held speech is the answer.
      have hnone : narrated thinking frames = false := by rw [hnarrated, decide_eq_true hanswer, Bool.not_true]
      refine ⟨h.balanced.tell (t := .delta s.held s.heldTokens) rfl rfl rfl nofun, ?_, ?_, ?_, hzero.symm,
        hcounter⟩
      · show s.reasoningTokens + (s.speechTokens + s.heldTokens) + 0 = _
        omega
      · simpa [Told.thought, producesReasoning, hnone] using hthought
      · simpa [chargesReasoning, hnone] using hcharged
    next hanswer =>
      -- The held speech is narration.
      have hsome : narrated thinking frames = true := by rw [hnarrated, decide_eq_false hanswer, Bool.not_false]
      have hpos := hpaid hheld
      refine ⟨h.balanced.routeHeld, ?_, ?_, ?_, ?_, ?_⟩ <;> simp only [Streaming.routeHeld, if_neg hheld]
      · omega
      · simp [Told.thought, hheld, producesReasoning, hsome]
      · simp only [chargesReasoning, hsome, Bool.or_true, iff_true]
        omega
      · exact hzero.symm
      · exact hcounter

theorem released (thinking : Bool) (frames : List Json) :
    Released thinking frames
      ((frames.foldl Streaming.hearFrame { closed := !thinking }).hearEnd.release) := by
  obtain ⟨usage, hcounter, hrun⟩ := Streaming.foldl_hearFrame frames { closed := !thinking }
  have hinit : Kept thinking [] { closed := !thinking } := by
    refine ⟨⟨rfl, rfl, ?_⟩, rfl, by simp, rfl, by simp [takenBack, Run.after, Run.since], by simp, by simp,
      by simp [undecided, Run.before], fun _ => ?_, by simp⟩
    · intro before n after h
      simp at h
    · simp [unclaimed, undecided, Run.before]
  have hinitPaid : Paid [] ({ closed := !thinking } : Streaming) := ⟨by simp, by simp, by simp⟩
  obtain ⟨hkept, hpaid⟩ := hinit.foldl_hear hinitPaid (fit_partsFrom [] {} frames)
  have hend := @Kept.hear_tail thinking _ _ (splitterAfter {} frames) hkept hpaid
  have hheldPaid := @held_paid thinking _ _ (splitterAfter {} frames) hkept hpaid fun hpending => by
    simpa [countP_partsFrom] using pending_paid rfl hpending
  rw [hrun, Streaming.hearEnd_eq, Streaming.foldl_hear_withWire]
  obtain ⟨hbalanced, hcounted, hclosed, hthought, hcharged, hsilent, hspoken, hheld, hunclaimed, hquiet⟩ := hend
  refine Kept.released ⟨⟨hbalanced.reported, hbalanced.answered, hbalanced.moved⟩, hcounted, hclosed, hthought,
    hcharged, hsilent, hspoken, hheld, hunclaimed, hquiet⟩ hheldPaid rfl (finish_sawTag _) hcounter

/-! ## The tokens of a call -/

/-- What the thinking block and the answer of a call are charged is what the engine counted, or
what was charged frame by frame where that is more; a retraction moves what its speech was
charged; without any reasoning text no reasoning tokens are reported. -/
structure Conserved (thinking : Bool) (frames : List Json) : Prop where
  moved : MovesExactly (callStreaming thinking frames).told
  whole : (callStreaming thinking frames).told.any Told.thought = true →
    reported (callStreaming thinking frames).told + answered (callStreaming thinking frames).told =
      max (completionCount frames) (frames.countP bringsText)
  quiet : (callStreaming thinking frames).told.any Told.thought = false →
    reported (callStreaming thinking frames).told = 0

/-- Nothing swallowed is left unclaimed, unless there is no reasoning and nothing to correct;
and where there is something to correct, reasoning is charged and not only produced. -/
structure Claimed (thinking : Bool) (frames : List Json) : Prop where
  claimed : producesReasoning thinking frames = true ∨ frames.countP bringsText < completionCount frames →
    unclaimed thinking (parts frames) = 0
  charged : producesReasoning thinking frames = true →
    frames.countP bringsText < completionCount frames → chargesReasoning thinking frames = true

theorem producesReasoning_of_charges {thinking : Bool} {frames : List Json}
    (h : chargesReasoning thinking frames = true) : producesReasoning thinking frames = true := by
  unfold chargesReasoning at h
  unfold producesReasoning
  rw [Bool.or_eq_true, Bool.or_eq_true] at h ⊢
  refine h.imp_left (Or.imp_left fun hany => ?_)
  obtain ⟨p, hp, hpays⟩ := List.any_eq_true.mp hany
  exact List.any_eq_true.mpr ⟨p, hp, (Bool.and_eq_true_iff.mp hpays).1⟩

/-- What the correction adds to what was told before it. -/
def owed (s : Streaming) : Nat :=
  if 0 < s.reasoningTokens + s.heldTokens then
    s.usage.completionTokens - (s.reasoningTokens + s.heldTokens + s.speechTokens)
  else 0

theorem told_finish (s : Streaming) :
    s.settle.correct.told = s.told ++ if 0 < owed s then [.reasoning [] (owed s)] else [] := by
  unfold Streaming.correct Streaming.settle owed
  by_cases hpos : 0 < s.reasoningTokens + s.heldTokens
  · simp only [hpos, true_and, if_true]
    split <;> simp
  · simp [hpos]

theorem conserved_iff (thinking : Bool) (frames : List Json) :
    Conserved thinking frames ↔ Claimed thinking frames := by
  obtain ⟨hbalanced, hcounted, hthought, hcharged, hunclaimed, hcounter⟩ := released thinking frames
  generalize hlast : (frames.foldl Streaming.hearFrame { closed := !thinking }).hearEnd.release = s
    at hbalanced hcounted hthought hcharged hunclaimed hcounter
  have htold : (callStreaming thinking frames).told =
      s.told ++ if 0 < owed s then [.reasoning [] (owed s)] else [] := by
    rw [← told_finish, ← hlast]
    rfl
  have hmoved : MovesExactly (callStreaming thinking frames).told := by
    rw [htold]
    split
    · exact hbalanced.moved.concat nofun
    · rw [List.append_nil]
      exact hbalanced.moved
  have hproduces : (callStreaming thinking frames).told.any Told.thought = producesReasoning thinking frames := by
    rw [htold, ← hthought]
    split <;> simp [Told.thought]
  have hreported : reported (callStreaming thinking frames).told = s.reasoningTokens + owed s := by
    rw [htold, hbalanced.reported]
    split
    · simp [Told.cost]
    · rw [List.append_nil]
      omega
  have hanswered : answered (callStreaming thinking frames).told = s.speechTokens := by
    rw [htold, hbalanced.answered]
    split <;> simp [Told.keep]
  have howed : owed s = if 0 < s.reasoningTokens + unclaimed thinking (parts frames) then
      completionCount frames - frames.countP bringsText else 0 := by
    unfold owed
    rw [hcounter, ← hunclaimed, ← hcounted, Nat.add_right_comm]
  rw [← hunclaimed] at howed
  constructor
  · rintro ⟨-, hwhole, hquiet⟩
    rw [hproduces, hreported, hanswered] at hwhole
    rw [hproduces, hreported] at hquiet
    have hclaimed : producesReasoning thinking frames = true ∨ frames.countP bringsText < completionCount frames →
        s.heldTokens = 0 := by
      cases hp : producesReasoning thinking frames with
      | true =>
        have htotal := hwhole hp
        split_ifs at howed <;> omega
      | false =>
        have hnone := hquiet hp
        rintro (hp | hlt)
        · cases hp
        · split_ifs at howed <;> omega
    refine ⟨hunclaimed ▸ hclaimed, fun hp hlt => hcharged.mp ?_⟩
    have htotal := hwhole hp
    have hzero := hclaimed (.inl hp)
    split_ifs at howed <;> omega
  · rintro ⟨hclaimed, hpays⟩
    rw [← hunclaimed] at hclaimed
    refine ⟨hmoved, fun hp => ?_, fun hp => ?_⟩
    · rw [hproduces] at hp
      rw [hreported, hanswered]
      have hzero := hclaimed (.inl hp)
      by_cases hlt : frames.countP bringsText < completionCount frames
      · have hpos := hcharged.mpr (hpays hp hlt)
        split_ifs at howed <;> omega
      · split_ifs at howed <;> omega
    · rw [hproduces] at hp
      rw [hreported]
      have hnone : s.reasoningTokens = 0 := by
        by_contra hne
        have hcharges := hcharged.mp (Nat.pos_of_ne_zero hne)
        rw [producesReasoning_of_charges hcharges] at hp
        cases hp
      by_cases hlt : frames.countP bringsText < completionCount frames
      · have hzero := hclaimed (.inr hlt)
        split_ifs at howed <;> omega
      · split_ifs at howed <;> omega

def textFrame (thinking content : String) : Json :=
  .object [("message", .object [("thinking", .string thinking), ("content", .string content)])]

def doneFrame (count : Int) : Json := .object [("done", .bool true), ("eval_count", .integer count)]

/-- A less-than sign on its own is held back for a tag; its token reaches no channel. -/
theorem token_lost :
    ¬Conserved true [textFrame "so" "", textFrame "" "<", textFrame "" " b", doneFrame 3] := by
  intro h
  have htotal := h.whole (by decide +kernel)
  revert htotal
  decide +kernel

end MarloweAgent.Provider
