import MarloweAgent.Daemon.Batching
import MarloweAgent.Daemon.Rendering

/-! One more event on both surfaces: the pane's fold of it, and the window's drawing of the
ring that took it in. Text and thinking grow both alike. A tool line and a retraction do so
where both look at the same entry. -/

namespace MarloweAgent.Daemon
open Library Loop Tools View

/-! ## One more frame in the drawing -/

theorem takeIn_text (delta : String) (frames : List RunFrame) :
    (∃ init tail, frames = init ++ [.text tail] ∧
        takeIn (.text delta) frames = init ++ [.text (tail ++ delta)]) ∨
      takeIn (.text delta) frames = frames ++ [.text delta] := by
  rcases List.eq_nil_or_concat frames with rfl | ⟨init, last, rfl⟩
  · exact .inr rfl
  · rw [List.concat_eq_append]
    cases last with
    | text tail =>
      refine .inl ⟨init, tail, rfl, onLast_concat_some ?_ _ init⟩
      rfl
    | _ => exact .inr (onLast_none (by simp) _)

theorem takeIn_reasoning (delta : String) (tokens : Nat) (frames : List RunFrame) :
    (∃ init tail total, frames = init ++ [.reasoning tail total] ∧
        takeIn (.reasoning delta tokens) frames =
          init ++ [.reasoning (tail ++ delta) (satAdd u64Max total tokens)]) ∨
      takeIn (.reasoning delta tokens) frames = frames ++ [.reasoning delta tokens] := by
  rcases List.eq_nil_or_concat frames with rfl | ⟨init, last, rfl⟩
  · exact .inr rfl
  · rw [List.concat_eq_append]
    cases last with
    | reasoning tail total =>
      refine .inl ⟨init, tail, total, rfl, onLast_concat_some ?_ _ init⟩
      rfl
    | _ => exact .inr (onLast_none (by simp) _)

section Drawn

variable {β : Type} (r : Reading β)

theorem of_renderFrame_reasoning (out : List View.Entry) (delta : String) (tokens : Nat) :
    r.of (renderFrame out (.reasoning delta tokens)) = r.of out ++ r.thought delta := by
  rw [renderFrame]
  split
  next hempty => rw [hempty, r.thought_empty, r.of_settle, List.append_nil]
  next => simp [r.reasoning]

theorem of_render_text (delta : String) (frames : List RunFrame) :
    r.of (render (takeIn (.text delta) frames)) = r.of (render frames) ++ r.speech delta := by
  obtain ⟨init, tail, rfl, htaken⟩ | htaken := takeIn_text delta frames
  · rw [htaken, render_concat, render_concat]
    simp [renderFrame, r.said, r.speech_append]
  · rw [htaken, render_concat]
    simp [renderFrame, r.said]

theorem of_render_reasoning (delta : String) (tokens : Nat) (frames : List RunFrame) :
    r.of (render (takeIn (.reasoning delta tokens) frames)) =
      r.of (render frames) ++ r.thought delta := by
  obtain ⟨init, tail, total, rfl, htaken⟩ | htaken := takeIn_reasoning delta tokens frames
  · rw [htaken, render_concat, render_concat, of_renderFrame_reasoning, of_renderFrame_reasoning,
      r.thought_append, List.append_assoc]
  · rw [htaken, render_concat, of_renderFrame_reasoning]

end Drawn

theorem lineOf_takeIn_text (delta : String) (frames : List RunFrame) :
    (takeIn (.text delta) frames).filterMap lineOf = frames.filterMap lineOf := by
  obtain ⟨init, tail, rfl, htaken⟩ | htaken := takeIn_text delta frames
  · rw [htaken, List.filterMap_append, List.filterMap_append]
    rfl
  · rw [htaken]
    simp [lineOf]

theorem lineOf_takeIn_reasoning (delta : String) (tokens : Nat) (frames : List RunFrame) :
    (takeIn (.reasoning delta tokens) frames).filterMap lineOf = frames.filterMap lineOf := by
  obtain ⟨init, tail, total, rfl, htaken⟩ | htaken := takeIn_reasoning delta tokens frames
  · rw [htaken, List.filterMap_append, List.filterMap_append]
    rfl
  · rw [htaken]
    simp [lineOf]

/-! ## A tool line replaced where it stands -/

def swapCall (call : ToolCall) (c : ToolCall) : ToolCall := if c.id = call.id then call else c

/-- The entry with the call in place of the one with its id. -/
def swapEntry (call : ToolCall) : View.Entry → View.Entry
  | .tools calls => .tools (calls.map (swapCall call))
  | entry => entry

variable {call : ToolCall}

theorem swapCall_id (c : ToolCall) : (swapCall call c).id = c.id := by
  unfold swapCall
  split
  next heq => exact heq.symm
  next => rfl

theorem settle_swap (tokens : Nat) (out : List View.Entry) :
    settle tokens (out.map (swapEntry call)) = (settle tokens out).map (swapEntry call) := by
  have hthinking : ∀ e, thinking (swapEntry call e) = (thinking e).map id := fun e => by
    cases e <;> rfl
  unfold settle
  rw [splitLast_map hthinking]
  cases hsplit : splitLast thinking out with
  | none => rfl
  | some split =>
    obtain ⟨before, ⟨text, total, done⟩, after⟩ := split
    simp [swapEntry]

/-- Another frame is drawn the same. -/
theorem renderFrame_swap {frame : RunFrame} (h : isToolFrame call.id frame = false)
    (out : List View.Entry) :
    renderFrame (out.map (swapEntry call)) frame = (renderFrame out frame).map (swapEntry call) := by
  cases frame with
  | text delta => simp [renderFrame, swapEntry]
  | reasoning delta tokens =>
    simp only [renderFrame]
    split
    · exact settle_swap tokens out
    · simp [swapEntry]
  | speechRetracted tokens =>
    rcases List.eq_nil_or_concat out with rfl | ⟨init, last, rfl⟩
    · rfl
    · simp only [List.concat_eq_append, renderFrame, List.map_append, List.map_cons, List.map_nil,
        List.getLast?_concat, List.dropLast_concat]
      cases last with
      | said speech =>
        cases speech with
        | model text => simp [swapEntry]
        | harness notice => rfl
      | _ => rfl
  | tool id verb target state summary =>
    have hne : id ≠ call.id := by simpa [isToolFrame] using h
    simp [renderFrame, swapEntry, swapCall, windowToolCall, hne]
  | compacted turns => simp [renderFrame, swapEntry]

theorem foldl_renderFrame_swap (call : ToolCall) {frames : List RunFrame}
    (h : ∀ frame ∈ frames, isToolFrame call.id frame = false) (out : List View.Entry) :
    frames.foldl renderFrame (out.map (swapEntry call)) =
      (frames.foldl renderFrame out).map (swapEntry call) := by
  induction frames generalizing out with
  | nil => rfl
  | cons frame rest ih =>
    obtain ⟨hframe, hrest⟩ := List.forall_mem_cons.mp h
    rw [List.foldl_cons, List.foldl_cons, renderFrame_swap hframe, ih hrest]

/-- The frames around a call's line, when each call has one line. -/
theorem split_tool {frames : List RunFrame} {id : Nat} (hany : frames.any (isToolFrame id))
    (hdistinct : distinct (frames.filterMap lineOf)) :
    ∃ old call, frames = frames.takeWhile (!isToolFrame id ·) ++
        old :: (frames.dropWhile (!isToolFrame id ·)).tail ∧
      lineOf old = some call ∧ call.id = id ∧
      (∀ frame ∈ frames.takeWhile (!isToolFrame id ·), isToolFrame id frame = false) ∧
      ∀ frame ∈ (frames.dropWhile (!isToolFrame id ·)).tail, isToolFrame id frame = false := by
  obtain ⟨frame, hmem, hframe⟩ := List.any_eq_true.mp hany
  have hne : frames.dropWhile (!isToolFrame id ·) ≠ [] := by
    intro hnil
    have hall := List.dropWhile_eq_nil_iff.mp hnil frame hmem
    simp [hframe] at hall
  obtain ⟨old, tail, hdrop⟩ := List.exists_cons_of_ne_nil hne
  have hsplit : frames = frames.takeWhile (!isToolFrame id ·) ++ old :: tail := by
    rw [← hdrop, List.takeWhile_append_dropWhile]
  have hold : isToolFrame id old = true := by
    have hhead := List.head_dropWhile_not (!isToolFrame id ·) hne
    simpa [hdrop] using hhead
  obtain ⟨call, hcall, hid⟩ := isToolFrame_lineOf hold
  refine ⟨old, call, by rw [hdrop]; exact hsplit, hcall, hid, fun frame hframe => ?_, ?_⟩
  · simpa using List.mem_takeWhile_imp hframe
  · intro frame hframe
    rw [hdrop] at hframe
    by_contra htool
    obtain ⟨other, hother, hsame⟩ : ∃ other, lineOf frame = some other ∧ other.id = id :=
      isToolFrame_lineOf (by simpa using htool)
    rw [hsplit, List.filterMap_append, List.filterMap_cons_some hcall] at hdistinct
    unfold distinct at hdistinct
    rw [List.map_append, List.map_cons, List.nodup_append] at hdistinct
    have hnotin := (List.nodup_cons.mp hdistinct.2.1).1
    refine hnotin ?_
    rw [hid, ← hsame]
    exact List.mem_map_of_mem (List.mem_filterMap.mpr ⟨frame, hframe, hother⟩)

/-- A call with a line already has it changed, wherever it stands. -/
theorem render_tool_replaced {frames : List RunFrame} {id : Nat} (verb target state summary : String)
    (hany : frames.any (isToolFrame id)) (hdistinct : distinct (frames.filterMap lineOf)) :
    render (takeIn (.tool id verb target state summary) frames) =
        (render frames).map (swapEntry (windowToolCall id verb target state summary)) ∧
      (takeIn (.tool id verb target state summary) frames).filterMap lineOf =
        upsertCall (windowToolCall id verb target state summary) (frames.filterMap lineOf) := by
  obtain ⟨old, call, hsplit, hcall, hid, hbefore, hafter⟩ := split_tool hany hdistinct
  have htaken : takeIn (.tool id verb target state summary) frames =
      frames.takeWhile (!isToolFrame id ·) ++
        .tool id verb target state summary :: (frames.dropWhile (!isToolFrame id ·)).tail := by
    rw [takeIn, if_pos hany]
  rw [htaken]
  generalize frames.takeWhile (!isToolFrame id ·) = before at *
  generalize (frames.dropWhile (!isToolFrame id ·)).tail = after at *
  subst hsplit
  have hold : renderFrame (render before) old = render before ++ [.tools [call]] := by
    cases old with
    | tool _ _ _ _ _ => cases hcall; rfl
    | _ => cases hcall
  constructor
  · have hkept := foldl_renderFrame_swap (windowToolCall id verb target state summary) hbefore []
    rw [render, List.foldl_append, List.foldl_cons, render, List.foldl_append, List.foldl_cons]
    rw [render] at hold
    rw [hold, ← foldl_renderFrame_swap (windowToolCall id verb target state summary) hafter,
      List.map_append, ← hkept]
    simp [renderFrame, swapEntry, swapCall, hid, windowToolCall]
  · have hnew : id ∉ (before.filterMap lineOf).map ToolCall.id := by
      intro hmem
      obtain ⟨c, hc, hcid⟩ := List.mem_map.mp hmem
      obtain ⟨frame, hframe, hline⟩ := List.mem_filterMap.mp hc
      have htool := lineOf_id hline
      rw [hcid, hbefore frame hframe] at htool
      cases htool
    rw [List.filterMap_append, List.filterMap_append, List.filterMap_cons_some hcall,
      upsertCall_append_left _ hnew, upsertCall,
      if_pos (show call.id = (windowToolCall id verb target state summary).id from hid)]
    rfl

/-! ## Both surfaces -/

/-- The last line told of each call, in the order the calls came. -/
def tell (told : List ToolCall) : Protocol.Event → List ToolCall
  | .tool id verb target state summary _ =>
    upsertCall (windowToolCall id verb target state summary) told
  | _ => told

/-- The pane's transcript and the ring's frames say the same. -/
structure Aligned (t : List View.Entry) (frames : List RunFrame) (told : List ToolCall) : Prop where
  text : prose.of t = prose.of (render frames)
  pane : lines.of t = told
  window : lines.of (render frames) = told
  ring : frames.filterMap lineOf = told
  each : distinct told

/-- The pane would put the call's line where it is: it has none, or has it in the group that is
its last entry. -/
def paneReaches (id : Nat) (t : List View.Entry) : Bool :=
  (lines.of t).all (·.id ≠ id) ||
    match t.getLast? with
    | some (.tools calls) => calls.any (·.id = id)
    | _ => false

/-- Both would take back the same speech: it ends the window's drawing, it is the pane's last,
and nothing else was said since the thinking it goes to. -/
def takesBackSame (t out : List View.Entry) : Bool :=
  match out.getLast? with
  | none => true
  | some (.said (.model text)) =>
    match splitLast modelSpeech t with
    | none => text = ""
    | some (before, spoken, _) =>
      spoken = text && (text = "" ||
        match splitLast thinking before with
        | none => true
        | some (_, _, between) => prose.of between = [])
  | some _ => false

/-- Both surfaces look at the same entry. -/
def looksSame (t out : List View.Entry) : Protocol.Event → Bool
  | .tool id verb _ _ _ _ => verb ≠ "subagent" && paneReaches id t
  | .speechRetracted _ => takesBackSame t out
  | _ => true

theorem Aligned.swept {t : List View.Entry} {frames : List RunFrame} {told : List ToolCall}
    (h : Aligned t frames told) : Aligned (closeFinishedReasoning false t) frames told where
  text := (prose.of_closeFinished false t).trans h.text
  pane := (lines.of_closeFinished false t).trans h.pane
  window := h.window
  ring := h.ring
  each := h.each

section Retraction

/-- What stands after the last speech is thought. -/
theorem prose_of_no_speech {t : List View.Entry} (h : ∀ e ∈ t, modelSpeech e = none) :
    ∀ p ∈ prose.of t, p.1 = .thought := by
  intro p hp
  obtain ⟨e, he, hpe⟩ := List.mem_flatMap.mp hp
  cases e with
  | said speech =>
    cases speech with
    | model text => cases h _ he
    | harness notice => cases hpe
  | reasoning text tokens done =>
    obtain ⟨c, -, rfl⟩ := List.mem_map.mp hpe
    rfl
  | _ => cases hpe

theorem length_prose (t : List View.Entry) : (prose.of t).length = (textReading.of t).length := by
  induction t with
  | nil => rfl
  | cons e t ih =>
    rw [prose.of_cons, textReading.of_cons, List.length_append, List.length_append, ih]
    congr 1
    cases e with
    | said speech => cases speech <;> simp [prose, textReading, entryProse, entryText, voiced]
    | reasoning text tokens done => simp [prose, textReading, entryProse, entryText, voiced]
    | _ => rfl

theorem lines_retract (tokens : Nat) (t : List View.Entry) :
    lines.of (retract tokens t) = lines.of t := by
  obtain ⟨-, hnone⟩ | ⟨before, spoken, after, rfl, -, -, ⟨-, hplace⟩ |
    ⟨earlier, text, total, done, between, rfl, -, -, hmoved⟩⟩ := retract_cases tokens t
  · rw [hnone]
  · rw [hplace]
    simp [lines.said, lines.reasoning, show ∀ s, lines.speech s = [] from fun _ => rfl,
      show ∀ s, lines.thought s = [] from fun _ => rfl]
  · rw [hmoved]
    simp [lines.said, lines.reasoning, show ∀ s, lines.speech s = [] from fun _ => rfl,
      show ∀ s, lines.thought s = [] from fun _ => rfl]

/-- The same speech stands at the end of both texts, with only thought after it in one. -/
theorem nothing_after {a b c s : List (Voice × Char)} (h : a ++ (s ++ b) = c ++ s) (hne : s ≠ [])
    (hspeech : ∀ p ∈ s, p.1 = .speech) (hthought : ∀ p ∈ b, p.1 = .thought) : b = [] := by
  by_contra hb
  obtain ⟨p, hp⟩ := Option.ne_none_iff_exists'.mp (mt List.getLast?_eq_none_iff.mp hb)
  obtain ⟨q, hq⟩ := Option.ne_none_iff_exists'.mp (mt List.getLast?_eq_none_iff.mp hne)
  have hends := congrArg List.getLast? h
  simp only [List.getLast?_append, hp, hq, Option.some_or, Option.some.injEq] at hends
  have hvoices := (hthought p (List.mem_of_getLast? hp)).symm.trans
    (congrArg Prod.fst hends |>.trans (hspeech q (List.mem_of_getLast? hq)))
  cases hvoices

theorem voiced_voice {voice : Voice} {text : String} : ∀ p ∈ voiced voice text, p.1 = voice := by
  intro p hp
  obtain ⟨c, -, rfl⟩ := List.mem_map.mp hp
  rfl

theorem voiced_ne_nil {voice : Voice} {text : String} (h : text ≠ "") : voiced voice text ≠ [] := by
  simpa [voiced] using h

variable {t out : List View.Entry} {tokens : Nat}

/-- The window's retraction, where speech ends its drawing. -/
theorem renderFrame_retracted (init : List View.Entry) (text : String) :
    renderFrame (init ++ [.said (.model text)]) (.speechRetracted tokens) =
      init ++ [.reasoning text tokens true] := by
  simp [renderFrame]

/-- Both classify the speech they take back as thought, in its place. -/
theorem prose_retracted (hsame : prose.of t = prose.of out) (h : takesBackSame t out) :
    prose.of (retract tokens t) = prose.of (renderFrame out (.speechRetracted tokens)) := by
  rcases List.eq_nil_or_concat out with rfl | ⟨init, last, rfl⟩
  · have hlength := ((textReading.of_retract rfl tokens t).length_eq).symm
    rw [← length_prose, ← length_prose, hsame] at hlength
    exact List.eq_nil_of_length_eq_zero hlength.symm
  · rw [List.concat_eq_append] at hsame h ⊢
    obtain ⟨text, rfl⟩ : ∃ text, last = .said (.model text) := by
      cases last with
      | said speech =>
        cases speech with
        | model text => exact ⟨text, rfl⟩
        | harness notice => simp [takesBackSame] at h
      | _ => simp [takesBackSame] at h
    rw [renderFrame_retracted]
    simp only [prose.of_append, prose.of_cons, prose.of_nil, prose.said, prose.reasoning,
      List.append_nil] at hsame ⊢
    simp only [takesBackSame, List.getLast?_concat] at h
    obtain ⟨hnone, hstays⟩ | ⟨before, spoken, after, rfl, hafter, hsplit, hcases⟩ :=
      retract_cases tokens t
    · simp only [splitLast_eq_none.mpr hnone, decide_eq_true_eq] at h
      subst h
      rw [hstays, hsame, prose.speech_empty, prose.thought_empty]
    · simp only [hsplit, Bool.and_eq_true, decide_eq_true_eq, Bool.or_eq_true] at h
      obtain ⟨rfl, hbetween⟩ := h
      simp only [prose.of_append, prose.of_cons, prose.said] at hsame
      by_cases hempty : spoken = ""
      · subst hempty
        rw [prose.speech_empty, List.append_nil, List.nil_append] at hsame
        rw [prose.thought_empty, List.append_nil, ← hsame]
        rcases hcases with ⟨-, hplace⟩ | ⟨earlier, text, total, done, between, rfl, -, -, hmoved⟩
        · rw [hplace]
          simp [prose.reasoning, prose.thought_empty]
        · rw [hmoved]
          simp [prose.reasoning]
      · have hrest : prose.of after = [] :=
          nothing_after hsame (voiced_ne_nil hempty) voiced_voice (prose_of_no_speech hafter)
        rw [hrest, List.append_nil] at hsame
        have hbefore := List.append_cancel_right hsame
        rw [← hbefore]
        rcases hcases with ⟨-, hplace⟩ | ⟨earlier, text, total, done, between, rfl, -, hb, hmoved⟩
        · rw [hplace]
          simp [prose.reasoning, hrest]
        · have hnothing : prose.of between = [] := by simpa [hempty, hb] using hbetween
          rw [hmoved]
          simp [prose.reasoning, prose.thought_append, hrest, hnothing]

/-- Nothing the window draws is gone after it. -/
theorem retracted_keeps (h : takesBackSame t out) :
    lines.of (renderFrame out (.speechRetracted tokens)) = lines.of out ∧
      pieces.of (renderFrame out (.speechRetracted tokens)) = pieces.of out := by
  rcases List.eq_nil_or_concat out with rfl | ⟨init, last, rfl⟩
  · exact ⟨rfl, rfl⟩
  · rw [List.concat_eq_append] at h ⊢
    cases last with
    | said speech =>
      cases speech with
      | model text =>
        rw [renderFrame_retracted]
        constructor <;> simp only [Reading.of_append] <;> rfl
      | harness notice => simp [takesBackSame] at h
    | _ => simp [takesBackSame] at h

end Retraction

/-! ### A tool line -/

theorem map_bare_upsertCall (call : ToolCall) (calls : List ToolCall) :
    (upsertCall call calls).map bare = upsertCall (bare call) (calls.map bare) := by
  induction calls with
  | nil => rfl
  | cons c rest ih =>
    rw [upsertCall, List.map_cons, upsertCall, show (bare c).id = c.id from rfl,
      show (bare call).id = call.id from rfl]
    split
    · rfl
    · rw [List.map_cons, ih]

/-- The line takes its own place on the pane. -/
theorem lines_toolLine {call : ToolCall} {t : List View.Entry} (hdistinct : distinct (lines.of t))
    (h : paneReaches call.id t) :
    lines.of (toolLine call t) = upsertCall (bare call) (lines.of t) := by
  simp only [paneReaches, Bool.or_eq_true, List.all_eq_true, decide_eq_true_eq] at h
  have hall : (∀ c ∈ lines.of t, c.id ≠ call.id) → call.id ∉ (lines.of t).map ToolCall.id :=
    fun hnone hmem => by
      obtain ⟨c, hc, hid⟩ := List.mem_map.mp hmem
      exact hnone c hc hid
  obtain ⟨init, x, y, rfl, hy, htaken⟩ | ⟨hlast, hadded⟩ := onLast_cases
    (fun entry => match entry with
      | .tools calls => some (.tools (upsertCall call calls))
      | _ => none) (.tools [call]) t
  · split at hy
    next calls =>
      cases hy
      have hlines : lines.of (init ++ [.tools calls]) = lines.of init ++ calls.map bare := by
        rw [lines.of_append, lines.of_cons, lines.of_nil, List.append_nil]
        rfl
      have hinit : (bare call).id ∉ (lines.of init).map ToolCall.id := by
        intro hmem
        rcases h with hnone | hhere
        · refine hall (by simpa using hnone) ?_
          rw [hlines, List.map_append]
          exact List.mem_append_left _ hmem
        · rw [hlines] at hdistinct
          unfold distinct at hdistinct
          rw [List.map_append, List.nodup_append] at hdistinct
          simp only [List.getLast?_concat, List.any_eq_true, decide_eq_true_eq] at hhere
          obtain ⟨c, hc, hid⟩ := hhere
          refine hdistinct.2.2 _ hmem c.id ?_ hid.symm
          exact List.mem_map.mpr ⟨bare c, List.mem_map_of_mem hc, rfl⟩
      rw [show toolLine call (init ++ [.tools calls]) = init ++ [.tools (upsertCall call calls)] from
        htaken, hlines, upsertCall_append_left _ hinit, ← map_bare_upsertCall, lines.of_append,
        lines.of_cons, lines.of_nil, List.append_nil]
      rfl
    next => cases hy
  · have hnew : (bare call).id ∉ (lines.of t).map ToolCall.id := by
      refine hall ?_
      rcases h with hnone | hhere
      · simpa using hnone
      · split at hhere
        next calls hcalls => simp [hcalls] at hlast
        next => cases hhere
    rw [show toolLine call t = t ++ [.tools [call]] from hadded, upsertCall_new hnew, lines.of_append,
      lines.of_cons, lines.of_nil, List.append_nil]
    rfl

theorem prose_toolLine (call : ToolCall) (t : List View.Entry) :
    prose.of (toolLine call t) = prose.of t := by
  refine (prose.of_onLast (fun x y hy => ?_) t).trans (List.append_nil _)
  split at hy
  · cases hy
    rfl
  · cases hy

theorem lines_swap {call : ToolCall} (hbare : bare call = call) (out : List View.Entry) :
    lines.of (out.map (swapEntry call)) = (lines.of out).map (swapCall call) := by
  induction out with
  | nil => rfl
  | cons e out ih =>
    rw [List.map_cons, lines.of_cons, lines.of_cons, List.map_append, ih]
    congr 1
    cases e with
    | tools calls =>
      show (calls.map (swapCall call)).map bare = (calls.map bare).map (swapCall call)
      rw [List.map_map, List.map_map]
      refine List.map_congr_left fun c _ => ?_
      simp only [Function.comp, swapCall, show (bare c).id = c.id from rfl]
      split
      · exact hbare
      · rfl
    | _ => rfl

theorem of_swap {β : Type} (r : Reading β) (call : ToolCall)
    (h : ∀ e, r.entry (swapEntry call e) = r.entry e) (out : List View.Entry) :
    r.of (out.map (swapEntry call)) = r.of out := by
  induction out with
  | nil => rfl
  | cons e out ih => rw [List.map_cons, r.of_cons, r.of_cons, h, ih]

/-! ## One event -/

section Event

variable {t : List View.Entry} {frames : List RunFrame} {told : List ToolCall}

theorem Aligned.text_step (h : Aligned t frames told) (delta : String) :
    Aligned (say delta t) (takeIn (.text delta) frames) told where
  text := by rw [prose.of_say, of_render_text, h.text]
  pane := by rw [lines.of_say, h.pane]; exact List.append_nil _
  window := by rw [of_render_text, h.window]; exact List.append_nil _
  ring := (lineOf_takeIn_text delta frames).trans h.ring
  each := h.each

theorem of_reasoned {β : Type} (r : Reading β) (delta : String) (tokens : Nat) (t : List View.Entry) :
    r.of (transcriptAfter (.reasoning delta tokens) t) = r.of t ++ r.thought delta := by
  simp only [transcriptAfter]
  split
  next hempty => rw [hempty, r.thought_empty, r.of_settle, List.append_nil]
  next => exact r.of_think delta tokens t

theorem Aligned.reasoning_step (h : Aligned t frames told) (delta : String) (tokens : Nat) :
    Aligned (transcriptAfter (.reasoning delta tokens) t)
      (takeIn (.reasoning delta tokens) frames) told where
  text := by rw [of_reasoned, of_render_reasoning, h.text]
  pane := by rw [of_reasoned, h.pane]; exact List.append_nil _
  window := by rw [of_render_reasoning, h.window]; exact List.append_nil _
  ring := (lineOf_takeIn_reasoning delta tokens frames).trans h.ring
  each := h.each

theorem Aligned.compacted_step (h : Aligned t frames told) (turns : Nat) :
    Aligned (t ++ [.compacted turns]) (takeIn (.compacted turns) frames) told where
  text := by
    rw [takeIn, render_concat, renderFrame, prose.of_append, prose.of_append, h.text]
  pane := by
    rw [lines.of_append, h.pane]
    exact List.append_nil _
  window := by
    rw [takeIn, render_concat, renderFrame, lines.of_append, h.window]
    exact List.append_nil _
  ring := by
    rw [takeIn, List.filterMap_append, h.ring]
    exact List.append_nil _
  each := h.each

theorem Aligned.retract_step (h : Aligned t frames told) (tokens : Nat)
    (hsame : takesBackSame t (render frames)) :
    Aligned (retract tokens t) (takeIn (.speechRetracted tokens) frames) told where
  text := by rw [takeIn, render_concat, prose_retracted h.text hsame]
  pane := (lines_retract tokens t).trans h.pane
  window := by rw [takeIn, render_concat, (retracted_keeps hsame).1, h.window]
  ring := by
    rw [takeIn, List.filterMap_append, h.ring]
    exact List.append_nil _
  each := h.each

/-- A tool frame in the ring: the line is replaced where it stands, or is a new one. -/
theorem Aligned.tool_ring (h : Aligned t frames told) (id : Nat) (verb target state summary : String) :
    let call := windowToolCall id verb target state summary
    let after := takeIn (.tool id verb target state summary) frames
    prose.of (render after) = prose.of (render frames) ∧
      lines.of (render after) = upsertCall call told ∧
      after.filterMap lineOf = upsertCall call told ∧ Keeps (render frames) (render after) := by
  intro call after
  have hring := h.ring
  by_cases hany : frames.any (isToolFrame id) = true
  · have hdistinct : distinct (frames.filterMap lineOf) := by
      rw [hring]
      exact h.each
    obtain ⟨hdrawn, hlines⟩ := render_tool_replaced verb target state summary hany hdistinct
    have hmem : call.id ∈ told.map ToolCall.id := by
      obtain ⟨frame, hframe, htool⟩ := List.any_eq_true.mp hany
      obtain ⟨old, hold, hid⟩ := isToolFrame_lineOf htool
      rw [← hring]
      exact List.mem_map.mpr ⟨old, List.mem_filterMap.mpr ⟨frame, hframe, hold⟩, hid⟩
    refine ⟨?_, ?_, by rw [hlines, hring], ?_⟩
    · rw [hdrawn, of_swap prose call fun e => by cases e <;> rfl]
    · rw [hdrawn, lines_swap (bare_windowToolCall id verb target state summary), h.window,
        upsertCall_eq_map h.each hmem]
      rfl
    · refine .of_eq ?_
      rw [hdrawn, of_swap pieces call fun e => ?_]
      cases e with
      | tools calls =>
        show (calls.map (swapCall call)).map (fun c => Piece.line c.id) =
          calls.map fun c => Piece.line c.id
        rw [List.map_map]
        exact List.map_congr_left fun c _ => congrArg Piece.line (swapCall_id c)
      | _ => rfl
  · have hafter : after = frames ++ [.tool id verb target state summary] := if_neg hany
    have hnew : call.id ∉ told.map ToolCall.id := by
      intro hmem
      rw [← hring] at hmem
      obtain ⟨c, hc, hid⟩ := List.mem_map.mp hmem
      obtain ⟨frame, hframe, hline⟩ := List.mem_filterMap.mp hc
      refine hany (List.any_eq_true.mpr ⟨frame, hframe, ?_⟩)
      have htool := lineOf_id hline
      rwa [hid] at htool
    have hdrawn : render after = render frames ++ [.tools [call]] := by
      rw [hafter, render_concat]
      rfl
    refine ⟨?_, ?_, ?_, ?_⟩
    · rw [hdrawn, prose.of_append]
      exact List.append_nil _
    · rw [hdrawn, lines.of_append, h.window, upsertCall_new hnew, lines.of_cons, lines.of_nil,
        List.append_nil]
      congr 1
      exact congrArg (fun c => [c]) (bare_windowToolCall id verb target state summary)
    · rw [hafter, List.filterMap_append, hring, upsertCall_new hnew]
      rfl
    · rw [hdrawn]
      exact .of_append (pieces.of_append _ _)

/-- An event both look at in the same place keeps them aligned. -/
theorem Aligned.step (h : Aligned t frames told) {event : Protocol.Event} {frame : RunFrame}
    (hframe : toRunFrame event = some frame) (hlooks : looksSame t (render frames) event) :
    Aligned (transcriptAfter event t) (takeIn frame frames) (tell told event) := by
  cases event with
  | text delta => cases hframe; exact h.text_step delta
  | reasoning delta tokens => cases hframe; exact h.reasoning_step delta tokens
  | speechRetracted tokens => cases hframe; exact h.retract_step tokens hlooks
  | compacted turns => cases hframe; exact h.compacted_step turns
  | tool id verb target state summary detail =>
    cases hframe
    simp only [looksSame, Bool.and_eq_true, decide_eq_true_eq] at hlooks
    obtain ⟨hverb, hreaches⟩ := hlooks
    obtain ⟨hprose, hlines, hring, -⟩ := h.tool_ring id verb target state summary
    have hdistinct : distinct (lines.of t) := by
      rw [h.pane]
      exact h.each
    exact {
      text := (prose_toolLine _ t).trans (h.text.trans hprose.symm)
      pane := by
        rw [tell, ← bare_toolCall id target state summary detail hverb, ← h.pane]
        exact lines_toolLine hdistinct hreaches
      window := hlines
      ring := hring
      each := distinct_upsertCall h.each }
  | _ => cases hframe

/-- The window keeps what it draws. -/
theorem Aligned.drawn_keeps (h : Aligned t frames told) {event : Protocol.Event} {frame : RunFrame}
    (hframe : toRunFrame event = some frame) (hlooks : looksSame t (render frames) event) :
    Keeps (render frames) (render (takeIn frame frames)) := by
  cases event with
  | text delta => cases hframe; exact .of_append (of_render_text pieces delta frames)
  | reasoning delta tokens =>
    cases hframe
    exact .of_append (of_render_reasoning pieces delta tokens frames)
  | speechRetracted tokens =>
    cases hframe
    rw [takeIn, render_concat]
    exact .of_eq (retracted_keeps hlooks).2
  | compacted turns =>
    cases hframe
    rw [takeIn, render_concat, renderFrame]
    exact .of_append (pieces.of_append _ _)
  | tool id verb target state summary detail =>
    cases hframe
    exact (h.tool_ring id verb target state summary).2.2.2
  | _ => cases hframe

/-- A call keeps its place in a group, or comes after the others. -/
theorem pieces_upsertCall (call : ToolCall) (calls : List ToolCall) :
    ∃ more, pieces.entry (.tools (upsertCall call calls)) = pieces.entry (.tools calls) ++ more := by
  have hline : ∀ cs : List ToolCall,
      pieces.entry (.tools cs) = (cs.map ToolCall.id).map Piece.line := fun cs => by
    rw [List.map_map]
    rfl
  rw [hline, hline, upsertCall_ids]
  split
  · exact ⟨[], (List.append_nil _).symm⟩
  · exact ⟨[.line call.id], by rw [List.map_append]; rfl⟩

theorem toolLine_keeps (call : ToolCall) (t : List View.Entry) : Keeps t (toolLine call t) := by
  obtain ⟨init, x, y, rfl, hy, htaken⟩ | ⟨-, hadded⟩ := onLast_cases
    (fun entry => match entry with
      | .tools calls => some (.tools (upsertCall call calls))
      | _ => none) (.tools [call]) t
  · split at hy
    next calls =>
      cases hy
      obtain ⟨more, hmore⟩ := pieces_upsertCall call calls
      refine .of_append (?_ : _ = _ ++ more)
      rw [show toolLine call (init ++ [.tools calls]) = init ++ [.tools (upsertCall call calls)] from
        htaken]
      simp only [pieces.of_append, pieces.of_cons, pieces.of_nil, List.append_nil, hmore,
        List.append_assoc]
    next => cases hy
  · rw [show toolLine call t = t ++ [.tools [call]] from hadded]
    exact .of_append (pieces.of_append _ _)

/-- The pane keeps what it shows, whatever comes. -/
theorem transcriptAfter_keeps {event : Protocol.Event} {frame : RunFrame}
    (hframe : toRunFrame event = some frame) (t : List View.Entry) :
    Keeps t (transcriptAfter event t) := by
  cases event with
  | text delta => exact .of_append (pieces.of_say delta t)
  | reasoning delta tokens => exact .of_append (of_reasoned pieces delta tokens t)
  | speechRetracted tokens => exact .of_perm (pieces.of_retract rfl tokens t)
  | compacted turns => exact .of_append (pieces.of_append _ _)
  | tool id verb target state summary detail =>
    exact toolLine_keeps (toolCall id verb target state summary detail) t
  | _ => cases hframe

end Event

end MarloweAgent.Daemon
