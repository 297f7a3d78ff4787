import MarloweAgent.Daemon.Frames
import MarloweAgent.Daemon.Reading
import Mathlib.Data.List.Perm.Subperm

/-! How a window draws the frames of a run, and what one more frame changes of it. -/

namespace MarloweAgent.Daemon
open Library Loop Tools View

/-! ## From an event to a frame -/

/-- `to_run_frame`: the run's own output, without what a tool line opens to. -/
def toRunFrame : Protocol.Event → Option RunFrame
  | .text delta => some (.text delta)
  | .reasoning delta tokens => some (.reasoning delta tokens)
  | .speechRetracted tokens => some (.speechRetracted tokens)
  | .tool id verb target state summary _ => some (.tool id verb target state summary)
  | .compacted turns => some (.compacted turns)
  | _ => none

/-! ## The window's fold -/

/-- The window's own table of verbs. -/
def windowVerbs : List String :=
  ["read", "write", "edit", "glob", "grep", "find", "run", "spawn", "bash", "web", "recall",
    "remember", "use", "ask", "subagent"]

def windowVerbOf (verb : String) : String := if verb ∈ windowVerbs then verb else "tool"

def windowToolCall (id : Nat) (verb target state summary : String) : ToolCall :=
  { id
    verb := windowVerbOf verb
    target
    summaryLine := some summary
    state :=
      if state = "failed" then .failed (.new [])
      else if state = "running" then .running 0
      else .ok (.new [])
    collapsed := []
    expanded := state = "failed" }

def renderFrame (out : List View.Entry) : RunFrame → List View.Entry
  | .text delta => out ++ [.said (.model delta)]
  | .reasoning delta tokens =>
    if delta = "" then settle tokens out else out ++ [.reasoning delta tokens false]
  | .speechRetracted tokens =>
    match out.getLast? with
    | some (.said (.model text)) => out.dropLast ++ [.reasoning text tokens true]
    -- whatever was last is popped all the same
    | _ => out.dropLast
  | .tool id verb target state summary =>
    out ++ [.tools [windowToolCall id verb target state summary]]
  | .compacted turns => out ++ [.compacted turns]

/-- The entries of these frames, thinking left open. -/
def render (frames : List RunFrame) : List View.Entry := frames.foldl renderFrame []

/-- `RunProjection::entries`: every thinking block with anything after it is done. -/
def RunProjection.entries (p : RunProjection) : List View.Entry :=
  closeFinishedReasoning false (render p.frames.values)

theorem render_concat (frames : List RunFrame) (frame : RunFrame) :
    render (frames ++ [frame]) = renderFrame (render frames) frame := by
  simp [render]

/-! ## A frame taken into the ring -/

/-- A line of the tool call with this id. -/
def isToolFrame (id : Nat) : RunFrame → Bool
  | .tool other _ _ _ _ => other = id
  | _ => false

/-- The frames with one more, none dropped. -/
def takeIn (frame : RunFrame) (frames : List RunFrame) : List RunFrame :=
  match frame with
  | .text delta =>
    onLast (fun last => match last with
      | .text tail => some (.text (tail ++ delta))
      | _ => none) frame frames
  | .reasoning delta tokens =>
    onLast (fun last => match last with
      | .reasoning tail total => some (.reasoning (tail ++ delta) (satAdd u64Max total tokens))
      | _ => none) frame frames
  | .tool id _ _ _ _ =>
    if frames.any (isToolFrame id) then
      frames.takeWhile (!isToolFrame id ·) ++ frame :: (frames.dropWhile (!isToolFrame id ·)).tail
    else frames ++ [frame]
  | .speechRetracted _ => frames ++ [frame]
  | .compacted _ => frames ++ [frame]

/-- What the ring holds of a run, in order. -/
def Frames.output (f : Frames) : List RunFrame := f.seq.map Prod.snd

theorem trim_first (first : Nat) (seq : List Entry) : first ≤ (trim first seq).2 := by
  induction seq generalizing first with
  | nil => exact Nat.le_refl _
  | cons entry rest ih =>
    unfold trim
    split
    · exact Nat.le_trans (Nat.le_succ first) (ih (first + 1))
    · exact Nat.le_refl _

/-- Where the first number stays, nothing was dropped. -/
theorem trim_kept {first : Nat} {seq : List Entry} (h : (trim first seq).2 = first) :
    (trim first seq).1 = seq := by
  cases seq with
  | nil => rfl
  | cons entry rest =>
    unfold trim at h ⊢
    split at h
    · have hfirst := trim_first (first + 1) rest
      omega
    next hfew => rw [if_neg hfew]

theorem replaceFirst_snd (id : Nat) (frame : RunFrame) (seq : List Entry) (h : seq.any (isTool id)) :
    (replaceFirst (isTool id) frame seq).map Prod.snd =
      (seq.map Prod.snd).takeWhile (!isToolFrame id ·) ++
        frame :: ((seq.map Prod.snd).dropWhile (!isToolFrame id ·)).tail := by
  induction seq with
  | nil => cases h
  | cons entry rest ih =>
    have hsame : isTool id entry = isToolFrame id entry.2 := rfl
    cases hp : isToolFrame id entry.2 with
    | true => simp [replaceFirst, hsame, hp]
    | false =>
      have hrest : rest.any (isTool id) := by simpa [hsame, hp] using h
      simp [replaceFirst, hsame, hp, ih hrest]

namespace Frames

theorem first_le_push (f : Frames) (frame : RunFrame) : f.first ≤ (f.push frame).first := by
  unfold push
  split
  · exact Nat.le_refl _
  · exact trim_first _ _

theorem output_push_some {f : Frames} {frame : RunFrame} {seq : List Entry}
    (h : coalesce f.seq frame = some seq) : (f.push frame).output = seq.map Prod.snd := by
  unfold push
  split
  next seq' hseq =>
    obtain rfl : seq = seq' := Option.some.inj (h.symm.trans hseq)
    rfl
  next hnone => rw [h] at hnone; cases hnone

theorem output_push_none {f : Frames} {frame : RunFrame} (h : coalesce f.seq frame = none)
    (hkept : (f.push frame).first = f.first) : (f.push frame).output = f.output ++ [frame] := by
  unfold push at hkept ⊢
  split at hkept
  next seq hsome => rw [h] at hsome; cases hsome
  next =>
    show (trim f.first (f.seq ++ [(f.next, frame)])).1.map Prod.snd = f.output ++ [frame]
    rw [trim_kept hkept, List.map_append]
    rfl

/-- A push that drops nothing. -/
theorem output_push {f : Frames} {frame : RunFrame} (h : (f.push frame).first = f.first) :
    (f.push frame).output = takeIn frame f.output := by
  have hlast : f.output.getLast? = f.seq.getLast?.map Prod.snd := List.getLast?_map
  have hinit : (f.seq.dropLast).map Prod.snd = f.output.dropLast := List.map_dropLast
  have hadded := fun hnone => output_push_none hnone h
  cases frame with
  | text delta =>
    simp only [takeIn, onLast, hlast]
    rcases hseq : f.seq.getLast? with _ | ⟨n, last⟩
    · exact hadded (by simp [coalesce, hseq])
    · cases last with
      | text tail =>
        rw [output_push_some (by simp only [coalesce, hseq]; rfl)]
        simp [hinit]
      | _ => exact hadded (by simp [coalesce, hseq])
  | reasoning delta tokens =>
    simp only [takeIn, onLast, hlast]
    rcases hseq : f.seq.getLast? with _ | ⟨n, last⟩
    · exact hadded (by simp [coalesce, hseq])
    · cases last with
      | reasoning tail total =>
        rw [output_push_some (by simp only [coalesce, hseq]; rfl)]
        simp [hinit]
      | _ => exact hadded (by simp [coalesce, hseq])
  | tool id verb target state summary =>
    have hany : f.output.any (isToolFrame id) = f.seq.any (isTool id) := List.any_map
    simp only [takeIn, hany]
    split
    next hsome =>
      rw [output_push_some (by simp only [coalesce, hsome, if_true]; rfl)]
      exact replaceFirst_snd id _ f.seq hsome
    next hnone => exact hadded (by simp [coalesce, hnone])
  | speechRetracted tokens => exact hadded rfl
  | compacted turns => exact hadded rfl

end Frames

/-! ## The tool lines -/

/-- The line of a tool frame. -/
def lineOf : RunFrame → Option ToolCall
  | .tool id verb target state summary => some (windowToolCall id verb target state summary)
  | _ => none

theorem lineOf_id {frame : RunFrame} {call : ToolCall} (h : lineOf frame = some call) :
    isToolFrame call.id frame = true := by
  cases frame with
  | tool id verb target state summary => cases h; simp [isToolFrame, windowToolCall]
  | _ => cases h

theorem isToolFrame_lineOf {id : Nat} {frame : RunFrame} (h : isToolFrame id frame = true) :
    ∃ call, lineOf frame = some call ∧ call.id = id := by
  cases frame with
  | tool other verb target state summary =>
    exact ⟨_, rfl, by simpa [isToolFrame, windowToolCall] using h⟩
  | _ => cases h

/-- Calls with their ids, each once. -/
def distinct (calls : List ToolCall) : Prop := (calls.map ToolCall.id).Nodup

theorem upsertCall_new {call : ToolCall} {calls : List ToolCall} (h : call.id ∉ calls.map ToolCall.id) :
    upsertCall call calls = calls ++ [call] := by
  induction calls with
  | nil => rfl
  | cons c rest ih =>
    simp only [List.map_cons, List.mem_cons, not_or] at h
    obtain ⟨hne, hrest⟩ := h
    rw [upsertCall, if_neg (Ne.symm hne), ih hrest]
    rfl

theorem upsertCall_append_left {call : ToolCall} {a : List ToolCall} (b : List ToolCall)
    (h : call.id ∉ a.map ToolCall.id) : upsertCall call (a ++ b) = a ++ upsertCall call b := by
  induction a with
  | nil => rfl
  | cons c rest ih =>
    simp only [List.map_cons, List.mem_cons, not_or] at h
    obtain ⟨hne, hrest⟩ := h
    rw [List.cons_append, upsertCall, if_neg (Ne.symm hne), ih hrest]
    rfl

/-- The ids are those there were, and the call's. -/
theorem upsertCall_ids (call : ToolCall) (calls : List ToolCall) :
    (upsertCall call calls).map ToolCall.id =
      if call.id ∈ calls.map ToolCall.id then calls.map ToolCall.id
      else calls.map ToolCall.id ++ [call.id] := by
  split
  next hmem =>
    induction calls with
    | nil => cases hmem
    | cons c rest ih =>
      rw [upsertCall]
      split
      next heq => simp [heq]
      next hne =>
        have hrest : call.id ∈ rest.map ToolCall.id := by
          rcases List.mem_cons.mp hmem with heq | hrest
          · exact absurd heq.symm hne
          · exact hrest
        simp [ih hrest]
  next hnew => simp [upsertCall_new hnew]

theorem distinct_upsertCall {call : ToolCall} {calls : List ToolCall} (h : distinct calls) :
    distinct (upsertCall call calls) := by
  unfold distinct
  rw [upsertCall_ids]
  split
  · exact h
  next hnew => exact List.nodup_append.mpr ⟨h, by simp, fun a ha b hb => by
      rintro rfl
      exact hnew (List.mem_singleton.mp hb ▸ ha)⟩

theorem upsertCall_eq_map {call : ToolCall} {calls : List ToolCall} (hdistinct : distinct calls)
    (hmem : call.id ∈ calls.map ToolCall.id) :
    upsertCall call calls = calls.map fun c => if c.id = call.id then call else c := by
  induction calls with
  | nil => cases hmem
  | cons c rest ih =>
    obtain ⟨hc, hrest⟩ := List.nodup_cons.mp hdistinct
    rw [upsertCall, List.map_cons]
    split
    next heq =>
      -- no other call has the id
      have hother : ∀ c' ∈ rest, (if c'.id = call.id then call else c') = c' := by
        intro c' hc'
        refine if_neg fun h => hc ?_
        rw [heq, ← h]
        exact List.mem_map_of_mem hc'
      rw [List.map_congr_left hother, List.map_id']
    next hne =>
      have hlater : call.id ∈ rest.map ToolCall.id := by
        rcases List.mem_cons.mp hmem with heq | hlater
        · exact absurd heq.symm hne
        · exact hlater
      rw [ih hrest hlater]

/-! ## What is shown -/

inductive Voice
  | speech
  | thought
  deriving DecidableEq, Repr

def voiced (voice : Voice) (text : String) : List (Voice × Char) := text.toList.map (voice, ·)

theorem voiced_append (voice : Voice) (a b : String) :
    voiced voice (a ++ b) = voiced voice a ++ voiced voice b := by
  simp [voiced]

def entryProse : View.Entry → List (Voice × Char)
  | .said (.model text) => voiced .speech text
  | .reasoning text _ _ => voiced .thought text
  | _ => []

/-- The model's text in order, each character as it is classified. -/
def prose : Reading (Voice × Char) where
  entry := entryProse
  speech := voiced .speech
  thought := voiced .thought
  said _ := rfl
  reasoning _ _ _ := rfl
  speech_append := voiced_append .speech
  thought_append := voiced_append .thought

/-- The line of a call, without what it opens to. -/
def bare (call : ToolCall) : ToolCall :=
  { call with
    state := match call.state with
      | .ok _ => .ok (.new [])
      | .failed _ => .failed (.new [])
      | state => state }

def entryLines : View.Entry → List ToolCall
  | .tools calls => calls.map bare
  | _ => []

/-- The tool lines in order. -/
def lines : Reading ToolCall where
  entry := entryLines
  speech _ := []
  thought _ := []
  said _ := rfl
  reasoning _ _ _ := rfl
  speech_append _ _ := rfl
  thought_append _ _ := rfl

/-- Something shown: a character of the model's, the line of a call, or another entry. -/
inductive Piece
  | char (c : Char)
  | line (id : Nat)
  | whole (entry : View.Entry)
  deriving DecidableEq, Repr

def pieces : Reading Piece where
  entry
    | .said (.model text) => text.toList.map .char
    | .reasoning text _ _ => text.toList.map .char
    | .tools calls => calls.map fun call => .line call.id
    | entry => [.whole entry]
  speech text := text.toList.map .char
  thought text := text.toList.map .char
  said _ := rfl
  reasoning _ _ _ := rfl
  speech_append a b := by simp
  thought_append a b := by simp

/-- Nothing that was shown is gone. -/
def Keeps (t u : List View.Entry) : Prop := (pieces.of t).Subperm (pieces.of u)

theorem Keeps.refl (t : List View.Entry) : Keeps t t := List.Subperm.refl _

theorem Keeps.trans {t u v : List View.Entry} (h : Keeps t u) (h' : Keeps u v) : Keeps t v :=
  List.Subperm.trans h h'

theorem Keeps.of_append {t u : List View.Entry} {more : List Piece}
    (h : pieces.of u = pieces.of t ++ more) : Keeps t u := by
  rw [Keeps, h]
  exact (List.sublist_append_left _ _).subperm

theorem Keeps.of_eq {t u : List View.Entry} (h : pieces.of u = pieces.of t) : Keeps t u := by
  rw [Keeps, h]

theorem Keeps.of_perm {t u : List View.Entry} (h : (pieces.of u).Perm (pieces.of t)) : Keeps t u :=
  h.symm.subperm

theorem bare_windowToolCall (id : Nat) (verb target state summary : String) :
    bare (windowToolCall id verb target state summary) =
      windowToolCall id verb target state summary := by
  simp only [bare, windowToolCall]
  by_cases hfailed : state = "failed"
  · simp [hfailed]
  · by_cases hrunning : state = "running"
    · simp [hrunning]
    · simp [hfailed, hrunning]

/-- The two tables of verbs differ in one. -/
theorem windowVerbOf_eq {verb : String} (h : verb ≠ "subagent") : windowVerbOf verb = verbOf verb := by
  have hmem : verb ∈ windowVerbs ↔ verb ∈ verbs := by
    simp only [windowVerbs, verbs, List.mem_cons, List.not_mem_nil, or_false]
    tauto
  simp only [windowVerbOf, verbOf, hmem]

/-- The pane's line of a call is the window's. -/
theorem bare_toolCall (id : Nat) {verb : String} (target state summary : String)
    (detail : Option String) (h : verb ≠ "subagent") :
    bare (toolCall id verb target state summary detail) =
      windowToolCall id verb target state summary := by
  simp only [toolCall, windowToolCall, bare, ToolCall.ok, windowVerbOf_eq h]
  by_cases hfailed : state = "failed"
  · simp [hfailed]
  · by_cases hrunning : state = "running"
    · simp [hrunning]
    · simp [hfailed, hrunning]

end MarloweAgent.Daemon
