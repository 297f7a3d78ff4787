import MarloweAgent.Library.OrderedMap
import MarloweAgent.Loop.Budget
import Mathlib.Data.List.Nodup
import Mathlib.Data.List.Range
import Mathlib.Data.String.Basic

/-! What a run has said, kept for a window to render. Frames are numbered as they come,
the newest of a kind grows in place, a tool line is replaced where it stands, and the
oldest are dropped. A window polls from the highest number it holds. -/

namespace MarloweAgent.Daemon
open Library Loop

inductive RunFrame
  | text (delta : String)
  | reasoning (delta : String) (tokens : Nat)
  | speechRetracted (tokens : Nat)
  | tool (id : Nat) (verb target state summary : String)
  | compacted (turns : Nat)
  deriving DecidableEq, Repr

def maxFrames : Nat := 2000

/-- A numbered frame. -/
abbrev Entry := Nat × RunFrame

/-- The entries are numbered from `first` on, up to `next`. -/
structure Consecutive (entries : List Entry) (first next : Nat) : Prop where
  pos : 1 ≤ first
  le : first ≤ next
  numbers : entries.map Prod.fst = List.range' first (next - first)

/-- One run's frames. -/
structure Frames where
  seq : List Entry
  next : Nat
  first : Nat
  consecutive : Consecutive seq first next

/-- A line of the tool call with this id. -/
def isTool (id : Nat) (entry : Entry) : Bool :=
  match entry.2 with
  | .tool other _ _ _ _ => other = id
  | _ => false

/-- Replace the first entry that `p` picks, keeping its number. -/
def replaceFirst (p : Entry → Bool) (frame : RunFrame) : List Entry → List Entry
  | [] => []
  | entry :: rest => if p entry then (entry.1, frame) :: rest else entry :: replaceFirst p frame rest

/-- The entries with the frame taken into one of them, when one takes it. -/
def coalesce (seq : List Entry) (frame : RunFrame) : Option (List Entry) :=
  match frame, seq.getLast? with
  | .text delta, some (n, .text tail) => some (seq.dropLast ++ [(n, .text (tail ++ delta))])
  | .reasoning delta tokens, some (n, .reasoning tail total) =>
    some (seq.dropLast ++ [(n, .reasoning (tail ++ delta) (satAdd u64Max total tokens))])
  | .tool id _ _ _ _, _ => if seq.any (isTool id) then some (replaceFirst (isTool id) frame seq) else none
  | _, _ => none

/-- Drop the oldest entries while there are too many. -/
def trim (first : Nat) : List Entry → List Entry × Nat
  | [] => ([], first)
  | entry :: rest =>
    if maxFrames < rest.length + 1 then trim (first + 1) rest else (entry :: rest, first)

/-! ## The numbers -/

/-- An entry rewritten in its place. -/
structure Rewritten (before after : List Entry) (n : Nat) (old new : RunFrame) : Prop where
  split : ∃ init tail, before = init ++ (n, old) :: tail ∧ after = init ++ (n, new) :: tail

namespace Rewritten

variable {before after : List Entry} {n : Nat} {old new : RunFrame}

theorem numbers (h : Rewritten before after n old new) :
    after.map Prod.fst = before.map Prod.fst := by
  obtain ⟨init, tail, rfl, rfl⟩ := h.split
  simp

theorem mem (h : Rewritten before after n old new) : (n, old) ∈ before := by
  obtain ⟨init, tail, rfl, -⟩ := h.split
  simp

/-- What is there afterwards was there, or is the new frame. -/
theorem cases (h : Rewritten before after n old new) {entry : Entry} (hmem : entry ∈ after) :
    entry ∈ before ∨ entry = (n, new) := by
  obtain ⟨init, tail, rfl, rfl⟩ := h.split
  simp only [List.mem_append, List.mem_cons] at hmem ⊢
  rcases hmem with hinit | hnew | htail
  · exact .inl (.inl hinit)
  · exact .inr hnew
  · exact .inl (.inr (.inr htail))

end Rewritten

theorem replaceFirst_rewritten {p : Entry → Bool} {seq : List Entry} (frame : RunFrame)
    (h : seq.any p = true) :
    ∃ n old, seq.find? p = some (n, old) ∧
      Rewritten seq (replaceFirst p frame seq) n old frame := by
  induction seq with
  | nil => cases h
  | cons entry rest ih =>
    by_cases hp : p entry = true
    · refine ⟨entry.1, entry.2, by simp [hp], ⟨[], rest, rfl, ?_⟩⟩
      simp [replaceFirst, hp]
    · obtain ⟨n, old, hfind, init, tail, hsplit, hafter⟩ := ih (by simpa [hp] using h)
      refine ⟨n, old, by simpa [hp] using hfind, ⟨entry :: init, tail, by simp [hsplit], ?_⟩⟩
      simp [replaceFirst, hp, hafter]

theorem last_rewritten {seq : List Entry} {n : Nat} {old : RunFrame}
    (h : seq.getLast? = some (n, old)) (new : RunFrame) :
    Rewritten seq (seq.dropLast ++ [(n, new)]) n old new :=
  ⟨seq.dropLast, [], (List.dropLast_append_getLast? _ h).symm, rfl⟩

/-- A frame that is taken in rewrites the newest entry, or the line of its tool call. -/
theorem coalesce_cases {seq after : List Entry} {frame : RunFrame} (h : coalesce seq frame = some after) :
    ∃ n old new, Rewritten seq after n old new ∧
      (seq.getLast? = some (n, old) ∨
        ∃ id, isTool id (n, frame) ∧ seq.find? (isTool id) = some (n, old) ∧ new = frame) := by
  unfold coalesce at h
  split at h
  · rename_i delta n tail hlast
    obtain rfl := Option.some.inj h
    exact ⟨n, _, _, last_rewritten hlast _, .inl hlast⟩
  · rename_i delta tokens n tail total hlast
    obtain rfl := Option.some.inj h
    exact ⟨n, _, _, last_rewritten hlast _, .inl hlast⟩
  · rename_i id verb target state summary
    split at h
    · rename_i hany
      obtain rfl := Option.some.inj h
      obtain ⟨n, old, hfind, hrewritten⟩ :=
        replaceFirst_rewritten (.tool id verb target state summary) hany
      exact ⟨n, old, _, hrewritten, .inr ⟨id, by simp [isTool], hfind, rfl⟩⟩
    · cases h
  · cases h

theorem Consecutive.rewritten {before after : List Entry} {n : Nat} {old new : RunFrame}
    {first next : Nat} (h : Consecutive before first next) (hr : Rewritten before after n old new) :
    Consecutive after first next :=
  ⟨h.pos, h.le, hr.numbers.trans h.numbers⟩

theorem Consecutive.concat {seq : List Entry} {first next : Nat} (h : Consecutive seq first next)
    (frame : RunFrame) : Consecutive (seq ++ [(next, frame)]) first (next + 1) := by
  have hle := h.le
  refine ⟨h.pos, Nat.le_succ_of_le hle, ?_⟩
  rw [List.map_append, h.numbers, Nat.succ_sub hle, List.range'_concat]
  simp [Nat.add_sub_cancel' hle]

theorem Consecutive.trim {seq : List Entry} {first next : Nat} (h : Consecutive seq first next) :
    Consecutive (trim first seq).1 (trim first seq).2 next := by
  induction seq generalizing first with
  | nil => exact h
  | cons entry rest ih =>
    unfold Daemon.trim
    split
    · have hnumbers := h.numbers
      have hlt : first < next := by
        have hlength := congrArg List.length hnumbers
        simp at hlength
        omega
      rw [show next - first = next - (first + 1) + 1 by omega, List.range'_succ,
        List.map_cons] at hnumbers
      exact ih ⟨Nat.le_succ_of_le h.pos, hlt, (List.cons.inj hnumbers).2⟩
    · exact h

/-- What is left was there. -/
theorem mem_trim {seq : List Entry} {first : Nat} {entry : Entry} (h : entry ∈ (trim first seq).1) :
    entry ∈ seq := by
  induction seq generalizing first with
  | nil => exact h
  | cons head rest ih =>
    unfold trim at h
    split at h
    · exact List.mem_cons_of_mem _ (ih h)
    · exact h

/-! ## The frames of every run -/

namespace Frames

def new : Frames := ⟨[], 1, 1, ⟨Nat.le_refl 1, Nat.le_refl 1, rfl⟩⟩

/-- `push`: a frame that is not taken in is a new entry. -/
def push (f : Frames) (frame : RunFrame) : Frames :=
  match h : coalesce f.seq frame with
  | some seq =>
    { f with
      seq
      consecutive := by
        obtain ⟨_, _, _, hr, -⟩ := coalesce_cases h
        exact f.consecutive.rewritten hr }
  | none =>
    { seq := (trim f.first (f.seq ++ [(f.next, frame)])).1
      next := f.next + 1
      first := (trim f.first (f.seq ++ [(f.next, frame)])).2
      consecutive := (f.consecutive.concat frame).trim }

/-- `frames_since`: from this number on, and how many before it are gone. -/
def since (f : Frames) (n : Nat) : List Entry × Nat :=
  (f.seq.filter (n ≤ ·.1), if 0 < n ∧ n < f.first then f.first - n else 0)

variable {f : Frames}

/-- What a push does: the newest entry is rewritten, the line of a tool call is
replaced, or there is an entry more and some old ones less. -/
theorem push_cases (f : Frames) (frame : RunFrame) :
    ((f.push frame).next = f.next ∧ (f.push frame).first = f.first ∧
      ∃ n old new, Rewritten f.seq (f.push frame).seq n old new ∧
        (f.seq.getLast? = some (n, old) ∨
          ∃ id, isTool id (n, frame) ∧ f.seq.find? (isTool id) = some (n, old) ∧ new = frame)) ∨
    ((f.push frame).next = f.next + 1 ∧
      ∀ entry ∈ (f.push frame).seq, entry ∈ f.seq ∨ entry = (f.next, frame)) := by
  unfold push
  split
  · rename_i seq h
    exact .inl ⟨rfl, rfl, coalesce_cases h⟩
  · refine .inr ⟨rfl, fun entry hentry => ?_⟩
    simpa using mem_trim hentry

theorem lt_next {n : Nat} {frame : RunFrame} (h : (n, frame) ∈ f.seq) : f.first ≤ n ∧ n < f.next := by
  have hn : n ∈ f.seq.map Prod.fst := List.mem_map_of_mem h
  have hle := f.consecutive.le
  rw [f.consecutive.numbers, List.mem_range'_1] at hn
  omega

theorem exists_mem {n : Nat} (hfirst : f.first ≤ n) (hnext : n < f.next) :
    ∃ frame, (n, frame) ∈ f.seq := by
  have hn : n ∈ f.seq.map Prod.fst := by
    rw [f.consecutive.numbers, List.mem_range'_1]
    omega
  obtain ⟨⟨n', frame⟩, hmem, rfl⟩ := List.mem_map.mp hn
  exact ⟨frame, hmem⟩

theorem numbers_nodup (f : Frames) : (f.seq.map Prod.fst).Nodup := by
  rw [f.consecutive.numbers]
  exact List.nodup_range'

/-- The newest entry has the number before the next. -/
theorem getLast_number {n : Nat} {frame : RunFrame} (h : f.seq.getLast? = some (n, frame)) :
    n + 1 = f.next := by
  have hlast : (f.seq.map Prod.fst).getLast? = some n := by simp [h]
  have hmem := lt_next (List.mem_of_getLast? h)
  rw [f.consecutive.numbers, List.getLast?_range'] at hlast
  split at hlast
  · cases hlast
  · have hn := Option.some.inj hlast
    omega

end Frames

/-- The frames of every run. -/
abbrev Output := OrderedMap String Frames

namespace Output

def frames (output : Output) (run : String) : Frames := (output.get? run).getD .new

def push (output : Output) (run : String) (frame : RunFrame) : Output :=
  output.insert run ((output.frames run).push frame)

/-- `ControlPlane::frames_since`. -/
def framesSince (output : Output) (run : String) (since : Nat) : List Entry × Nat :=
  match output.get? run with
  | none => ([], 0)
  | some f => f.since since

theorem frames_push (output : Output) (run other : String) (frame : RunFrame) :
    (output.push run frame).frames other =
      if run = other then (output.frames run).push frame else output.frames other := by
  rw [frames, push, OrderedMap.get?_insert]
  split <;> rfl

/-- A run that has said nothing is a run with no frames. -/
theorem framesSince_eq (output : Output) (run : String) (since : Nat) :
    output.framesSince run since = (output.frames run).since since := by
  unfold framesSince frames
  cases output.get? run with
  | none => simp [Frames.since, Frames.new]; omega
  | some f => rfl

end Output

/-! ## A window -/

/-- What a window holds of the run it watches. -/
structure RunProjection where
  frames : OrderedMap Nat RunFrame
  latest : Nat

namespace RunProjection

def new : RunProjection := ⟨OrderedMap.empty, 0⟩

/-- What the next poll asks from. -/
def since (p : RunProjection) : Nat := p.latest

/-- `apply`, to the frames of an answer. -/
def apply (p : RunProjection) (entries : List Entry) : RunProjection :=
  entries.foldl (fun p (n, frame) => ⟨p.frames.insert n frame, max p.latest n⟩) p

theorem apply_of_notMem {p : RunProjection} {entries : List Entry} {n : Nat}
    (h : n ∉ entries.map Prod.fst) : (p.apply entries).frames.get? n = p.frames.get? n := by
  induction entries generalizing p with
  | nil => rfl
  | cons entry rest ih =>
    simp only [List.map_cons, List.mem_cons, not_or] at h
    obtain ⟨hne, hrest⟩ := h
    rw [apply, List.foldl_cons]
    refine (ih hrest).trans ?_
    rw [OrderedMap.get?_insert, if_neg (Ne.symm hne)]

theorem apply_of_mem {p : RunProjection} {entries : List Entry} {n : Nat} {frame : RunFrame}
    (hnodup : (entries.map Prod.fst).Nodup) (h : (n, frame) ∈ entries) :
    (p.apply entries).frames.get? n = some frame := by
  induction entries generalizing p with
  | nil => cases h
  | cons entry rest ih =>
    obtain ⟨hfirst, hrest⟩ := List.nodup_cons.mp hnodup
    rw [apply, List.foldl_cons]
    rcases List.mem_cons.mp h with heq | hmem
    · obtain rfl := heq
      refine (apply_of_notMem hfirst).trans ?_
      rw [OrderedMap.get?_insert_self]
    · exact ih hrest hmem

theorem latest_apply {p : RunProjection} (entries : List Entry) :
    p.latest ≤ (p.apply entries).latest ∧ (∀ entry ∈ entries, entry.1 ≤ (p.apply entries).latest) ∧
      ((p.apply entries).latest = p.latest ∨
        (p.apply entries).latest ∈ entries.map Prod.fst) := by
  induction entries generalizing p with
  | nil => exact ⟨Nat.le_refl _, by simp, .inl rfl⟩
  | cons entry rest ih =>
    obtain ⟨hle, hall, hcases⟩ := @ih ⟨p.frames.insert entry.1 entry.2, max p.latest entry.1⟩
    simp only [apply, List.foldl_cons, List.mem_cons, List.map_cons] at hle hall hcases ⊢
    refine ⟨by omega, ?_, ?_⟩
    · rintro e (rfl | he)
      · omega
      · exact hall e he
    · rcases hcases with heq | hmem
      · rcases Nat.le_total p.latest entry.1 with h | h
        · exact .inr (.inl (by omega))
        · exact .inl (by omega)
      · exact .inr (.inr hmem)

end RunProjection

/-- The frames of every run, a window on one of them, and the gaps the window was told
of: where it asked from, and how many entries were gone. -/
structure Watching where
  output : Output
  window : RunProjection
  told : List (Nat × Nat)

/-- A frame of some run, or a poll of the window. -/
inductive Action
  | push (run : String) (frame : RunFrame)
  | poll
  deriving DecidableEq, Repr

namespace Watching

def start : Watching := ⟨OrderedMap.empty, .new, []⟩

def step (watched : String) (w : Watching) : Action → Watching
  | .push run frame => { w with output := w.output.push run frame }
  | .poll =>
    let (entries, dropped) := w.output.framesSince watched w.window.since
    { w with
      window := w.window.apply entries
      told := if dropped > 0 then w.told ++ [(w.window.since, dropped)] else w.told }

def after (watched : String) (actions : List Action) : Watching := actions.foldl (step watched) start

/-- The watched run's frames. -/
def held (watched : String) (w : Watching) : Frames := w.output.frames watched

/-- The window was told of a gap over this number. -/
def Told (w : Watching) (n : Nat) : Prop := ∃ gap ∈ w.told, gap.1 ≤ n ∧ n < gap.1 + gap.2

/-- The window has what the server has, and knows what it missed. -/
structure Converged (watched : String) (w : Watching) : Prop where
  current : ∀ n frame, (n, frame) ∈ (w.held watched).seq → w.window.frames.get? n = some frame
  reported : ∀ n, 1 ≤ n → n < (w.held watched).next → w.window.frames.get? n = none → w.Told n

end Watching

open Watching

/-- A step that leaves the window able to catch up: no tool line below the newest entry it
has is replaced by another, and it does not poll for the first time with entries gone. -/
def keepsUp (watched : String) (w : Watching) : Action → Bool
  | .push run (.tool id verb target state summary) =>
    match (w.held watched).seq.find? (isTool id) with
    | some (n, old) =>
      run ≠ watched ∨ w.window.latest ≤ n ∨ old = .tool id verb target state summary
    | none => true
  | .push _ _ => true
  | .poll => w.window.latest ≠ 0 ∨ (w.held watched).first = 1

/-- Every step of the history is such a step. -/
def timely (watched : String) (w : Watching) : List Action → Bool
  | [] => true
  | action :: rest => keepsUp watched w action && timely watched (w.step watched action) rest

variable {watched : String}

/-- Between polls: what the window has below its newest entry is current, and what it
has not below that it was told of. -/
structure Following (watched : String) (w : Watching) : Prop where
  latest_lt : w.window.latest < (w.held watched).next
  current : ∀ n frame, (n, frame) ∈ (w.held watched).seq → n < w.window.latest →
    w.window.frames.get? n = some frame
  reported : ∀ n, 1 ≤ n → n < w.window.latest → w.window.frames.get? n = none → w.Told n

/-- A frame is taken in at or above the window's newest entry, or changes nothing there. -/
theorem Following.push {w : Watching} (h : Following watched w) (run : String) (frame : RunFrame)
    (htimely : run = watched → ∀ id n old, isTool id (n, frame) →
      (w.held watched).seq.find? (isTool id) = some (n, old) → n < w.window.latest → old = frame) :
    Following watched (w.step watched (.push run frame)) := by
  have hheld : (w.step watched (.push run frame)).held watched =
      if run = watched then (w.held watched).push frame else w.held watched := by
    refine (Output.frames_push w.output run watched frame).trans ?_
    split
    · rename_i hrun
      rw [hrun]
      rfl
    · rfl
  by_cases hrun : run = watched
  · rw [if_pos hrun] at hheld
    have hlatest := h.latest_lt
    rcases (w.held watched).push_cases frame with
      ⟨hnext, -, n, old, new, hr, hwhere⟩ | ⟨hnext, hmem⟩
    · refine ⟨by rw [hheld, hnext]; exact hlatest, fun m f hm hlt => ?_, h.reported⟩
      rw [hheld] at hm
      rcases hr.cases hm with hold | hnew
      · exact h.current m f hold hlt
      · cases hnew
        rcases hwhere with hlast | ⟨id, htool, hfind, rfl⟩
        · have hn := Frames.getLast_number hlast
          simp only [step] at hlt
          omega
        · obtain rfl := htimely hrun id n old htool hfind hlt
          exact h.current n old hr.mem hlt
    · refine ⟨by rw [hheld, hnext]; exact Nat.lt_succ_of_lt hlatest, fun m f hm hlt => ?_, h.reported⟩
      rw [hheld] at hm
      rcases hmem _ hm with hold | hnew
      · exact h.current m f hold hlt
      · cases hnew
        exact absurd hlt (Nat.lt_asymm hlatest)
  · rw [if_neg hrun] at hheld
    refine ⟨by rw [hheld]; exact h.latest_lt, fun m f hm hlt => ?_, h.reported⟩
    rw [hheld] at hm
    exact h.current m f hm hlt

variable (watched) in
/-- What a poll leaves of the window, the frames and the gaps told. -/
theorem step_poll (w : Watching) :
    (w.step watched .poll).held watched = w.held watched ∧
      (w.step watched .poll).window =
        w.window.apply (((w.held watched).seq).filter (w.window.latest ≤ ·.1)) ∧
      (∀ n, w.Told n → (w.step watched .poll).Told n) ∧
      (0 < w.window.latest → ∀ n, w.window.latest ≤ n → n < (w.held watched).first →
        (w.step watched .poll).Told n) := by
  have hsince := Output.framesSince_eq w.output watched w.window.since
  refine ⟨rfl, ?_, fun n hn => ?_, fun hpos n hle hlt => ?_⟩
  · simp only [step, hsince]
    rfl
  · obtain ⟨gap, hgap, hn⟩ := hn
    refine ⟨gap, ?_, hn⟩
    simp only [step]
    split
    · exact List.mem_append_left _ hgap
    · exact hgap
  · have hdropped : (w.output.framesSince watched w.window.since).2 =
        (w.held watched).first - w.window.latest := by
      have hbehind : w.window.latest < (w.held watched).first := by omega
      rw [hsince]
      exact if_pos ⟨hpos, hbehind⟩
    refine ⟨(w.window.latest, (w.held watched).first - w.window.latest), ?_, hle, by omega⟩
    simp only [step, hdropped]
    rw [if_pos (by omega)]
    exact List.mem_append_right _ List.mem_cons_self

/-- A poll brings the window up to date. -/
theorem Following.poll {w : Watching} (h : Following watched w)
    (htimely : w.window.latest = 0 → (w.held watched).first = 1) :
    Converged watched (w.step watched .poll) ∧ Following watched (w.step watched .poll) := by
  obtain ⟨hheld, hwindow, htold, hgap⟩ := step_poll watched w
  have hnodup : (((w.held watched).seq.filter (w.window.latest ≤ ·.1)).map Prod.fst).Nodup :=
    ((w.held watched).numbers_nodup).sublist (List.filter_sublist.map _)
  have hcurrent : ∀ n frame, (n, frame) ∈ (w.held watched).seq →
      (w.step watched .poll).window.frames.get? n = some frame := by
    intro n frame hmem
    rw [hwindow]
    by_cases hle : w.window.latest ≤ n
    · exact RunProjection.apply_of_mem hnodup (List.mem_filter.mpr ⟨hmem, by simpa using hle⟩)
    · refine (RunProjection.apply_of_notMem fun hn => ?_).trans
        (h.current n frame hmem (Nat.lt_of_not_le hle))
      obtain ⟨entry, hentry, rfl⟩ := List.mem_map.mp hn
      exact hle (by simpa using (List.mem_filter.mp hentry).2)
  -- what was not received was below the newest entry before, or has been dropped since
  have hreported : ∀ n, 1 ≤ n → n < (w.held watched).next →
      (w.step watched .poll).window.frames.get? n = none → (w.step watched .poll).Told n := by
    intro n hpos hnext hnone
    have hdropped : n < (w.held watched).first := by
      by_contra hfirst
      obtain ⟨frame, hmem⟩ := Frames.exists_mem (Nat.le_of_not_lt hfirst) hnext
      rw [hcurrent n frame hmem] at hnone
      cases hnone
    by_cases hlt : n < w.window.latest
    · refine htold n (h.reported n hpos hlt ?_)
      rw [hwindow] at hnone
      refine (RunProjection.apply_of_notMem fun hn => ?_).symm.trans hnone
      obtain ⟨entry, hentry, rfl⟩ := List.mem_map.mp hn
      have hle : w.window.latest ≤ entry.1 := by simpa using (List.mem_filter.mp hentry).2
      omega
    · have hlatest : 0 < w.window.latest := by
        by_contra hzero
        have hfirst := htimely (by omega)
        omega
      exact hgap hlatest n (Nat.le_of_not_lt hlt) hdropped
  have hlatest : (w.step watched .poll).window.latest < (w.held watched).next := by
    obtain ⟨-, -, hcases⟩ := w.window.latest_apply ((w.held watched).seq.filter (w.window.latest ≤ ·.1))
    rw [hwindow]
    rcases hcases with heq | hmem
    · rw [heq]
      exact h.latest_lt
    · obtain ⟨entry, hentry, hnumber⟩ := List.mem_map.mp hmem
      have hnext := (Frames.lt_next (List.mem_filter.mp hentry).1).2
      omega
  refine ⟨⟨hcurrent, hreported⟩, ⟨hlatest, fun n frame hmem _ => hcurrent n frame hmem, ?_⟩⟩
  exact fun n hpos hlt => hreported n hpos (Nat.lt_trans hlt hlatest)

theorem keepsUp_push {w : Watching} {frame : RunFrame}
    (h : keepsUp watched w (.push watched frame) = true) (id n : Nat) (old : RunFrame)
    (htool : isTool id (n, frame)) (hfind : (w.held watched).seq.find? (isTool id) = some (n, old))
    (hlt : n < w.window.latest) : old = frame := by
  cases frame with
  | tool other verb target state summary =>
    obtain rfl : other = id := by simpa [isTool] using htool
    simp only [keepsUp, hfind, decide_eq_true_eq, ne_eq, not_true, false_or] at h
    exact h.resolve_left (Nat.not_le_of_lt hlt)
  | _ => cases htool

/-- A step that keeps up keeps the window following. -/
theorem Following.step {w : Watching} (h : Following watched w) {action : Action}
    (hup : keepsUp watched w action = true) : Following watched (w.step watched action) := by
  cases action with
  | push run frame =>
    refine h.push run frame fun hrun => ?_
    subst hrun
    exact keepsUp_push hup
  | poll => exact (h.poll (by simpa [keepsUp, imp_iff_not_or] using hup)).2

theorem Following.converges {w : Watching} {actions : List Action} (h : Following watched w)
    (htimely : timely watched w actions = true) {before : List Action}
    (hbefore : before ++ [.poll] <+: actions) :
    Converged watched ((before ++ [Action.poll]).foldl (Watching.step watched) w) := by
  induction before generalizing w actions with
  | nil =>
    obtain ⟨rest, rfl⟩ := hbefore
    obtain ⟨hup, -⟩ := Bool.and_eq_true_iff.mp htimely
    exact (h.poll (by simpa [keepsUp, imp_iff_not_or] using hup)).1
  | cons action before ih =>
    obtain ⟨rest, rfl⟩ := hbefore
    obtain ⟨hup, hrest⟩ := Bool.and_eq_true_iff.mp htimely
    exact ih (h.step hup) hrest ⟨rest, rfl⟩

theorem start_following : Following watched start where
  latest_lt := Nat.zero_lt_one
  current := fun _ _ hmem _ => absurd hmem List.not_mem_nil
  reported := fun _ _ hlt => absurd hlt (Nat.not_lt_zero _)

/-- **After every poll the window shows what the server holds.** For every interleaving
of frames of any runs with polls of one, whose steps let the window catch up. -/
theorem window_converges (watched : String) (actions : List Action)
    (h : timely watched .start actions = true) :
    ∀ before, before ++ [.poll] <+: actions →
      Converged watched (after watched (before ++ [.poll])) :=
  fun _ hbefore => start_following.converges h hbefore

/-! ## A tool line closed behind the window -/

def opened : RunFrame := .tool 7 "read" "notes.md" "running" ""

def closed : RunFrame := .tool 7 "read" "notes.md" "done" "3 lines"

/-- The line closes while it is the newest entry the window has. -/
def closedInTime : List Action := [.push "r" opened, .poll, .push "r" closed, .poll]

/-- The line closes when the window has a newer entry. -/
def closedBehind : List Action :=
  [.push "r" opened, .push "r" (.text "Two notes."), .poll, .push "r" closed, .poll]

theorem window_converges_closedInTime : Converged "r" (after "r" closedInTime) :=
  window_converges "r" closedInTime (by decide) (closedInTime.take 3) List.prefix_rfl

/-- The window never hears that the call is done. -/
theorem closing_unseen : ¬ ∀ (watched : String) (actions before : List Action),
    before ++ [.poll] <+: actions → Converged watched (after watched (before ++ [.poll])) := by
  intro hall
  have hconverged := hall "r" closedBehind (closedBehind.take 4) ⟨[], rfl⟩
  have hheld : (1, closed) ∈ ((after "r" closedBehind).held "r").seq := by decide
  have hshown : (after "r" closedBehind).window.frames.get? 1 = some opened := by decide
  have hcurrent := hconverged.current 1 closed hheld
  rw [show closedBehind.take 4 ++ [.poll] = closedBehind from rfl, hshown] at hcurrent
  exact absurd hcurrent (by decide)

end MarloweAgent.Daemon
