import MarloweAgent.Daemon.Alignment

/-! The two surfaces of a run. Each event goes to the conversation's client, which folds what
came since it last looked, and as a frame into the ring a window polls. -/

namespace MarloweAgent.Daemon
open Library Loop Tools View

/-- An event that is a run's own output, with its frame. -/
structure OutputEvent where
  event : Protocol.Event
  frame : RunFrame
  isOutput : toRunFrame event = some frame

/-- An event of the run, a fold of the pane, or a poll of the window. -/
inductive Delivery
  | emit (output : OutputEvent)
  | drain
  | poll

/-- The pane, the events it has not folded yet, and the frames with the window on them. -/
structure Surfaces where
  pane : SessionView
  pending : List Protocol.Event
  watching : Watching

namespace Surfaces

variable (sayable : String → String) (run : String)

/-- A conversation with nothing in it, and a window just opened. -/
def start (view : SessionView) : Surfaces :=
  { pane := { view with transcript := [] }
    pending := []
    watching := .start }

def step (s : Surfaces) : Delivery → Surfaces
  | .emit output =>
    { s with
      pending := s.pending ++ [output.event]
      watching := s.watching.step run (.push run output.frame) }
  | .drain => { s with pane := applyEvents sayable s.pane s.pending, pending := [] }
  | .poll => { s with watching := s.watching.step run .poll }

def after (s : Surfaces) (deliveries : List Delivery) : Surfaces :=
  deliveries.foldl (step sayable run) s

theorem after_append (s : Surfaces) (a b : List Delivery) :
    s.after sayable run (a ++ b) = (s.after sayable run a).after sayable run b :=
  List.foldl_append

/-- The pane with all that was sent. -/
def ahead (s : Surfaces) : SessionView := s.pending.foldl (applyEvent sayable) s.pane

/-- What the ring holds of the run. -/
def ring (s : Surfaces) : Frames := s.watching.held run

/-- What the pane shows. -/
def paneShows (s : Surfaces) : List View.Entry := s.pane.transcript

/-- What the window shows. -/
def windowShows (s : Surfaces) : List View.Entry := s.watching.window.entries

/-- Both surfaces look at the same entry, and the window still hears of it. -/
def inStep (s : Surfaces) : Delivery → Bool
  | .emit output =>
    keepsUp run s.watching (.push run output.frame) &&
      looksSame (s.ahead sayable).transcript (render (s.ring run).output) output.event
  | _ => true

/-- Every delivery is such a one. -/
def allInStep (s : Surfaces) : List Delivery → Bool
  | [] => true
  | d :: rest => inStep sayable run s d && allInStep (step sayable run s d) rest

end Surfaces

/-- The events of the deliveries. -/
def emitted : List Delivery → List Protocol.Event :=
  List.filterMap fun
    | .emit output => some output.event
    | _ => none

/-! ## A window that has caught up -/

/-- Every number the window has is between the first there is and its newest. -/
def NumbersHeld (w : Watching) : Prop :=
  ∀ n frame, w.window.frames.get? n = some frame → 1 ≤ n ∧ n ≤ w.window.latest

variable {run : String}

theorem NumbersHeld.poll {w : Watching} (h : NumbersHeld w) : NumbersHeld (w.step run .poll) := by
  obtain ⟨-, hwindow, -, -⟩ := step_poll run w
  intro n frame hget
  rw [hwindow] at hget ⊢
  obtain ⟨hlatest, hall, -⟩ := w.window.latest_apply
    ((w.held run).seq.filter (w.window.latest ≤ ·.1))
  by_cases hn : n ∈ ((w.held run).seq.filter (w.window.latest ≤ ·.1)).map Prod.fst
  · obtain ⟨entry, hentry, rfl⟩ := List.mem_map.mp hn
    have hfirst := (Frames.lt_next (List.mem_filter.mp hentry).1).1
    have hpos := (w.held run).consecutive.pos
    exact ⟨by omega, hall entry hentry⟩
  · rw [RunProjection.apply_of_notMem hn] at hget
    obtain ⟨hpos, hle⟩ := h n frame hget
    exact ⟨hpos, by omega⟩

/-- After a poll the window draws what the ring holds, when the ring dropped nothing. -/
theorem entries_poll {w : Watching} (hfollowing : Following run w) (hnumbers : NumbersHeld w)
    (hroom : (w.held run).first = 1) :
    (w.step run .poll).window.entries =
      closeFinishedReasoning false (render (w.held run).output) := by
  obtain ⟨hheld, -, -, -⟩ := step_poll run w
  obtain ⟨hconverged, hafter⟩ := hfollowing.poll fun _ => hroom
  have hcurrent := hconverged.current
  have hlatest := hafter.latest_lt
  have hheldNumbers : NumbersHeld (w.step run .poll) := hnumbers.poll
  rw [hheld] at hcurrent hlatest
  have hsorted : (w.held run).seq.Pairwise (fun a b => a.1 < b.1) := by
    refine List.pairwise_map.mp ?_
    rw [(w.held run).consecutive.numbers]
    exact List.pairwise_lt_range'
  have hbindings := (w.step run .poll).window.frames.bindings_eq hsorted fun n frame => by
    refine ⟨fun hget => ?_, hcurrent n frame⟩
    obtain ⟨hpos, hle⟩ := hheldNumbers n frame hget
    obtain ⟨held, hmem⟩ := (w.held run).exists_mem (n := n) (by omega) (by omega)
    rw [hcurrent n held hmem] at hget
    rwa [← Option.some.inj hget]
  rw [RunProjection.entries, OrderedMap.values, hbindings]
  rfl

/-! ## A run -/

/-- The surfaces between deliveries: the window follows the ring, the pane with all that was sent
and the drawing of the ring say the same, and hold what is shown. -/
structure Together (sayable : String → String) (run : String) (s : Surfaces)
    (told : List ToolCall) : Prop where
  following : Following run s.watching
  numbers : NumbersHeld s.watching
  aligned : Aligned (s.ahead sayable).transcript (s.ring run).output told
  paneHeld : Keeps s.paneShows (s.ahead sayable).transcript
  windowHeld : Keeps s.windowShows (render (s.ring run).output)

variable {sayable : String → String} {s : Surfaces} {told : List ToolCall}

variable (sayable run)

theorem ring_emit (s : Surfaces) (output : OutputEvent) :
    (s.step sayable run (.emit output)).ring run = (s.ring run).push output.frame := by
  have hframes := Output.frames_push s.watching.output run run output.frame
  rwa [if_pos rfl] at hframes

theorem first_le_step (s : Surfaces) (d : Delivery) :
    (s.ring run).first ≤ ((s.step sayable run d).ring run).first := by
  cases d with
  | emit output =>
    rw [ring_emit]
    exact Frames.first_le_push _ _
  | drain => exact Nat.le_refl _
  | poll => exact Nat.le_of_eq (congrArg Frames.first (step_poll run s.watching).1.symm)

theorem first_le_after (s : Surfaces) (deliveries : List Delivery) :
    (s.ring run).first ≤ ((s.after sayable run deliveries).ring run).first := by
  induction deliveries generalizing s with
  | nil => exact Nat.le_refl _
  | cons d rest ih =>
    exact Nat.le_trans (first_le_step run sayable s d) (ih (s.step sayable run d))

variable {sayable run}

/-- A delivery in step keeps the surfaces together, and takes nothing off either. -/
theorem Together.step (h : Together sayable run s told) {d : Delivery}
    (hin : s.inStep sayable run d) (hroom : ((s.step sayable run d).ring run).first = 1) :
    Together sayable run (s.step sayable run d) ((emitted [d]).foldl tell told) ∧
      Keeps s.paneShows (s.step sayable run d).paneShows ∧
      Keeps s.windowShows (s.step sayable run d).windowShows := by
  have hpos := (s.ring run).consecutive.pos
  have hfirst := first_le_step run sayable s d
  cases d with
  | emit output =>
    obtain ⟨hkeepsUp, hlooks⟩ := Bool.and_eq_true_iff.mp hin
    have hring := ring_emit run sayable s output
    have htaken : ((s.ring run).push output.frame).output =
        takeIn output.frame (s.ring run).output :=
      Frames.output_push (by rw [hring] at hroom hfirst; omega)
    have hahead : ((s.step sayable run (.emit output)).ahead sayable).transcript =
        transcriptAfter output.event (s.ahead sayable).transcript := by
      rw [← transcript_applyEvent sayable]
      simp [Surfaces.ahead, Surfaces.step]
    refine ⟨{
      following := h.following.step hkeepsUp
      numbers := h.numbers
      aligned := ?_
      paneHeld := ?_
      windowHeld := ?_ }, .refl _, .refl _⟩
    · rw [hahead, hring, htaken]
      exact h.aligned.step output.isOutput hlooks
    · rw [hahead]
      exact h.paneHeld.trans (transcriptAfter_keeps output.isOutput _)
    · rw [hring, htaken]
      exact h.windowHeld.trans (h.aligned.drawn_keeps output.isOutput hlooks)
  | drain =>
    have hswept : Keeps (s.ahead sayable).transcript
        (closeFinishedReasoning false (s.ahead sayable).transcript) :=
      .of_eq (pieces.of_closeFinished false _)
    exact ⟨{
      following := h.following
      numbers := h.numbers
      aligned := h.aligned.swept
      paneHeld := .refl _
      windowHeld := h.windowHeld }, h.paneHeld.trans hswept, .refl _⟩
  | poll =>
    have hheld : (s.step sayable run .poll).ring run = s.ring run := (step_poll run s.watching).1
    rw [hheld] at hroom
    have hshows : (s.step sayable run .poll).windowShows =
        closeFinishedReasoning false (render (s.ring run).output) :=
      entries_poll h.following h.numbers hroom
    refine ⟨{
      following := (h.following.poll fun _ => hroom).2
      numbers := h.numbers.poll
      aligned := by rw [hheld]; exact h.aligned
      paneHeld := h.paneHeld
      windowHeld := ?_ }, .refl _, ?_⟩
    · rw [hshows, hheld]
      exact .of_eq (pieces.of_closeFinished false _).symm
    · rw [hshows]
      exact h.windowHeld.trans (.of_eq (pieces.of_closeFinished false _))

theorem Together.runs (h : Together sayable run s told) {deliveries : List Delivery}
    (hin : s.allInStep sayable run deliveries)
    (hroom : ((s.after sayable run deliveries).ring run).first = 1) :
    Together sayable run (s.after sayable run deliveries)
        ((emitted deliveries).foldl tell told) ∧
      ∀ before d rest, deliveries = before ++ d :: rest →
        Keeps (s.after sayable run before).paneShows (s.after sayable run (before ++ [d])).paneShows ∧
          Keeps (s.after sayable run before).windowShows
            (s.after sayable run (before ++ [d])).windowShows := by
  induction deliveries generalizing s told with
  | nil => exact ⟨h, fun before d rest hsplit => by simp at hsplit⟩
  | cons d rest ih =>
    obtain ⟨hd, hrest⟩ := Bool.and_eq_true_iff.mp hin
    have hfirst : ((s.step sayable run d).ring run).first = 1 := by
      have hpos := ((s.step sayable run d).ring run).consecutive.pos
      have hle := first_le_after run sayable (s.step sayable run d) rest
      have hlast : (((s.step sayable run d).after sayable run rest).ring run).first = 1 := hroom
      omega
    obtain ⟨hstep, hpane, hwindow⟩ := h.step hd hfirst
    obtain ⟨htogether, hkeeps⟩ := ih hstep hrest hroom
    refine ⟨?_, fun before d' rest' hsplit => ?_⟩
    · have hemitted : emitted (d :: rest) = emitted [d] ++ emitted rest :=
        List.filterMap_append (l := [d])
      rw [hemitted, List.foldl_append]
      exact htogether
    · cases before with
      | nil =>
        cases hsplit
        exact ⟨hpane, hwindow⟩
      | cons first before =>
        cases hsplit
        exact hkeeps before d' rest' rfl

theorem start_together (view : SessionView) : Together sayable run (.start view) [] where
  following := start_following
  numbers := fun _ _ hget => by cases hget
  aligned := ⟨rfl, rfl, rfl, rfl, List.nodup_nil⟩
  paneHeld := .refl _
  windowHeld := .refl _

/-- Both surfaces, brought up to date: the same text classified alike in one order, and the same
lines, each in the last state told of its call. -/
structure Agree (s : Surfaces) (told : List ToolCall) : Prop where
  text : prose.of s.paneShows = prose.of s.windowShows
  lines : lines.of s.paneShows = lines.of s.windowShows
  last : Daemon.lines.of s.paneShows = told

theorem Together.agree (h : Together sayable run s told) (hroom : (s.ring run).first = 1) :
    Agree (s.after sayable run [.drain, .poll]) told := by
  have hpane : (s.after sayable run [.drain, .poll]).paneShows =
      closeFinishedReasoning false (s.ahead sayable).transcript := rfl
  have hwindow : (s.after sayable run [.drain, .poll]).windowShows =
      closeFinishedReasoning false (render (s.ring run).output) :=
    entries_poll h.following h.numbers hroom
  constructor
  · rw [hpane, hwindow, prose.of_closeFinished, prose.of_closeFinished, h.aligned.text]
  · rw [hpane, hwindow, lines.of_closeFinished, lines.of_closeFinished, h.aligned.pane,
      h.aligned.window]
  · rw [hpane, lines.of_closeFinished, h.aligned.pane]

/-- One state, two renderings: brought up to date the surfaces agree, and no delivery took
anything off either. -/
def OneState (sayable : String → String) (run : String) (view : SessionView)
    (deliveries : List Delivery) : Prop :=
  let reached (ds : List Delivery) := (Surfaces.start view).after sayable run ds
  Agree (reached (deliveries ++ [.drain, .poll])) ((emitted deliveries).foldl tell []) ∧
    ∀ before d rest, deliveries = before ++ d :: rest →
      Keeps (reached before).paneShows (reached (before ++ [d])).paneShows ∧
        Keeps (reached before).windowShows (reached (before ++ [d])).windowShows

/-- **When every tool line and every retraction finds both surfaces looking at the same entry,
they show one state**, whatever the batches and the polls. -/
theorem surfaces_agree (sayable : String → String) (run : String) (view : SessionView)
    (deliveries : List Delivery)
    (hroom : (((Surfaces.start view).after sayable run deliveries).ring run).first = 1)
    (hin : (Surfaces.start view).allInStep sayable run deliveries = true) :
    OneState sayable run view deliveries := by
  obtain ⟨htogether, hkeeps⟩ := (start_together view).runs hin hroom
  have hagree := htogether.agree hroom
  rw [← Surfaces.after_append] at hagree
  exact ⟨hagree, hkeeps⟩

/-! ## A line closed where it stands, and after speech -/

def callOpens : OutputEvent := ⟨.tool 7 "read" "notes.md" "running" "" none, _, rfl⟩

def callCloses : OutputEvent := ⟨.tool 7 "read" "notes.md" "ok" "3 lines" none, _, rfl⟩

def speaks : OutputEvent := ⟨.text "Two notes.", _, rfl⟩

theorem surfaces_agree_closedInPlace :
    OneState id "r" .blank [.emit callOpens, .drain, .emit callCloses, .poll, .emit speaks] :=
  surfaces_agree id "r" .blank [.emit callOpens, .drain, .emit callCloses, .poll, .emit speaks]
    rfl rfl

/-- The pane gives the call a second line. -/
theorem closed_after_speech : ¬ ∀ (sayable : String → String) (run : String) (view : SessionView)
    (deliveries : List Delivery),
    (((Surfaces.start view).after sayable run deliveries).ring run).first = 1 →
      OneState sayable run view deliveries := by
  intro hall
  have hlines := (hall id "r" .blank [.emit callOpens, .emit speaks, .emit callCloses] rfl).1.lines
  exact absurd (congrArg List.length hlines) (by decide)

end MarloweAgent.Daemon
