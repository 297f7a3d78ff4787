import MarloweAgent.Daemon.Roster
import MarloweAgent.Library.Mailbox
import MarloweAgent.Loop.Drive
import MarloweAgent.Loop.Script

/-! The control plane between its two threads. Requests queue steers and mark runs as
cancelled; the loop of a run asks for both at the top of each iteration. What a run's queue
hands out is what was admitted for it, in order, and it is empty at the run's end exactly
when enough iterations followed. -/

namespace MarloweAgent.Daemon
open Contract EventLog Library Loop

/-! ## The durable control -/

inductive ResumeError
  | noCheckpoint (run : RunId)
  | unknownVersion (run : RunId) (found expected : Nat)
  | terminated (run : RunId)
  | alreadyFinished (run : RunId) (status : String)
  deriving DecidableEq, Repr

def ResumeError.render : ResumeError → String
  | noCheckpoint run =>
    "run " ++ toString run ++ " has no checkpoint in the journal. Either it never ran under a "
      ++ "durable control, or it ended before its first step completed"
  | unknownVersion run found expected =>
    "run " ++ toString run ++ "'s checkpoint is version " ++ toString found
      ++ " and this build writes version " ++ toString expected ++ ". It is refused rather than "
      ++ "read with defaults: every field this build would default is a security property, and "
      ++ "the default of each one is its permissive value"
  | terminated run =>
    "run " ++ toString run ++ " was cancelled and will not resume. A run whose parent ended under "
      ++ "`OrphanPolicy::Terminate` is cancelled, and that is the policy taking effect rather "
      ++ "than a fault"
  | alreadyFinished run status =>
    "run " ++ toString run ++ " already finished (" ++ status
      ++ "); there is no step after its last one"

namespace ControlPlane

/-- `take_steer`: the oldest steer queued for this run. -/
def takeSteer (plane : ControlPlane) (run : RunId) : Option SteerMessage × ControlPlane :=
  match plane.steers.get? run with
  | some (message :: rest) => (some message, { plane with steers := plane.steers.insert run rest })
  | _ => (none, plane)

/-- `resume`: the run's last checkpoint, unless it ended there; its cancellation is forgotten. -/
def resume (plane : ControlPlane) (run : RunId) : Except ResumeError Checkpoint × ControlPlane :=
  match plane.latest run with
  | none => (.error (.noCheckpoint run), plane)
  | some cp =>
    if cp.version ≠ checkpointVersion then
      (.error (.unknownVersion run cp.version checkpointVersion), plane)
    else
      match cp.status with
      | .cancelled => (.error (.terminated run), plane)
      | .completed => (.error (.alreadyFinished run "completed"), plane)
      | .failed error => (.error (.alreadyFinished run ("failed: " ++ error)), plane)
      | _ => (.ok cp, { plane with cancelled := plane.cancelled.filter (· ≠ run) })

/-- The steers queued for a run. -/
def queued (plane : ControlPlane) (run : RunId) : List SteerMessage :=
  (plane.steers.get? run).getD []

/-- A steer is refused and the plane stands, or it is the last of its run's queue. -/
theorem steer_cases (shown : RunStatus → String) (now : Int) (plane : ControlPlane) (run : RunId)
    (text : String) :
    (∃ why, plane.steer shown now run text = (.error why, plane)) ∨
      ∃ message detail, admitSteer text .advisory = .ok message ∧
        plane.steer shown now run text =
          (.ok detail,
            { plane with steers := plane.steers.insert run (plane.queued run ++ [message]) }) := by
  unfold steer
  cases ((plane.runs.get? run).map RunSummary.status).filter
      (· ∈ ["completed", "failed", "cancelled"]) with
  | some status => exact .inl ⟨_, rfl⟩
  | none =>
    cases hmessage : admitSteer text .advisory with
    | error refused => exact .inl ⟨_, rfl⟩
    | ok message => exact .inr ⟨message, _, rfl, rfl⟩

/-- An empty queue hands out nothing; another, its oldest. -/
theorem takeSteer_cases (plane : ControlPlane) (run : RunId) :
    (plane.queued run = [] ∧ plane.takeSteer run = (none, plane)) ∨
      ∃ message rest, plane.queued run = message :: rest ∧
        plane.takeSteer run =
          (some message, { plane with steers := plane.steers.insert run rest }) := by
  unfold takeSteer queued
  cases plane.steers.get? run with
  | none => exact .inl ⟨rfl, rfl⟩
  | some waiting =>
    cases waiting with
    | nil => exact .inl ⟨rfl, rfl⟩
    | cons message rest => exact .inr ⟨message, rest, rfl, rfl⟩

/-- A resume is refused and the plane stands, or the run's cancellation is forgotten. -/
theorem resume_cases (plane : ControlPlane) (run : RunId) :
    (∃ why, plane.resume run = (.error why, plane)) ∨
      ∃ cp, plane.resume run =
        (.ok cp, { plane with cancelled := plane.cancelled.filter (· ≠ run) }) := by
  unfold resume
  cases plane.latest run with
  | none => exact .inl ⟨_, rfl⟩
  | some cp =>
    by_cases hversion : cp.version = checkpointVersion
    · cases hstatus : cp.status with
      | cancelled | completed | failed => exact .inl ⟨_, by simp [hversion, hstatus]; rfl⟩
      | queued | running | waitingApproval | waitingEvent | paused => exact .inr ⟨cp, by simp [hversion, hstatus]⟩
    · exact .inl ⟨_, by simp [hversion]; rfl⟩

end ControlPlane

/-- `SharedControl`: the loop's port on the plane. -/
def sharedControl : Control ControlPlane :=
  { cancelled := fun plane run => run ∈ plane.cancelled
    takeSteer := fun run => ⟨fun plane => plane.takeSteer run⟩
    takeInterrupt := pure none }

/-! ## A run's loop -/

/-- A run as its loop holds it, between the places it looks at the plane. -/
structure RunLoop where
  run : Run
  state : SessionState
  provenance : Provenance
  steps : Nat
  contractRetries : Nat
  driving : Bool

namespace RunLoop

/-- A steer enters the history as the user's words. -/
def heard (l : RunLoop) (message : SteerMessage) : RunLoop :=
  { l with
    state := l.state.push (.new .history ("[steer] " ++ message.text) .userAsserted)
    provenance := l.provenance.attributeUserMessage message.text }

def ended (l : RunLoop) (status : RunStatus) : RunLoop :=
  { l with run := { l.run with status }, driving := false }

/-- Taken up from a checkpoint, and driven. -/
def resumed (cp : Checkpoint) : RunLoop :=
  let restored := cp.restore
  { run := { restored.run with status := .running }
    state := restored.state
    provenance := restored.provenance
    steps := restored.steps
    contractRetries := restored.contractRetries
    driving := true }

end RunLoop

section Engine

/-! ### The engine at the top of an iteration -/

variable {ports : Ports ControlPlane} (hports : ports.control = sharedControl)
include hports

/-- The engine stops a cancelled run before anything else. -/
theorem checkCancelled_cancelled {m : Machine ControlPlane} (h : m.run.id ∈ m.env.cancelled) :
    ((checkCancelled ports).run m).1 = .error (.stop .cancelled) ∧
      ((checkCancelled ports).run m).2.run.status = .cancelled := by
  have hstop : (checkCancelled ports).run m = (stopWith do
      let _ ← record ports .runCancelled .empty
      setStatus .cancelled
      pure .cancelled : StepM ControlPlane Unit).run m := by
    unfold checkCancelled
    rw [Fallible.read_bind_run, hports, if_pos (by simpa [sharedControl] using h)]
  rw [hstop]
  exact ⟨rfl, rfl⟩

theorem checkCancelled_running {m : Machine ControlPlane} (h : m.run.id ∉ m.env.cancelled) :
    (checkCancelled ports).run m = (.ok (), m) := by
  unfold checkCancelled
  rw [Fallible.read_bind_run, hports, if_neg (by simpa [sharedControl] using h)]
  rfl

/-- With nothing queued the engine goes on as it was. -/
theorem takeSteer_none {m : Machine ControlPlane} (h : (m.env.takeSteer m.run.id).1 = none) :
    (takeSteer ports).run m = ((), m.withEnv (m.env.takeSteer m.run.id).2) := by
  simp only [takeSteer, Stateful.run_bind, Stateful.run_read, port, hports, sharedControl, h]
  rfl

/-- A queued steer is taken, recorded, and heard. -/
theorem takeSteer_some {m : Machine ControlPlane} {message : SteerMessage}
    (h : (m.env.takeSteer m.run.id).1 = some message) (steps retries : Nat) :
    let taken := m.withEnv (m.env.takeSteer m.run.id).2
    let recorded := ((record ports .steerReceived (.steer message.text)).run taken).2
    let l : RunLoop := ⟨recorded.run, recorded.state, recorded.frame.provenance, steps, retries, true⟩
    (takeSteer ports).run m = ((), (recorded.withProvenance (l.heard message).provenance).withState
      (l.heard message).state) := by
  simp only [takeSteer, Stateful.run_bind, Stateful.run_read, port, hports, sharedControl, h]
  rfl

end Engine

/-! ## The two threads -/

/-- Something that happened between the plane and the loops. -/
inductive Occurrence
  | admitted (run : RunId) (message : SteerMessage)
  | refused (run : RunId) (why : String)
  | cancelAccepted (run : RunId)
  | staged (run : RunId)
  | resumeRefused (run : RunId) (why : ResumeError)
  /-- An iteration got past the check for cancellation, and asked for a steer. -/
  | asked (run : RunId)
  | pushed (run : RunId) (message : SteerMessage)
  | modelCalled (run : RunId)
  | ended (run : RunId) (status : RunStatus)
  deriving DecidableEq, Repr

/-- The plane, the resume it staged, the loops of the runs, and what happened so far. -/
structure World where
  plane : ControlPlane
  resumed : Option Checkpoint
  loops : OrderedMap RunId RunLoop
  log : List Occurrence

/-- A step of either thread: what reaches the plane's table, log and queues; a resume, and the
taking up of what it staged; a run's first drive; one iteration, which may call the model; the
rest of an iteration, which may leave anything of the run; and the run's stop. -/
inductive Move
  | happens (h : Happening)
  | resume (run : RunId)
  | takeResumed
  | start (l : RunLoop)
  | iterate (run : RunId) (calls : Bool)
  | work (run : RunId) (left : RunLoop)
  | stop (run : RunId) (status : RunStatus)

namespace World

/-- A plane with the checkpoints a daemon found, and nothing in memory. -/
def opened (log : List Recorded) : World :=
  { plane := { ControlPlane.new with log }, resumed := none, loops := OrderedMap.empty, log := [] }

/-- The loop of a run that is being driven. -/
def driven (w : World) (run : RunId) : Option RunLoop :=
  (w.loops.get? run).filter RunLoop.driving

section Moves

variable (shown : RunStatus → String) (now : Int)

/-- What a happening says of steers and cancellations. -/
def heardOf (plane : ControlPlane) : Happening → List Occurrence
  | .steer run text =>
    match (plane.steer shown now run text).1, admitSteer text .advisory with
    | .error why, _ => [.refused run why]
    | .ok _, .ok message => [.admitted run message]
    | .ok _, .error _ => []
  | .cancel run => [.cancelAccepted run]
  | _ => []

/-- An iteration may reach its model call. -/
def calling (w : World) (run : RunId) (calls : Bool) : World :=
  if calls then { w with log := w.log ++ [.modelCalled run] } else w

/-- The top of an iteration of a driven run: cancelled, or with the oldest steer heard. -/
def iterate (w : World) (run : RunId) (l : RunLoop) (calls : Bool) : World :=
  if run ∈ w.plane.cancelled then
    { w with
      loops := w.loops.insert run (l.ended .cancelled)
      log := w.log ++ [.ended run .cancelled] }
  else
    match w.plane.takeSteer run with
    | (none, plane) => calling { w with plane, log := w.log ++ [.asked run] } run calls
    | (some message, plane) =>
      let w := { w with plane, loops := w.loops.insert run (l.heard message) }
      calling { w with log := w.log ++ [.asked run, .pushed run message] } run calls

def step (w : World) : Move → World
  | .happens h =>
    { w with plane := w.plane.step shown now h, log := w.log ++ heardOf shown now w.plane h }
  | .resume run =>
    match w.plane.resume run with
    | (.ok cp, plane) => { w with plane, resumed := some cp, log := w.log ++ [.staged run] }
    | (.error why, plane) => { w with plane, log := w.log ++ [.resumeRefused run why] }
  | .takeResumed =>
    match w.resumed with
    | none => w
    | some cp => { w with resumed := none, loops := w.loops.insert cp.run (.resumed cp) }
  | .start l =>
    if (w.loops.get? l.run.id).isSome then w
    else
      let l := { l with run := { l.run with status := .running }, driving := true }
      { w with loops := w.loops.insert l.run.id l }
  | .iterate run calls =>
    match w.driven run with
    | some l => w.iterate run l calls
    | none => w
  | .work run left =>
    match w.driven run with
    | some _ =>
      let l := { left with run := { left.run with id := run, status := .running }, driving := true }
      { w with loops := w.loops.insert run l }
    | none => w
  | .stop run status =>
    match w.driven run with
    | some l =>
      { w with
        loops := w.loops.insert run (l.ended status)
        log := w.log ++ [.ended run status] }
    | none => w

def after (log : List Recorded) (moves : List Move) : World :=
  moves.foldl (step shown now) (opened log)

end Moves

/-- The run has stopped for good. -/
def Terminal (w : World) (run : RunId) : Prop :=
  ∃ l, w.loops.get? run = some l ∧
    (l.run.status = .completed ∨ l.run.status = .cancelled ∨ ∃ error, l.run.status = .failed error)

/-- The steers admitted for a run, and those pushed into its history. -/
def admittedTo (run : RunId) : List Occurrence → List SteerMessage :=
  List.filterMap fun
    | .admitted other message => if other = run then some message else none
    | _ => none

def pushedTo (run : RunId) : List Occurrence → List SteerMessage :=
  List.filterMap fun
    | .pushed other message => if other = run then some message else none
    | _ => none

/-- A run's own steers: every one pushed into its history was admitted for it, in order and
once, and when it has stopped for good none is left. Only a refusal is ever reported, and a
refused steer is not admitted. -/
structure Guided (w : World) (run : RunId) : Prop where
  own : pushedTo run w.log <+: admittedTo run w.log
  all : w.Terminal run → pushedTo run w.log = admittedTo run w.log

/-- From every point on, as many iterations of the run asked for a steer as were admitted. -/
def Served (run : RunId) (log : List Occurrence) : Prop :=
  ∀ later, later <:+ log → (admittedTo run later).length ≤ later.count (.asked run)

/-! ### The queues -/

theorem pushedTo_append (run : RunId) (a b : List Occurrence) :
    pushedTo run (a ++ b) = pushedTo run a ++ pushedTo run b :=
  List.filterMap_append

/-- What a log says of one run's queue. -/
def tickOf (run : RunId) : Occurrence → Option (Mailbox.Tick SteerMessage)
  | .admitted other message => if other = run then some (.arrive message) else none
  | .asked other => if other = run then some .ask else none
  | _ => none

def ticks (run : RunId) (log : List Occurrence) : List (Mailbox.Tick SteerMessage) :=
  log.filterMap (tickOf run)

theorem arrived_ticks (run : RunId) (log : List Occurrence) :
    (ticks run log).filterMap Mailbox.Tick.arrived = admittedTo run log := by
  rw [ticks, List.filterMap_filterMap]
  refine List.filterMap_congr fun o _ => ?_
  cases o with
  | admitted other message => by_cases h : other = run <;> simp [tickOf, h, Mailbox.Tick.arrived]
  | asked other => by_cases h : other = run <;> simp [tickOf, h, Mailbox.Tick.arrived]
  | _ => rfl

theorem countP_arrives_ticks (run : RunId) (log : List Occurrence) :
    (ticks run log).countP Mailbox.Tick.arrives = (admittedTo run log).length := by
  rw [Mailbox.countP_arrives, arrived_ticks]

theorem countP_asks_ticks (run : RunId) (log : List Occurrence) :
    (ticks run log).countP Mailbox.Tick.asks = log.count (.asked run) := by
  rw [ticks, List.countP_filterMap, List.count]
  refine List.countP_congr fun o _ => ?_
  cases o with
  | admitted other message => by_cases h : other = run <;> simp [tickOf, h, Mailbox.Tick.asks]
  | asked other => by_cases h : other = run <;> simp [tickOf, h, Mailbox.Tick.asks]
  | _ => simp [tickOf]

theorem served_iff (run : RunId) (log : List Occurrence) :
    Served run log ↔ ∀ later, later <:+ ticks run log →
      later.countP Mailbox.Tick.arrives ≤ later.countP Mailbox.Tick.asks := by
  constructor
  · intro h later hlater
    obtain ⟨rest, hrest, rfl⟩ := List.suffix_filterMap_iff.mp hlater
    have hserved := h rest hrest
    rwa [← countP_arrives_ticks, ← countP_asks_ticks] at hserved
  · rintro h later ⟨before, rfl⟩
    have hsuffix : ticks run later <:+ ticks run (before ++ later) :=
      ⟨ticks run before, List.filterMap_append.symm⟩
    have hcount := h _ hsuffix
    rwa [countP_arrives_ticks, countP_asks_ticks] at hcount

/-- The queue of each run, and what was pushed into its history, are what its part of the log
leaves in a mailbox. -/
def Kept (w : World) : Prop :=
  ∀ run, Mailbox.after (ticks run w.log) = ⟨pushedTo run w.log, w.plane.queued run⟩

section Steps

variable {shown : RunStatus → String} {now : Int} {w : World}

theorem steers_follow (plane : ControlPlane) (clock : Clock) (kind : EventKind) (run : RunId)
    (payload : Payload) : (plane.follow clock kind run payload).steers = plane.steers := by
  unfold ControlPlane.follow
  repeat' split
  all_goals rfl

/-- What reaches the plane queues what it says was admitted, and nothing else. -/
theorem queued_step (plane : ControlPlane) (h : Happening) (run : RunId) :
    (plane.step shown now h).queued run =
      plane.queued run ++ admittedTo run (heardOf shown now plane h) := by
  cases h with
  | recorded written clock kind other payload =>
    have hsteers : (plane.append written clock kind other payload).2.steers = plane.steers := by
      unfold ControlPlane.append
      split
      · rfl
      · exact steers_follow _ _ _ _ _
    simp only [ControlPlane.step, ControlPlane.queued, hsteers, heardOf, admittedTo,
      List.filterMap_nil, List.append_nil]
  | steer other text =>
    simp only [ControlPlane.step, heardOf]
    obtain ⟨why, hrefused⟩ | ⟨message, detail, hmessage, hqueued⟩ :=
      ControlPlane.steer_cases shown now plane other text
    · rw [hrefused]
      exact (List.append_nil _).symm
    · rw [hqueued, hmessage]
      simp only [ControlPlane.queued, OrderedMap.get?_insert, admittedTo]
      by_cases hrun : other = run
      · simp [hrun]
      · simp [hrun]
  | cancel other => exact (List.append_nil _).symm
  | accepted other at_ => exact (List.append_nil _).symm
  | finished other word spent depth => exact (List.append_nil _).symm

theorem pushedTo_heardOf (plane : ControlPlane) (h : Happening) (run : RunId) :
    pushedTo run (heardOf shown now plane h) = [] := by
  cases h with
  | steer other text =>
    simp only [heardOf]
    split <;> rfl
  | _ => rfl

/-- Only admissions tick in what is heard. -/
theorem ticks_heardOf (plane : ControlPlane) (h : Happening) (run : RunId) :
    ticks run (heardOf shown now plane h) =
      (admittedTo run (heardOf shown now plane h)).map .arrive := by
  cases h with
  | steer other text =>
    simp only [heardOf]
    split
    · rfl
    next message _ =>
      by_cases hrun : other = run <;> simp [ticks, tickOf, admittedTo, hrun]
    · rfl
  | _ => rfl

theorem foldl_tick_arrive (box : Mailbox.Box SteerMessage) (messages : List SteerMessage) :
    (messages.map Mailbox.Tick.arrive).foldl Mailbox.Box.tick box =
      ⟨box.taken, box.waiting ++ messages⟩ := by
  induction messages generalizing box with
  | nil => simp
  | cons message rest ih =>
    rw [List.map_cons, List.foldl_cons, ih]
    simp [Mailbox.Box.tick]

/-- Occurrences that neither admit, ask nor push. -/
theorem Kept.quiet (h : Kept w) {plane : ControlPlane} {resumed : Option Checkpoint}
    {loops : OrderedMap RunId RunLoop} {os : List Occurrence}
    (hsteers : plane.steers = w.plane.steers)
    (hticks : ∀ run, ticks run os = []) (hpushed : ∀ run, pushedTo run os = []) :
    Kept ⟨plane, resumed, loops, w.log ++ os⟩ := by
  intro run
  have hqueued : plane.queued run = w.plane.queued run := by
    rw [ControlPlane.queued, hsteers]
    rfl
  have hlog : ticks run (w.log ++ os) = ticks run w.log := by
    rw [ticks, List.filterMap_append]
    exact (congrArg _ (hticks run)).trans (List.append_nil _)
  rw [hlog, pushedTo_append, hpushed, List.append_nil, hqueued]
  exact h run

theorem ticks_append (run : RunId) (a b : List Occurrence) :
    ticks run (a ++ b) = ticks run a ++ ticks run b :=
  List.filterMap_append

theorem Kept.happens (h : Kept w) (happening : Happening) :
    Kept (w.step shown now (.happens happening)) := by
  intro run
  have hbox := h run
  rw [Mailbox.after] at hbox
  simp only [step]
  rw [Mailbox.after, ticks_append, List.foldl_append, hbox, ticks_heardOf, foldl_tick_arrive,
    pushedTo_append, pushedTo_heardOf, List.append_nil, queued_step]

theorem Kept.calling (h : Kept w) (run : RunId) (calls : Bool) : Kept (w.calling run calls) := by
  unfold World.calling
  split
  · exact h.quiet rfl (fun _ => rfl) (fun _ => rfl)
  · exact h

/-- The top of an iteration asks its own run's queue, and pushes what that hands out. -/
theorem Kept.iterate (h : Kept w) (run : RunId) (l : RunLoop) (calls : Bool) :
    Kept (w.iterate run l calls) := by
  unfold World.iterate
  by_cases hcancelled : run ∈ w.plane.cancelled
  · rw [if_pos hcancelled]
    exact h.quiet rfl (fun _ => rfl) (fun _ => rfl)
  rw [if_neg hcancelled]
  obtain ⟨hqueued, htake⟩ | ⟨message, rest, hqueued, htake⟩ :=
    ControlPlane.takeSteer_cases w.plane run
  · rw [htake]
    refine Kept.calling (fun other => ?_) run calls
    have hbox := h other
    by_cases hrun : run = other
    · subst hrun
      rw [ticks_append, pushedTo_append, show ticks run [.asked run] = [.ask] by simp [ticks, tickOf],
        Mailbox.after_concat, hbox]
      simp [Mailbox.Box.tick, hqueued, pushedTo]
    · simpa [ticks_append, pushedTo_append, ticks, pushedTo, tickOf, hrun] using hbox
  · rw [htake]
    refine Kept.calling (fun other => ?_) run calls
    have hbox := h other
    have hqueue : ({ w.plane with steers := w.plane.steers.insert run rest } : ControlPlane).queued
        other = if run = other then rest else w.plane.queued other := by
      simp only [ControlPlane.queued, OrderedMap.get?_insert]
      split <;> rfl
    rw [hqueue, ticks_append, pushedTo_append]
    by_cases hrun : run = other
    · subst hrun
      rw [show ticks run [.asked run, .pushed run message] = [.ask] by simp [ticks, tickOf],
        Mailbox.after_concat, hbox, hqueued]
      simp [Mailbox.Box.tick, pushedTo]
    · rw [show ticks other [.asked run, .pushed run message] = [] by simp [ticks, tickOf, hrun],
        List.append_nil, hbox]
      simp [pushedTo, hrun]

theorem Kept.step (h : Kept w) (move : Move) : Kept (w.step shown now move) := by
  have hstands (resumed : Option Checkpoint) (loops : OrderedMap RunId RunLoop) :
      Kept { w with resumed, loops } := h
  cases move with
  | happens happening => exact h.happens happening
  | resume run =>
    simp only [World.step]
    obtain ⟨why, hrefused⟩ | ⟨cp, hstaged⟩ := w.plane.resume_cases run
    · rw [hrefused]
      exact h.quiet rfl (fun _ => rfl) (fun _ => rfl)
    · rw [hstaged]
      exact h.quiet rfl (fun _ => rfl) (fun _ => rfl)
  | takeResumed =>
    simp only [World.step]
    split
    · exact h
    · exact hstands _ _
  | start l =>
    simp only [World.step]
    split
    · exact h
    · exact hstands _ _
  | iterate run calls =>
    simp only [World.step]
    split
    · exact h.iterate run _ calls
    · exact h
  | work run left =>
    simp only [World.step]
    split
    · exact hstands _ _
    · exact h
  | stop run status =>
    simp only [World.step]
    split
    · exact h.quiet rfl (fun _ => rfl) (fun _ => rfl)
    · exact h

end Steps

/-- In every world the two threads reach, the queues are kept. -/
theorem kept_after (shown : RunStatus → String) (now : Int) (found : List Recorded)
    (moves : List Move) : Kept (after shown now found moves) := by
  induction moves using List.reverseRecOn with
  | nil => exact fun _ => rfl
  | append_singleton moves move ih =>
    rw [after, List.foldl_append]
    exact ih.step move

/-- What was admitted for a run is what was pushed into its history and, after it, its queue. -/
theorem Kept.admitted {w : World} (h : Kept w) (run : RunId) :
    admittedTo run w.log = pushedTo run w.log ++ w.plane.queued run := by
  have harrived := Mailbox.arrived_eq (ticks run w.log)
  rwa [arrived_ticks, h run] at harrived

theorem Kept.queued_nil_iff {w : World} (h : Kept w) (run : RunId) :
    w.plane.queued run = [] ↔ Served run w.log := by
  have hwaiting := Mailbox.waiting_eq_nil_iff (ticks run w.log)
  rw [h run] at hwaiting
  rw [served_iff]
  exact hwaiting

/-- **Guidance reaches its run** exactly when the runs that stopped for good kept asking. -/
theorem guided_iff (shown : RunStatus → String) (now : Int) (found : List Recorded)
    (moves : List Move) :
    (∀ run, Guided (after shown now found moves) run) ↔
      ∀ run, (after shown now found moves).Terminal run →
        Served run (after shown now found moves).log := by
  have hkept := kept_after shown now found moves
  refine forall_congr' fun run => ?_
  have hsplit := hkept.admitted run
  constructor
  · intro hguided hterminal
    rw [← hkept.queued_nil_iff run]
    have hall := hguided.all hterminal
    rw [hsplit] at hall
    exact List.self_eq_append_right.mp hall
  · intro hserved
    refine ⟨⟨_, hsplit.symm⟩, fun hterminal => ?_⟩
    rw [hsplit, (hkept.queued_nil_iff run).mpr (hserved hterminal), List.append_nil]

/-! ### A steer that lands in the last step -/

def interactiveLoop (run : RunId) : RunLoop :=
  { run := .root run 1 Script.looks Script.ample .answer
    state := .new 1 "M", provenance := .new, steps := 0, contractRetries := 0, driving := true }

/-- The run's model call is in flight when the steer is accepted, and the call ends the run. -/
def lastStepSteered : List Move :=
  [.start (interactiveLoop 1), .iterate 1 true, .happens (.steer 1 "stop"), .stop 1 .completed]

/-- The steer was accepted, and the finished run never hears it. -/
theorem last_step_unheard : ¬ ∀ (shown : RunStatus → String) (now : Int) (found : List Recorded)
    (moves : List Move) (run : RunId), Guided (after shown now found moves) run := by
  intro hall
  have hguided := hall (fun _ => "") 0 [] lastStepSteered 1
  have hended : (after (fun _ => "") 0 [] lastStepSteered).Terminal 1 := ⟨_, rfl, .inl rfl⟩
  exact absurd (hguided.all hended) (by decide)

end World

end MarloweAgent.Daemon
