import MarloweAgent.Contract.Text
import MarloweAgent.Permission.Adjudicate
import Mathlib.Logic.Function.Basic
import Mathlib.Logic.Relation

/-! How an approval is asked for and answered. The gate of a turn writes a prompt on the
connection that opened the turn and reads one line back; the client's turn thread shows the
prompt and waits for the surface; the surface raises a window and hands the answer over. The
daemon, the turn threads and the surface take their steps in any order, a connection can be lost
at any point, and a new turn takes the surface away from the one before it. -/

namespace MarloweAgent.Daemon

/-! ## The token -/

namespace Auth
open Contract

def refused : String := "unauthenticated:"

def refusal : String :=
  refused ++ " this daemon is serving a different profile, or a different user. " ++
    "A client authenticates with the token in its own profile root; run `marlowe --serve` " ++
    "for this profile, or point the client at the right one with --profile-root."

/-- The bits in which some pair differs. -/
def differing (pairs : List (UInt8 × UInt8)) : UInt8 :=
  pairs.foldl (fun diff p => diff ||| (p.1 ^^^ p.2)) 0

/-- Equality that reads every byte. -/
def matchesBytes (expected offered : List UInt8) : Bool :=
  if expected.length ≠ offered.length then false else differing (expected.zip offered) == 0

def tokenMatches (expected offered : String) : Bool :=
  matchesBytes expected.toUTF8.data.toList offered.toUTF8.data.toList

theorem foldl_differing (pairs : List (UInt8 × UInt8)) (diff : UInt8) :
    pairs.foldl (fun diff p => diff ||| (p.1 ^^^ p.2)) diff = 0 ↔
      diff = 0 ∧ ∀ p ∈ pairs, p.1 = p.2 := by
  induction pairs generalizing diff with
  | nil => simp
  | cons p rest ih =>
    have hor : diff ||| (p.1 ^^^ p.2) = 0 ↔ diff = 0 ∧ p.1 = p.2 := by
      rw [UInt8.or_eq_zero_iff, UInt8.xor_eq_zero_iff]
    simp only [List.foldl_cons, ih, hor, List.forall_mem_cons, and_assoc]

theorem forall_zip_iff {as bs : List UInt8} (h : as.length = bs.length) :
    (∀ p ∈ as.zip bs, p.1 = p.2) ↔ as = bs := by
  induction as generalizing bs with
  | nil => cases bs <;> simp_all
  | cons a as ih =>
    cases bs with
    | nil => simp at h
    | cons b bs =>
      have hlength : as.length = bs.length := by simpa using h
      rw [List.zip_cons_cons, List.forall_mem_cons, ih hlength, List.cons.injEq]

theorem matchesBytes_iff (expected offered : List UInt8) :
    matchesBytes expected offered = true ↔ expected = offered := by
  unfold matchesBytes
  by_cases hlength : expected.length = offered.length
  · rw [if_neg (not_not_intro hlength), beq_iff_eq, differing, foldl_differing,
      forall_zip_iff hlength]
    simp
  · rw [if_pos hlength]
    refine ⟨fun h => (by cases h), fun h => ?_⟩
    exact absurd (congrArg List.length h) hlength

/-- The comparison that reads every byte is equality. -/
theorem tokenMatches_iff (expected offered : String) :
    tokenMatches expected offered = true ↔ expected = offered := by
  unfold tokenMatches
  rw [matchesBytes_iff, Array.toList_inj, ← ByteArray.ext_iff]
  exact String.toByteArray_inj

end Auth

namespace Approving
open Contract Permission

/-! ## The wire -/

structure Prompt where
  decision : Nat
  verb : String
  scope : String
  reversible : Bool
  novelty : Option String
  deriving DecidableEq, Repr

/-- A line from the daemon. Nothing on this path looks inside the others. -/
inductive Event
  | approval (prompt : Prompt)
  | error (detail : String)
  | other (line : String)
  deriving DecidableEq, Repr

/-- A line from the client. -/
inductive Request
  | approve (decision : Nat) (granted : Bool) (reason : Option String)
  | other (line : String)
  deriving DecidableEq, Repr

/-- The prompt that is owed an answer: decision 0 is the loop saying that it is about to ask. -/
def Event.question : Event → Option Prompt
  | .approval prompt => if prompt.decision ≠ 0 then some prompt else none
  | .error _ | .other _ => none

inductive ClientError
  | closed (detail : String)
  | refused (port : Nat) (detail : String)

def ClientError.render : ClientError → String
  | .closed detail => s!"the daemon closed the connection: {detail}"
  | .refused port detail => s!"the daemon on 127.0.0.1:{port} refused this connection: {detail}"

def debugNovelty : NoveltyReason → String
  | .firstTimeForClass => "FirstTimeForClass"
  | .unfamiliarTarget target => "UnfamiliarTarget \x7b target: " ++ Text.debugString target ++ " \x7d"
  | .unusualAmount microsUsd => "UnusualAmount \x7b micros_usd: " ++ toString microsUsd ++ " \x7d"

def isBlank (s : String) : Bool := Text.isEmpty (Text.trim s)

/-! ## The gate -/

structure SocketApprovals where
  nextDecision : Nat
  lastReason : Option String
  deriving DecidableEq, Repr

namespace SocketApprovals

def new : SocketApprovals := ⟨1, none⟩

def prompt (gate : SocketApprovals) (radius : BlastRadius) : Prompt where
  decision := gate.nextDecision
  verb := radius.verb
  scope := radius.scope
  reversible := radius.reversible
  novelty := radius.novelty.map debugNovelty

def numbered (gate : SocketApprovals) : SocketApprovals :=
  { gate with nextDecision := gate.nextDecision + 1 }

/-- What the line that was read says, if one was read and it parsed. -/
def settle (gate : SocketApprovals) (decision : Nat) : Option Request → Bool × SocketApprovals
  | some (.approve d granted reason) =>
    if d = decision then
      (granted, if granted then gate else { gate with lastReason := reason.filter (! isBlank ·) })
    else (false, gate)
  | some (.other _) | none => (false, gate)

/-- `await_approval`: what it writes, what it returns, and the gate after it. A prompt that could
not be written is denied before anything is cleared. -/
def awaitApproval (gate : SocketApprovals) (radius : BlastRadius) (written : Bool)
    (heard : Option Request) : Prompt × Bool × SocketApprovals :=
  (gate.prompt radius,
    if written then { gate.numbered with lastReason := none }.settle gate.nextDecision heard
    else (false, gate.numbered))

end SocketApprovals

/-! ## A turn's connection -/

/-- The turn thread: at its read, in its decider, or ended. -/
inductive Client
  | reading
  | asking (prompt : Prompt)
  | gone
  deriving DecidableEq, Repr

inductive Service
  | queued
  | serving
  | closed
  deriving DecidableEq, Repr

structure Turn where
  /-- The token of the preamble. -/
  offered : String
  service : Service
  gate : SocketApprovals
  waiting : Option Prompt
  /-- Every prompt of the gate so far. -/
  asked : List Prompt
  down : List Event
  client : Client
  up : List Request
  /-- What the thread has sent to the surface and the surface has not drained. -/
  inbox : List Event

namespace Turn

def opened (offered : String) : Turn :=
  ⟨offered, .queued, .new, none, [], [], .reading, [], []⟩

/-- The thread takes the next line. -/
def read (port : Nat) (turn : Turn) (event : Event) (rest : List Event) : Turn :=
  match event with
  | .error detail =>
    if Text.startsWith detail Auth.refused then
      { turn with
        down := rest, client := .gone
        inbox := turn.inbox ++ [.error (ClientError.refused port detail).render] }
    else { turn with down := rest, inbox := turn.inbox ++ [event] }
  | .approval _ | .other _ =>
    { turn with
      down := rest, inbox := turn.inbox ++ [event]
      client := match event.question with
        | some prompt => .asking prompt
        | none => .reading }

/-- The thread ends on an error. -/
def lose (turn : Turn) (detail : String) : Turn :=
  { turn with client := .gone, inbox := turn.inbox ++ [.error (ClientError.closed detail).render] }

/-- The decider answers, and the thread writes the answer and reads on. -/
def reply (turn : Turn) (prompt : Prompt) (granted : Bool) (reason : Option String) : Turn :=
  { turn with client := .reading, up := turn.up ++ [.approve prompt.decision granted reason] }

/-- The gate writes its prompt and goes to read. -/
def ask (turn : Turn) (radius : BlastRadius) : Turn :=
  let prompt := turn.gate.prompt radius
  { turn with
    gate := { turn.gate.numbered with lastReason := none }
    waiting := some prompt
    asked := turn.asked ++ [prompt]
    down := turn.down ++ [.approval prompt] }

/-- The gate cannot write its prompt. -/
def askUnwritten (turn : Turn) (radius : BlastRadius) : Turn :=
  { turn with gate := turn.gate.numbered, asked := turn.asked ++ [turn.gate.prompt radius] }

/-- The gate has read what answers its prompt. -/
def settle (turn : Turn) (prompt : Prompt) (heard : Option Request) : Turn :=
  { turn with gate := (turn.gate.settle prompt.decision heard).2, waiting := none }

def verdict (turn : Turn) (prompt : Prompt) (heard : Option Request) : Bool :=
  (turn.gate.settle prompt.decision heard).1

/-- Asking and hearing are the two halves of `await_approval`. -/
theorem awaitApproval_eq (turn : Turn) (radius : BlastRadius) (heard : Option Request) :
    turn.gate.awaitApproval radius true heard =
      (turn.gate.prompt radius, (turn.ask radius).verdict (turn.gate.prompt radius) heard,
        ((turn.ask radius).settle (turn.gate.prompt radius) heard).gate) := rfl

end Turn

/-! ## The surface -/

inductive Key
  | char (c : Char)
  | backspace
  | enter
  | esc
  | other
  deriving DecidableEq, Repr

inductive Intent
  | send (text : String)
  | approve (granted : Bool) (reason : Option String)
  deriving DecidableEq, Repr

def Intent.answers : Intent → Bool
  | .send _ => false
  | .approve _ _ => true

/-- The surface takes keys, hands its intents to the session one after the other, or waits in
the session for a turn thread to take an answer. `showing` is the window the answer closed. -/
inductive Ui
  | keys
  | applying (rest : List Intent)
  | sending (granted : Bool) (reason : Option String) (showing : Option Prompt)
      (rest : List Intent)
  deriving DecidableEq, Repr

/-- What has been answered in the window of a turn, and what its gate has decided. -/
inductive Fact
  | answered (turn : Nat) (showing : Option Prompt) (granted : Bool)
  | settled (turn : Nat) (prompt : Prompt) (granted : Bool)
  deriving DecidableEq, Repr

structure System where
  /-- The turns that were started, by their order. -/
  turns : Nat → Turn
  started : Nat
  ui : Ui
  /-- `pending_approval` of the session's view. -/
  pending : Option Prompt
  /-- `pending_approval` of the view that the surface last took over, and drew. -/
  shown : Option Prompt
  declineReason : Option String
  outbox : List Intent
  log : List Fact

namespace System

def start : System :=
  { turns := fun _ => { Turn.opened "" with client := .gone }
    started := 0, ui := .keys, pending := none, shown := none, declineReason := none
    outbox := [], log := [] }

/-- The turn whose channels the session holds. -/
def current (s : System) : Nat := s.started - 1

def put (s : System) (t : Nat) (turn : Turn) : System :=
  { s with turns := Function.update s.turns t turn }

/-- A key while the window is up. There is no key that closes it without an answer. -/
def onPendingApprovalKey (s : System) (key : Key) : System :=
  match s.declineReason with
  | some buf =>
    match key with
    | .char c => { s with declineReason := some (buf.push c) }
    | .backspace => { s with declineReason := some (String.ofList buf.toList.dropLast) }
    | .enter => { s with declineReason := none, outbox := s.outbox ++ [.approve false (some buf)] }
    | .esc => { s with declineReason := none }
    | .other => s
  | none =>
    if key = .char 'y' ∨ key = .char 'Y' then
      { s with outbox := s.outbox ++ [.approve true none] }
    else if key = .char 'n' ∨ key = .char 'N' ∨ key = .esc then
      { s with outbox := s.outbox ++ [.approve false none] }
    else if key = .char 'o' ∨ key = .char 'O' then { s with declineReason := some "" }
    else s

/-- `start_turn`: a new connection, and new channels to it. -/
def startTurn (s : System) (offered : String) : System :=
  { s.put s.started (.opened offered) with started := s.started + 1 }

/-- `Produce::apply`. An answer is refused where no turn was ever started; `offered` is what the
token file holds at the time. -/
def apply (s : System) (offered : String) (rest : List Intent) : Intent → System
  | .send _ => { s.startTurn offered with ui := .applying rest }
  | .approve granted reason =>
    if s.started = 0 then { s with ui := .applying rest }
    else
      { s with
        pending := none
        ui := .sending granted (reason.filter (! isBlank ·)) s.pending rest
        log := s.log ++ [.answered s.current s.pending granted] }

/-- The window that a drained event raises. -/
def raise (pending : Option Prompt) (event : Event) : Option Prompt :=
  match event.question with
  | some prompt => some prompt
  | none => pending

/-- `Produce::tick`, and the surface takes the view over. -/
def tick (s : System) : System :=
  let turn := s.turns s.current
  let pending := turn.inbox.foldl raise s.pending
  { s.put s.current { turn with inbox := [] } with ui := .keys, pending := pending, shown := pending }

end System

/-! ## Interleavings -/

section Steps

variable (token : String) (port : Nat)

/-- A line of the loop's own. An approval among them is the announcement, and has no number. -/
def Told : Event → Prop := fun event => event.question = none

/-- What the thread of a turn does by itself, and the daemon on the turn's connection. -/
inductive Local : Turn → Turn → Prop
  | read {turn : Turn} {event : Event} {rest : List Event} :
      turn.client = .reading → turn.down = event :: rest → Local turn (turn.read port event rest)
  | eof {turn : Turn} : turn.client = .reading → turn.down = [] → turn.service = .closed →
      Local turn { turn with client := .gone }
  | lose {turn : Turn} (detail : String) : turn.client = .reading → Local turn (turn.lose detail)
  | say {turn : Turn} {event : Event} : turn.service = .serving → turn.waiting = none →
      Told event → Local turn { turn with down := turn.down ++ [event] }
  | ask {turn : Turn} (radius : BlastRadius) : turn.service = .serving → turn.waiting = none →
      Local turn (turn.ask radius)
  | close {turn : Turn} : turn.service = .serving → turn.waiting = none →
      Local turn { turn with service := .closed }

/-- The next step of one of the three parties. -/
inductive Step : System → System → Prop
  | key {s : System} (key : Key) : s.ui = .keys → s.shown ≠ none →
      Step s (s.onPendingApprovalKey key)
  | submit {s : System} (text : String) : s.ui = .keys → s.shown = none →
      Step s { s with outbox := s.outbox ++ [.send text] }
  | advance {s : System} : s.ui = .keys → Step s { s with ui := .applying s.outbox, outbox := [] }
  | apply {s : System} {intent : Intent} {rest : List Intent} (offered : String) :
      s.ui = .applying (intent :: rest) → Step s (s.apply offered rest intent)
  | tick {s : System} : s.ui = .applying [] → Step s s.tick
  /-- The answer reaches the decider, and then the wire. -/
  | hand {s : System} {granted reason showing rest} {prompt : Prompt} :
      s.ui = .sending granted reason showing rest →
      (s.turns s.current).client = .asking prompt →
      Step s { s.put s.current ((s.turns s.current).reply prompt granted reason) with
        ui := .applying rest }
  /-- The answer reaches the decider, and the connection is gone. -/
  | handLost {s : System} {granted reason showing rest} {prompt : Prompt} (detail : String) :
      s.ui = .sending granted reason showing rest →
      (s.turns s.current).client = .asking prompt →
      Step s { s.put s.current ((s.turns s.current).lose detail) with ui := .applying rest }
  | unheard {s : System} {granted reason showing rest} :
      s.ui = .sending granted reason showing rest → (s.turns s.current).client = .gone →
      Step s { s with ui := .applying rest }
  /-- The surface has gone to a newer turn: nobody is there to answer this one. -/
  | unattended {s : System} {t : Nat} {prompt : Prompt} : t < s.current →
      (s.turns t).client = .asking prompt → Step s (s.put t ((s.turns t).reply prompt false none))
  | unattendedLost {s : System} {t : Nat} {prompt : Prompt} (detail : String) : t < s.current →
      (s.turns t).client = .asking prompt → Step s (s.put t ((s.turns t).lose detail))
  | «local» {s : System} {t : Nat} {turn : Turn} : t < s.started → Local port (s.turns t) turn →
      Step s (s.put t turn)
  /-- The daemon is serial: one connection at a time. -/
  | accept {s : System} {t : Nat} : t < s.started → (s.turns t).service = .queued →
      (∀ u < s.started, (s.turns u).service ≠ .serving) → Auth.tokenMatches token (s.turns t).offered = true →
      Step s (s.put t { s.turns t with service := .serving })
  | refuse {s : System} {t : Nat} : t < s.started → (s.turns t).service = .queued →
      (∀ u < s.started, (s.turns u).service ≠ .serving) → Auth.tokenMatches token (s.turns t).offered = false →
      Step s (s.put t { s.turns t with
        service := .closed, down := (s.turns t).down ++ [.error Auth.refusal] })
  | askUnwritten {s : System} {t : Nat} (radius : BlastRadius) : t < s.started →
      (s.turns t).service = .serving → (s.turns t).waiting = none →
      Step s { s.put t ((s.turns t).askUnwritten radius) with
        log := s.log ++ [.settled t ((s.turns t).gate.prompt radius) false] }
  | hear {s : System} {t : Nat} {prompt : Prompt} {line : Request} {rest : List Request} :
      t < s.started → (s.turns t).waiting = some prompt → (s.turns t).up = line :: rest →
      Step s { s.put t { (s.turns t).settle prompt (some line) with up := rest } with
        log := s.log ++ [.settled t prompt ((s.turns t).verdict prompt (some line))] }
  /-- The read fails, ends, or gives a line that does not parse. -/
  | deaf {s : System} {t : Nat} {prompt : Prompt} : t < s.started →
      (s.turns t).waiting = some prompt →
      Step s { s.put t ((s.turns t).settle prompt none) with
        log := s.log ++ [.settled t prompt ((s.turns t).verdict prompt none)] }

/-- Every state a run can be in, going only through states that `calm` admits. -/
def Reaches (calm : System → Prop) : System → Prop :=
  Relation.ReflTransGen (fun s s' => calm s ∧ Step token port s s') System.start

end Steps

variable {token : String} {port : Nat} {calm : System → Prop} {s s' : System}

/-- What the thread makes of a line: it goes to ask about a prompt, or it reads on, or it ends. -/
theorem Turn.read_spec (port : Nat) {turn : Turn} (hclient : turn.client = .reading) (event : Event)
    (rest : List Event) :
    ∃ client told, turn.read port event rest =
        { turn with down := rest, client := client, inbox := turn.inbox ++ [told] } ∧
      told.question = event.question ∧
      (∀ prompt, event.question = some prompt → client = .asking prompt) ∧
      (event.question = none → client = .reading ∨ client = .gone) := by
  cases event with
  | approval prompt =>
    cases hquestion : (Event.approval prompt).question with
    | some asked => exact ⟨.asking asked, _, by simp [Turn.read, hquestion], hquestion, by simp, by simp⟩
    | none => exact ⟨.reading, _, by simp [Turn.read, hquestion], hquestion, by simp, by simp⟩
  | other line => exact ⟨.reading, _, rfl, rfl, by simp [Event.question], by simp⟩
  | error detail =>
    by_cases hrefused : Text.startsWith detail Auth.refused = true
    · exact ⟨.gone, .error (ClientError.refused port detail).render, by simp [Turn.read, hrefused], rfl,
        by simp [Event.question], by simp⟩
    · exact ⟨.reading, .error detail, by simp [Turn.read, hrefused, hclient], rfl,
        by simp [Event.question], by simp⟩

namespace System

@[simp] theorem put_turns_self (s : System) (t : Nat) (turn : Turn) : (s.put t turn).turns t = turn :=
  Function.update_self ..

theorem put_turns_of_ne (s : System) {t u : Nat} (turn : Turn) (h : u ≠ t) :
    (s.put t turn).turns u = s.turns u :=
  Function.update_of_ne h ..

/-- A key in the window queues answers and edits the reason, and that is all. -/
theorem onPendingApprovalKey_eq (s : System) (key : Key) :
    ∃ reason answers, s.onPendingApprovalKey key =
        { s with declineReason := reason, outbox := s.outbox ++ answers } ∧
      ∀ intent ∈ answers, intent.answers = true := by
  unfold onPendingApprovalKey
  cases hreason : s.declineReason with
  | some buf =>
    cases key with
    | enter => exact ⟨none, [.approve false (some buf)], rfl, by simp [Intent.answers]⟩
    | char c => exact ⟨some (buf.push c), [], by simp, by simp⟩
    | backspace => exact ⟨some (String.ofList buf.toList.dropLast), [], by simp, by simp⟩
    | esc => exact ⟨none, [], by simp, by simp⟩
    | other => exact ⟨some buf, [], by simp [← hreason], by simp⟩
  | none =>
    simp only
    split_ifs
    · exact ⟨none, [.approve true none], by simp [← hreason], by simp [Intent.answers]⟩
    · exact ⟨none, [.approve false none], by simp [← hreason], by simp [Intent.answers]⟩
    · exact ⟨some "", [], by simp, by simp⟩
    · exact ⟨none, [], by simp [← hreason], by simp⟩

end System

/-! ## What waits at the surface -/

/-- The questions that wait in the surface's channel. -/
def Turn.questions (turn : Turn) : List Prompt := turn.inbox.filterMap Event.question

/-- What the session is handing over, if it is handing an answer over. -/
def Ui.showing : Ui → Option (Option Prompt)
  | .sending _ _ showing _ => some showing
  | .keys | .applying _ => none

theorem System.foldl_raise (inbox : List Event) (pending : Option Prompt) :
    inbox.foldl System.raise pending = (inbox.filterMap Event.question).getLast?.or pending := by
  induction inbox generalizing pending with
  | nil => rfl
  | cons event rest ih =>
    rw [List.foldl_cons, ih]
    cases hquestion : event.question with
    | none => simp [System.raise, hquestion]
    | some prompt =>
      rw [List.filterMap_cons_some hquestion, List.getLast?_cons]
      cases hlast : (rest.filterMap Event.question).getLast? <;> simp [System.raise, hquestion]

/-! ## Runs played

A run without losses, played from a script. -/

inductive Cue
  | key (key : Key)
  | submit (text : String)
  | surface
  | accept (t : Nat)
  | ask (t : Nat) (radius : BlastRadius)
  | hear (t : Nat)
  | read (t : Nat)

/-- The surface's own next step. -/
def System.proceed (s : System) (offered : String) : Option System :=
  match s.ui with
  | .keys => some { s with ui := .applying s.outbox, outbox := [] }
  | .applying [] => some s.tick
  | .applying (intent :: rest) => some (s.apply offered rest intent)
  | .sending granted reason _ rest =>
    match (s.turns s.current).client with
    | .asking prompt =>
      some { s.put s.current ((s.turns s.current).reply prompt granted reason) with ui := .applying rest }
    | .gone => some { s with ui := .applying rest }
    | .reading => none

def System.play (token : String) (port : Nat) (s : System) : Cue → Option System
  | .key key => if s.ui = .keys ∧ s.shown ≠ none then some (s.onPendingApprovalKey key) else none
  | .submit text =>
    if s.ui = .keys ∧ s.shown = none then some { s with outbox := s.outbox ++ [.send text] } else none
  | .surface => s.proceed token
  | .accept t =>
    if t < s.started ∧ (s.turns t).service = .queued ∧ (∀ u < s.started, (s.turns u).service ≠ .serving) ∧
        Auth.tokenMatches token (s.turns t).offered = true then
      some (s.put t { s.turns t with service := .serving })
    else none
  | .ask t radius =>
    if t < s.started ∧ (s.turns t).service = .serving ∧ (s.turns t).waiting = none then
      some (s.put t ((s.turns t).ask radius))
    else none
  | .hear t =>
    match (s.turns t).waiting, (s.turns t).up with
    | some prompt, line :: rest =>
      if t < s.started then
        some { s.put t { (s.turns t).settle prompt (some line) with up := rest } with
          log := s.log ++ [.settled t prompt ((s.turns t).verdict prompt (some line))] }
      else none
    | _, _ => none
  | .read t =>
    match (s.turns t).client, (s.turns t).down with
    | .reading, event :: rest =>
      if t < s.started then some (s.put t ((s.turns t).read port event rest)) else none
    | _, _ => none

theorem step_of_proceed {offered : String} (h : s.proceed offered = some s') : Step token port s s' := by
  unfold System.proceed at h
  split at h
  · obtain rfl := Option.some.inj h
    exact .advance ‹_›
  · obtain rfl := Option.some.inj h
    exact .tick ‹_›
  · obtain rfl := Option.some.inj h
    exact .apply offered ‹_›
  · split at h
    · obtain rfl := Option.some.inj h
      exact .hand ‹_› ‹_›
    · obtain rfl := Option.some.inj h
      exact .unheard ‹_› ‹_›
    · cases h

theorem step_of_play {cue : Cue} (h : s.play token port cue = some s') : Step token port s s' := by
  cases cue with
  | key key =>
    obtain ⟨⟨hui, hshown⟩, rfl⟩ := by simpa [System.play] using h
    exact .key key hui hshown
  | submit text =>
    obtain ⟨⟨hui, hshown⟩, rfl⟩ := by simpa [System.play] using h
    exact .submit text hui hshown
  | surface => exact step_of_proceed h
  | accept t =>
    simp only [System.play, Option.ite_none_right_eq_some, Option.some.injEq] at h
    obtain ⟨⟨ht, hqueued, hfree, htoken⟩, rfl⟩ := h
    exact .accept ht hqueued hfree htoken
  | ask t radius =>
    simp only [System.play, Option.ite_none_right_eq_some, Option.some.injEq] at h
    obtain ⟨⟨ht, hserving, hwaiting⟩, rfl⟩ := h
    exact .local ht (.ask radius hserving hwaiting)
  | hear t =>
    simp only [System.play] at h
    split at h
    · simp only [Option.ite_none_right_eq_some, Option.some.injEq] at h
      obtain ⟨ht, rfl⟩ := h
      exact .hear ht ‹_› ‹_›
    · cases h
  | read t =>
    simp only [System.play] at h
    split at h
    · simp only [Option.ite_none_right_eq_some, Option.some.injEq] at h
      obtain ⟨ht, rfl⟩ := h
      exact .local ht (.read ‹_› ‹_›)
    · cases h

/-- The script played out, through states that `calm` admits. -/
def playThrough (token : String) (port : Nat) (calm : System → Prop) [DecidablePred calm] :
    System → List Cue → Option System
  | s, [] => some s
  | s, cue :: rest =>
    if calm s then (s.play token port cue).bind (playThrough token port calm · rest) else none

theorem reaches_of_playThrough [DecidablePred calm] {cues : List Cue} (h : Reaches token port calm s)
    (hplay : playThrough token port calm s cues = some s') : Reaches token port calm s' := by
  induction cues generalizing s with
  | nil =>
    obtain rfl := Option.some.inj hplay
    exact h
  | cons cue rest ih =>
    unfold playThrough at hplay
    split_ifs at hplay with hcalm
    obtain ⟨next, hnext, hrest⟩ := Option.bind_eq_some_iff.mp hplay
    exact ih (h.tail ⟨hcalm, step_of_play hnext⟩) hrest

theorem exists_reaches (token : String) (port : Nat) (calm : System → Prop) [DecidablePred calm]
    (cues : List Cue) (check : System → Bool)
    (h : (playThrough token port calm .start cues).any check = true) :
    ∃ s, Reaches token port calm s ∧ check s = true := by
  cases hplay : playThrough token port calm .start cues with
  | none =>
    rw [hplay] at h
    cases h
  | some s =>
    rw [hplay] at h
    exact ⟨s, reaches_of_playThrough .refl hplay, h⟩

/-- No batch of keys holds two answers. -/
def System.unhurried (s : System) : Prop := s.outbox.countP Intent.answers ≤ 1

instance : DecidablePred System.unhurried := fun s => Nat.decLe (s.outbox.countP Intent.answers) 1

def docsRadius : BlastRadius := ⟨"fetch", "docs.example", true, none⟩

/-- The turn is asked once, and the window is up. -/
def askedCues : List Cue :=
  [.submit "read it", .surface, .surface, .surface, .accept 0, .ask 0 docsRadius, .read 0, .surface,
    .surface]

/-- The user allows it, and the gate hears. -/
def allowedCues : List Cue :=
  askedCues ++ [.key (.char 'y'), .surface, .surface, .surface, .hear 0]

end Approving

end MarloweAgent.Daemon
