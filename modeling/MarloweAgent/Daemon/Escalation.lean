import MarloweAgent.Library.OrderedMap
import MarloweAgent.Library.Trace
import MarloweAgent.Loop.Driver
import Mathlib.Data.List.Induction
import Mathlib.Data.Nat.Pairing

/-! The escalation desk: what is pending, with whom, and the chain of runs that passed
each one up. Ids are a function of the raiser and of a counter that stops at the end of
its width. -/

namespace MarloweAgent.Daemon
open Library Loop

/-- Who an escalation is with. -/
inductive Recipient
  | run (id : RunId)
  | user
  deriving DecidableEq, Repr

structure Escalation where
  id : EscalationId
  raisedBy : RunId
  severity : EscalationSeverity
  category : EscalationCategory
  options : List String
  artifact : Option String
  lineage : List RunId
  sentence : Option String
  deriving DecidableEq, Repr

structure Pending where
  escalation : Escalation
  recipient : Recipient
  deriving DecidableEq, Repr

inductive AdvanceError
  | unknown
  | notYours
  | alreadyWithTheUser
  | forwarderCannotRaise (why : NotRaisableReason)
  deriving DecidableEq, Repr

inductive ResolveError
  | unknown
  deriving DecidableEq, Repr

inductive Choice
  | agent (index : UInt8)
  | terminate
  deriving DecidableEq, Repr

structure Resolution where
  id : EscalationId
  raisedBy : RunId
  choice : Choice
  deriving DecidableEq, Repr

structure EscalationDesk where
  pending : OrderedMap EscalationId Pending
  seq : Nat

def maxAgentOptions : Nat := 4

/-- Whom a route leads to. -/
def recipientOf : EscalationRoute → Except NotRaisableReason Recipient
  | .parent parent => .ok (.run parent)
  | .user => .ok .user
  | .notRaisable why => .error why

/-- An escalation as it is raised. -/
def Pending.opened (id : EscalationId) (raisedBy : RunId) (req : EscalationRequest)
    (recipient : Recipient) : Pending :=
  { escalation :=
      { id, raisedBy, severity := req.severity, category := req.category, options := req.options
        artifact := req.artifact, lineage := [], sentence := req.sentence }
    recipient }

/-- One hop up. -/
def Pending.passed (p : Pending) (run : RunId) (next : Recipient) : Pending :=
  { escalation := { p.escalation with lineage := p.escalation.lineage ++ [run] }, recipient := next }

namespace EscalationDesk

def new : EscalationDesk := ⟨OrderedMap.empty, 0⟩

/-- `advance`: only the run it is with may pass it up. -/
def advance (desk : EscalationDesk) (id : EscalationId) (run : RunId) (route : EscalationRoute) :
    Except AdvanceError Recipient × EscalationDesk :=
  match desk.pending.get? id with
  | none => (.error .unknown, desk)
  | some p =>
    match p.recipient with
    | .user => (.error .alreadyWithTheUser, desk)
    | .run holder =>
      if holder ≠ run then (.error .notYours, desk)
      else
        match recipientOf route with
        | .error why => (.error (.forwarderCannotRaise why), desk)
        | .ok next => (.ok next, { desk with pending := desk.pending.modify id (·.passed run next) })

def resolve (desk : EscalationDesk) (id : EscalationId) (choice : Choice) :
    Except ResolveError Resolution × EscalationDesk :=
  match desk.pending.get? id with
  | none => (.error .unknown, desk)
  | some p =>
    (.ok { id, raisedBy := p.escalation.raisedBy, choice },
      { desk with pending := desk.pending.erase id })

/-- `raise`, with the id derived from the raiser and the next number. -/
def raise (forRaise : RunId → Nat → EscalationId) (desk : EscalationDesk) (raisedBy : RunId)
    (route : EscalationRoute) (req : EscalationRequest) :
    Except EscalationRefused EscalationId × EscalationDesk :=
  match recipientOf route with
  | .error why => (.error (.notRaisable why), desk)
  | .ok recipient =>
    if req.options.length > maxAgentOptions then
      (.error (.tooManyOptions req.options.length maxAgentOptions), desk)
    else
      let seq := min (desk.seq + 1) u32Max
      let id := forRaise raisedBy seq
      (.ok id, { pending := desk.pending.insert id (.opened id raisedBy req recipient), seq })

def pendingIds (desk : EscalationDesk) : List EscalationId := desk.pending.keys

def addressedTo (desk : EscalationDesk) (id : EscalationId) : Option Recipient :=
  (desk.pending.get? id).map Pending.recipient

end EscalationDesk

/-! ## Histories of calls -/

/-- One call on the desk. -/
inductive Call
  | raise (raisedBy : RunId) (route : EscalationRoute) (req : EscalationRequest)
  | advance (id : EscalationId) (run : RunId) (route : EscalationRoute)
  | resolve (id : EscalationId) (choice : Choice)
  deriving DecidableEq, Repr

/-- What came of a call. -/
inductive Event
  | raised (id : EscalationId) (raisedBy : RunId) (recipient : Recipient) (req : EscalationRequest)
  | advanced (id : EscalationId) (run : RunId) (next : Recipient)
  | resolved (id : EscalationId)
  | refused
  deriving DecidableEq, Repr

section Histories

variable (forRaise : RunId → Nat → EscalationId)

/-- A call, with its answer told as an event. -/
def EscalationDesk.answer (desk : EscalationDesk) : Call → Event × EscalationDesk
  | .raise raisedBy route req =>
    match desk.raise forRaise raisedBy route req, recipientOf route with
    | (.ok id, desk), .ok recipient => (.raised id raisedBy recipient req, desk)
    | (_, desk), _ => (.refused, desk)
  | .advance id run route =>
    match desk.advance id run route with
    | (.ok next, desk) => (.advanced id run next, desk)
    | (.error _, desk) => (.refused, desk)
  | .resolve id choice =>
    match desk.resolve id choice with
    | (.ok _, desk) => (.resolved id, desk)
    | (.error _, desk) => (.refused, desk)

/-- The desk after a history of calls. -/
def deskAfter (calls : List Call) : EscalationDesk :=
  calls.foldl (fun desk call => (desk.answer forRaise call).2) .new

/-- An accepted raise, by its number, and what has become of it. -/
structure Case where
  number : Nat
  pending : Pending
  deriving DecidableEq, Repr

namespace Case

def id (c : Case) : EscalationId := c.pending.escalation.id

def raisedBy (c : Case) : RunId := c.pending.escalation.raisedBy

/-- A hop of the escalation with this id. -/
def hop (id : EscalationId) (run : RunId) (next : Recipient) (c : Case) : Case :=
  if c.id = id then { c with pending := c.pending.passed run next } else c

@[simp] theorem hop_id (id : EscalationId) (run : RunId) (next : Recipient) (c : Case) :
    (c.hop id run next).id = c.id := by
  unfold hop
  split <;> rfl

@[simp] theorem hop_raisedBy (id : EscalationId) (run : RunId) (next : Recipient) (c : Case) :
    (c.hop id run next).raisedBy = c.raisedBy := by
  unfold hop
  split <;> rfl

@[simp] theorem hop_number (id : EscalationId) (run : RunId) (next : Recipient) (c : Case) :
    (c.hop id run next).number = c.number := by
  unfold hop
  split <;> rfl

end Case

/-- The accepted raises that are not resolved, in order, and how many there were. -/
structure Ledger where
  accepted : Nat
  cases : List Case
  deriving DecidableEq, Repr

/-- What an event does to the open cases: a raise opens one, with its content and no
chain; a run that passed one up is added to its chain; a resolved one is closed. -/
def Ledger.record (ledger : Ledger) : Event → Ledger
  | .raised id raisedBy recipient req =>
    { accepted := ledger.accepted + 1
      cases := ledger.cases ++ [⟨ledger.accepted + 1, .opened id raisedBy req recipient⟩] }
  | .advanced id run next => { ledger with cases := ledger.cases.map (·.hop id run next) }
  | .resolved id => { ledger with cases := ledger.cases.filter (·.id ≠ id) }
  | .refused => ledger

/-- The cases the ledger has open under an id. -/
def Ledger.under (ledger : Ledger) (id : EscalationId) : List Pending :=
  (ledger.cases.filter (·.id = id)).map Case.pending

/-- The events of a history of calls, from this desk on. -/
def eventsFrom (desk : EscalationDesk) : List Call → List Event
  | [] => []
  | call :: rest => (desk.answer forRaise call).1 :: eventsFrom (desk.answer forRaise call).2 rest

def ledgerAfter (calls : List Call) : Ledger :=
  (eventsFrom forRaise .new calls).foldl Ledger.record ⟨0, []⟩

/-! ## What the desk owes -/

/-- The desk holds, under every id, exactly the open cases of that id. -/
def Exact (desk : EscalationDesk) (ledger : Ledger) : Prop :=
  ∀ id, (desk.pending.get? id).toList = ledger.under id

structure Orderly (calls : List Call) : Prop where
  distinct : Throughout (fun before call => ∀ id raisedBy recipient req,
    ((deskAfter forRaise before).answer forRaise call).1 = .raised id raisedBy recipient req →
      id ∉ (deskAfter forRaise before).pendingIds) calls
  exact : ∀ done, done <+: calls → Exact (deskAfter forRaise done) (ledgerAfter forRaise done)
  handed : Throughout (fun before call => ∀ id run next,
    ((deskAfter forRaise before).answer forRaise call).1 = .advanced id run next →
      (deskAfter forRaise before).addressedTo id = some (.run run)) calls
  withUser : ∀ before between, before ++ between <+: calls → ∀ id,
    (deskAfter forRaise before).addressedTo id = some .user →
      (∀ choice, .resolve id choice ∉ between) →
        (deskAfter forRaise (before ++ between)).addressedTo id = some .user
  refused : Throughout (fun before call =>
    ((deskAfter forRaise before).answer forRaise call).1 = .refused →
      ((deskAfter forRaise before).answer forRaise call).2.pending =
        (deskAfter forRaise before).pending) calls

/-- A raise the desk takes: its route leads to someone, and its options are few enough. -/
def Accepted (route : EscalationRoute) (req : EscalationRequest) : Prop :=
  (∃ recipient, recipientOf route = .ok recipient) ∧ req.options.length ≤ maxAgentOptions

/-- Past the counter's end, the raiser has nothing open that was raised at its end. -/
def Room (ledger : Ledger) (raisedBy : RunId) : Prop :=
  u32Max ≤ ledger.accepted → ∀ c ∈ ledger.cases, c.raisedBy = raisedBy → c.number < u32Max

/-- Once the counter is at its end, no run raises while an escalation it raised with the
counter at its end is open. -/
def Spaced (calls : List Call) : Prop :=
  Throughout (fun before call => ∀ raisedBy route req, call = .raise raisedBy route req →
    Accepted route req → Room (ledgerAfter forRaise before) raisedBy) calls

variable {forRaise}

/-! ## One call -/

variable (forRaise) in
/-- Everything a call can do. -/
theorem answer_cases (desk : EscalationDesk) (call : Call) :
    (∃ raisedBy route req recipient, call = .raise raisedBy route req ∧
      recipientOf route = .ok recipient ∧ req.options.length ≤ maxAgentOptions ∧
      desk.answer forRaise call =
        (.raised (forRaise raisedBy (min (desk.seq + 1) u32Max)) raisedBy recipient req,
          { pending := desk.pending.insert (forRaise raisedBy (min (desk.seq + 1) u32Max))
              (.opened (forRaise raisedBy (min (desk.seq + 1) u32Max)) raisedBy req recipient)
            seq := min (desk.seq + 1) u32Max })) ∨
    (∃ id run route next p, call = .advance id run route ∧ recipientOf route = .ok next ∧
      desk.pending.get? id = some p ∧ p.recipient = .run run ∧
      desk.answer forRaise call =
        (.advanced id run next,
          { desk with pending := desk.pending.modify id (·.passed run next) })) ∨
    (∃ id choice p, call = .resolve id choice ∧ desk.pending.get? id = some p ∧
      desk.answer forRaise call =
        (.resolved id, { desk with pending := desk.pending.erase id })) ∨
    desk.answer forRaise call = (.refused, desk) := by
  cases call with
  | raise raisedBy route req =>
    cases hroute : recipientOf route with
    | error why => exact .inr (.inr (.inr (by simp [EscalationDesk.answer, EscalationDesk.raise, hroute])))
    | ok recipient =>
      by_cases hmany : req.options.length > maxAgentOptions
      · exact .inr (.inr (.inr (by
          simp [EscalationDesk.answer, EscalationDesk.raise, hroute, hmany])))
      · refine .inl ⟨raisedBy, route, req, recipient, rfl, hroute, by omega, ?_⟩
        simp only [EscalationDesk.answer, EscalationDesk.raise, hroute, if_neg hmany]
  | advance id run route =>
    cases hget : desk.pending.get? id with
    | none => exact .inr (.inr (.inr (by simp [EscalationDesk.answer, EscalationDesk.advance, hget])))
    | some p =>
      cases hwith : p.recipient with
      | user =>
        exact .inr (.inr (.inr (by simp [EscalationDesk.answer, EscalationDesk.advance, hget, hwith])))
      | run holder =>
        by_cases hholder : holder = run
        · cases hroute : recipientOf route with
          | error why =>
            exact .inr (.inr (.inr (by
              simp [EscalationDesk.answer, EscalationDesk.advance, hget, hwith, hholder, hroute])))
          | ok next =>
            refine .inr (.inl ⟨id, run, route, next, p, rfl, hroute, hget, hholder ▸ hwith, ?_⟩)
            simp [EscalationDesk.answer, EscalationDesk.advance, hget, hwith, hholder, hroute]
        · exact .inr (.inr (.inr (by
            simp [EscalationDesk.answer, EscalationDesk.advance, hget, hwith, hholder])))
  | resolve id choice =>
    cases hget : desk.pending.get? id with
    | none => exact .inr (.inr (.inr (by simp [EscalationDesk.answer, EscalationDesk.resolve, hget])))
    | some p =>
      exact .inr (.inr (.inl ⟨id, choice, p, rfl, hget, by
        simp [EscalationDesk.answer, EscalationDesk.resolve, hget]⟩))

theorem deskAfter_concat (calls : List Call) (call : Call) :
    deskAfter forRaise (calls ++ [call]) = ((deskAfter forRaise calls).answer forRaise call).2 := by
  simp [deskAfter]

theorem eventsFrom_concat (desk : EscalationDesk) (calls : List Call) (call : Call) :
    eventsFrom forRaise desk (calls ++ [call]) =
      eventsFrom forRaise desk calls ++
        [((calls.foldl (fun desk call => (desk.answer forRaise call).2) desk).answer
          forRaise call).1] := by
  induction calls generalizing desk with
  | nil => rfl
  | cons first rest ih => simp [eventsFrom, ih]

theorem ledgerAfter_concat (calls : List Call) (call : Call) :
    ledgerAfter forRaise (calls ++ [call]) =
      (ledgerAfter forRaise calls).record
        ((deskAfter forRaise calls).answer forRaise call).1 := by
  simp [ledgerAfter, deskAfter, eventsFrom_concat]

/-! ## The counter and the ids -/

/-- The counter is the number of accepted raises, up to its end, and the id of an open
case is made of its raiser and of its number, up to the counter's end. -/
structure Numbered (forRaise : RunId → Nat → EscalationId) (desk : EscalationDesk)
    (ledger : Ledger) : Prop where
  seq : desk.seq = min ledger.accepted u32Max
  number_le : ∀ c ∈ ledger.cases, c.number ≤ ledger.accepted
  id_eq : ∀ c ∈ ledger.cases, c.id = forRaise c.raisedBy (min c.number u32Max)

theorem Numbered.next {desk : EscalationDesk} {ledger : Ledger} (h : Numbered forRaise desk ledger) :
    min (desk.seq + 1) u32Max = min (ledger.accepted + 1) u32Max := by
  have hseq := h.seq
  omega

theorem Numbered.answer {desk : EscalationDesk} {ledger : Ledger} (h : Numbered forRaise desk ledger)
    (call : Call) :
    Numbered forRaise (desk.answer forRaise call).2
      (ledger.record (desk.answer forRaise call).1) := by
  rcases answer_cases forRaise desk call with
    ⟨raisedBy, route, req, recipient, -, -, -, heq⟩ | ⟨id, run, route, next, p, -, -, -, -, heq⟩ |
    ⟨id, choice, p, -, -, heq⟩ | heq
  · rw [heq]
    refine ⟨h.next, fun c hc => ?_, fun c hc => ?_⟩
    · rcases List.mem_append.mp hc with hold | hnew
      · exact Nat.le_succ_of_le (h.number_le c hold)
      · obtain rfl := List.mem_singleton.mp hnew
        exact Nat.le_refl _
    · rcases List.mem_append.mp hc with hold | hnew
      · exact h.id_eq c hold
      · obtain rfl := List.mem_singleton.mp hnew
        show forRaise raisedBy _ = forRaise raisedBy _
        rw [h.next]
  · rw [heq]
    refine ⟨h.seq, fun c hc => ?_, fun c hc => ?_⟩
    · obtain ⟨c', hc', rfl⟩ := List.mem_map.mp hc
      show (c'.hop id run next).number ≤ ledger.accepted
      rw [Case.hop_number]
      exact h.number_le c' hc'
    · obtain ⟨c', hc', rfl⟩ := List.mem_map.mp hc
      simpa using h.id_eq c' hc'
  · rw [heq]
    exact ⟨h.seq, fun c hc => h.number_le c (List.mem_filter.mp hc).1,
      fun c hc => h.id_eq c (List.mem_filter.mp hc).1⟩
  · rw [heq]
    exact h

theorem numbered (calls : List Call) :
    Numbered forRaise (deskAfter forRaise calls) (ledgerAfter forRaise calls) := by
  induction calls using List.reverseRecOn with
  | nil => exact ⟨rfl, fun _ h => absurd h List.not_mem_nil, fun _ h => absurd h List.not_mem_nil⟩
  | append_singleton calls call ih =>
    rw [deskAfter_concat, ledgerAfter_concat]
    exact ih.answer call

/-! ## The pending escalations -/

@[simp] theorem under_raised (ledger : Ledger) (id k : EscalationId) (raisedBy : RunId)
    (recipient : Recipient) (req : EscalationRequest) :
    (ledger.record (.raised id raisedBy recipient req)).under k =
      ledger.under k ++ if id = k then [.opened id raisedBy req recipient] else [] := by
  simp only [Ledger.under, Ledger.record, List.filter_append, List.map_append]
  by_cases hid : id = k
  · simp [hid, Case.id, Pending.opened]
  · simp [hid, Case.id, Pending.opened]

@[simp] theorem under_advanced (ledger : Ledger) (id k : EscalationId) (run : RunId)
    (next : Recipient) :
    (ledger.record (.advanced id run next)).under k =
      if id = k then (ledger.under k).map (·.passed run next) else ledger.under k := by
  have hfilter : (ledger.cases.map (·.hop id run next)).filter (·.id = k) =
      (ledger.cases.filter (·.id = k)).map (·.hop id run next) := by
    simp [List.filter_map, Function.comp_def]
  simp only [Ledger.under, Ledger.record, hfilter, List.map_map]
  split
  · rename_i hid
    refine List.map_congr_left fun c hc => ?_
    have hk : c.id = k := by simpa using (List.mem_filter.mp hc).2
    simp [Case.hop, hk, hid]
  · rename_i hid
    refine List.map_congr_left fun c hc => ?_
    have hk : c.id = k := by simpa using (List.mem_filter.mp hc).2
    simp [Case.hop, hk, Ne.symm hid]

@[simp] theorem under_resolved (ledger : Ledger) (id k : EscalationId) :
    (ledger.record (.resolved id)).under k = if id = k then [] else ledger.under k := by
  simp only [Ledger.under, Ledger.record, List.filter_filter]
  split
  · rename_i hid
    simp [hid]
  · rename_i hid
    refine congrArg _ (List.filter_congr fun c _ => ?_)
    by_cases hk : c.id = k
    · simp [hk, Ne.symm hid]
    · simp [hk]

/-- An open case is among those under its id. -/
theorem Ledger.under_ne_nil {ledger : Ledger} {c : Case} (h : c ∈ ledger.cases) :
    ledger.under c.id ≠ [] := by
  have hc : c.pending ∈ ledger.under c.id :=
    List.mem_map_of_mem (List.mem_filter.mpr ⟨h, by simp⟩)
  exact List.ne_nil_of_mem hc

/-- A call keeps the desk exact, if the id of what it raises is not pending. -/
theorem Exact.answer {desk : EscalationDesk} {ledger : Ledger} (h : Exact desk ledger) (call : Call)
    (hfresh : ∀ id raisedBy recipient req,
      (desk.answer forRaise call).1 = .raised id raisedBy recipient req →
        desk.pending.get? id = none) :
    Exact (desk.answer forRaise call).2 (ledger.record (desk.answer forRaise call).1) := by
  intro k
  have hk := h k
  rcases answer_cases forRaise desk call with
    ⟨raisedBy, route, req, recipient, -, -, -, heq⟩ | ⟨id, run, route, next, p, -, -, hget, -, heq⟩ |
    ⟨id, choice, p, -, -, heq⟩ | heq
  · have hnone := hfresh _ _ _ _ (congrArg Prod.fst heq)
    rw [heq, under_raised, ← hk, OrderedMap.get?_insert]
    split
    · rename_i hid
      rw [← hid, hnone]
      rfl
    · simp
  · rw [heq, under_advanced, ← hk, OrderedMap.get?_modify]
    split
    · cases desk.pending.get? k <;> rfl
    · rfl
  · rw [heq, under_resolved, ← hk, OrderedMap.get?_erase]
    split <;> rfl
  · rw [heq]
    exact hk

/-- An id is taken exactly where the raiser has no room. -/
theorem Exact.get?_none_iff {desk : EscalationDesk} {ledger : Ledger}
    (hinj : Function.Injective2 forRaise)
    (h : Exact desk ledger) (hn : Numbered forRaise desk ledger) (raisedBy : RunId) :
    desk.pending.get? (forRaise raisedBy (min (desk.seq + 1) u32Max)) = none ↔
      Room ledger raisedBy := by
  rw [hn.next, ← Option.toList_eq_nil_iff, h]
  constructor
  · intro hnil hend c hc hraised
    by_contra hlast
    have hid : c.id = forRaise raisedBy (min (ledger.accepted + 1) u32Max) := by
      have hmin : min c.number u32Max = min (ledger.accepted + 1) u32Max := by omega
      rw [hn.id_eq c hc, hraised, hmin]
    exact Ledger.under_ne_nil hc (hid ▸ hnil)
  · intro hroom
    simp only [Ledger.under, List.map_eq_nil_iff, List.filter_eq_nil_iff, decide_eq_true_eq]
    intro c hc hid
    have hle := hn.number_le c hc
    obtain ⟨hraised, hmin⟩ := hinj ((hn.id_eq c hc).symm.trans hid)
    have hlt := hroom (by omega) c hc hraised
    omega

/-! ## Whole histories -/

theorem spaced_concat {calls : List Call} {call : Call} (h : Spaced forRaise (calls ++ [call])) :
    Spaced forRaise calls ∧ ∀ raisedBy route req, call = .raise raisedBy route req →
      Accepted route req → Room (ledgerAfter forRaise calls) raisedBy :=
  ⟨Throughout.of_append h, Throughout.at_last h⟩

/-- Where the raiser has room, what it raises takes an id that is not pending. -/
theorem fresh_of_room (hinj : Function.Injective2 forRaise) {calls : List Call} {call : Call}
    (hexact : Exact (deskAfter forRaise calls) (ledgerAfter forRaise calls))
    (hroom : ∀ raisedBy route req, call = .raise raisedBy route req → Accepted route req →
      Room (ledgerAfter forRaise calls) raisedBy)
    {id : EscalationId} {raisedBy : RunId} {recipient : Recipient} {req : EscalationRequest}
    (h : ((deskAfter forRaise calls).answer forRaise call).1 = .raised id raisedBy recipient req) :
    (deskAfter forRaise calls).pending.get? id = none := by
  rcases answer_cases forRaise (deskAfter forRaise calls) call with
    ⟨raisedBy', route, req', recipient', hcall, hroute, hfew, heq⟩ |
    ⟨_, _, _, _, _, -, -, -, -, heq⟩ | ⟨_, _, _, -, -, heq⟩ | heq
  · rw [heq] at h
    cases h
    exact (hexact.get?_none_iff hinj (numbered calls) _).mpr
      (hroom _ _ _ hcall ⟨⟨_, hroute⟩, hfew⟩)
  all_goals
    rw [heq] at h
    cases h

theorem exact_of_spaced (hinj : Function.Injective2 forRaise) {calls : List Call}
    (h : Spaced forRaise calls) : Exact (deskAfter forRaise calls) (ledgerAfter forRaise calls) := by
  induction calls using List.reverseRecOn with
  | nil =>
    intro id
    rfl
  | append_singleton calls call ih =>
    obtain ⟨hbefore, hroom⟩ := spaced_concat h
    have hexact := ih hbefore
    rw [deskAfter_concat, ledgerAfter_concat]
    exact hexact.answer call fun _ _ _ _ => fresh_of_room hinj hexact hroom

/-- What is with the user after a call that does not resolve it. -/
theorem answer_withUser {desk : EscalationDesk} {call : Call} {id : EscalationId}
    (hfresh : ∀ id raisedBy recipient req,
      (desk.answer forRaise call).1 = .raised id raisedBy recipient req →
        desk.pending.get? id = none)
    (h : desk.addressedTo id = some .user) (hresolve : ∀ choice, call ≠ .resolve id choice) :
    (desk.answer forRaise call).2.addressedTo id = some .user := by
  obtain ⟨p, hget, hwith⟩ := Option.map_eq_some_iff.mp h
  rcases answer_cases forRaise desk call with
    ⟨raisedBy, route, req, recipient, -, -, -, heq⟩ |
    ⟨id', run, route, next, p', -, -, hget', hrun, heq⟩ | ⟨id', choice, p', hcall, -, heq⟩ | heq
  · have hnone := hfresh _ _ _ _ (congrArg Prod.fst heq)
    have hne : forRaise raisedBy (min (desk.seq + 1) u32Max) ≠ id := by
      rintro rfl
      rw [hnone] at hget
      cases hget
    rw [heq, EscalationDesk.addressedTo, OrderedMap.get?_insert, if_neg hne]
    exact h
  · have hne : id' ≠ id := by
      rintro rfl
      cases hget.symm.trans hget'
      rw [hrun] at hwith
      cases hwith
    rw [heq, EscalationDesk.addressedTo, OrderedMap.get?_modify, if_neg hne]
    exact h
  · have hne : id' ≠ id := by
      rintro rfl
      exact hresolve choice hcall
    rw [heq, EscalationDesk.addressedTo, OrderedMap.get?_erase, if_neg hne]
    exact h
  · rw [heq]
    exact h

theorem withUser_of_spaced (hinj : Function.Injective2 forRaise) {before between : List Call}
    (h : Spaced forRaise (before ++ between)) {id : EscalationId}
    (huser : (deskAfter forRaise before).addressedTo id = some .user)
    (hresolve : ∀ choice, .resolve id choice ∉ between) :
    (deskAfter forRaise (before ++ between)).addressedTo id = some .user := by
  induction between using List.reverseRecOn with
  | nil => simpa using huser
  | append_singleton between call ih =>
    rw [← List.append_assoc] at h ⊢
    obtain ⟨hbefore, hroom⟩ := spaced_concat h
    have huser := ih hbefore fun choice hmem => hresolve choice (List.mem_append_left _ hmem)
    rw [deskAfter_concat]
    refine answer_withUser (fun _ _ _ _ => fresh_of_room hinj (exact_of_spaced hinj hbefore) hroom)
      huser fun choice hcall => hresolve choice ?_
    rw [hcall]
    exact List.mem_append_right _ List.mem_cons_self

/-- Only the run an escalation is with passes it up, whatever the history. -/
theorem answer_handed {desk : EscalationDesk} {call : Call} {id : EscalationId} {run : RunId}
    {next : Recipient} (h : (desk.answer forRaise call).1 = .advanced id run next) :
    desk.addressedTo id = some (.run run) := by
  rcases answer_cases forRaise desk call with
    ⟨_, _, _, _, -, -, -, heq⟩ | ⟨id', run', route, next', p, -, -, hget, hrun, heq⟩ |
    ⟨_, _, _, -, -, heq⟩ | heq
  · rw [heq] at h
    cases h
  · rw [heq] at h
    cases h
    rw [EscalationDesk.addressedTo, hget]
    exact congrArg some hrun
  all_goals
    rw [heq] at h
    cases h

/-- A refused call changes nothing, whatever the history. -/
theorem answer_refused {desk : EscalationDesk} {call : Call}
    (h : (desk.answer forRaise call).1 = .refused) : (desk.answer forRaise call).2 = desk := by
  rcases answer_cases forRaise desk call with
    ⟨_, _, _, _, -, -, -, heq⟩ | ⟨_, _, _, _, _, -, -, -, -, heq⟩ | ⟨_, _, _, -, -, heq⟩ | heq
  case inr.inr.inr => rw [heq]
  all_goals
    rw [heq] at h
    cases h

theorem notMem_pendingIds {desk : EscalationDesk} {id : EscalationId} :
    id ∉ desk.pendingIds ↔ desk.pending.get? id = none := by
  rw [EscalationDesk.pendingIds, OrderedMap.mem_keys_iff, Option.not_isSome_iff_eq_none]

/-- **When escalations are never lost.** A history of calls keeps to its chains, and the
desk holds exactly what is open, if and only if no run raises past the counter's end
while something it raised at the counter's end is open. -/
theorem orderly_iff (forRaise : RunId → Nat → EscalationId) (hinj : Function.Injective2 forRaise)
    (calls : List Call) : Orderly forRaise calls ↔ Spaced forRaise calls := by
  constructor
  · rintro h before call after hsplit raisedBy route req rfl ⟨⟨recipient, hroute⟩, hfew⟩
    have hexact := h.exact before ⟨_, hsplit.symm⟩
    refine (hexact.get?_none_iff hinj (numbered before) raisedBy).mp (notMem_pendingIds.mp ?_)
    refine h.distinct before _ after hsplit _ raisedBy recipient req ?_
    simp only [EscalationDesk.answer, EscalationDesk.raise, hroute, if_neg (Nat.not_lt.mpr hfew)]
  · intro h
    have hup : ∀ done, done <+: calls → Spaced forRaise done := by
      rintro done ⟨rest, rfl⟩
      exact Throughout.of_append h
    refine ⟨fun before call after hsplit _ _ _ _ hraised => notMem_pendingIds.mpr ?_,
      fun done hdone => exact_of_spaced hinj (hup done hdone),
      fun _ _ _ _ _ _ _ hadvanced => answer_handed hadvanced,
      fun before between hdone id => withUser_of_spaced hinj (hup _ hdone),
      fun _ _ _ _ hrefused => congrArg _ (answer_refused hrefused)⟩
    exact fresh_of_room hinj (exact_of_spaced hinj (hup before ⟨_, hsplit.symm⟩))
      (h before call after hsplit) hraised

variable (forRaise) in
/-- The counter's end is out of reach of a history this short. -/
theorem accepted_le_length (calls : List Call) :
    (ledgerAfter forRaise calls).accepted ≤ calls.length := by
  induction calls using List.reverseRecOn with
  | nil => exact Nat.le_refl 0
  | append_singleton calls call ih =>
    rw [ledgerAfter_concat, List.length_append, List.length_singleton]
    cases ((deskAfter forRaise calls).answer forRaise call).1 with
    | raised id raisedBy recipient req => exact Nat.succ_le_succ ih
    | advanced id run next => exact Nat.le_succ_of_le ih
    | resolved id => exact Nat.le_succ_of_le ih
    | refused => exact Nat.le_succ_of_le ih

theorem spaced_of_length {calls : List Call} (h : calls.length ≤ u32Max) :
    Spaced forRaise calls := by
  rintro before call after hsplit raisedBy route req - - hend
  have hle := accepted_le_length forRaise before
  have hlength := congrArg List.length hsplit
  simp only [List.length_append, List.length_cons] at hlength
  omega

/-! ## The counter's end -/

/-- One run raising to the user. -/
def pleaded : Call := .raise 1 .user ⟨.blocking, .scopeContradiction, [], none, none⟩

variable (forRaise) in
/-- The desk after a run raised again and again: the last one is under the id of the
counter as it is then. -/
theorem pleaded_again (n : Nat) :
    (deskAfter forRaise (List.replicate (n + 1) pleaded)).seq = min (n + 1) u32Max ∧
      ((deskAfter forRaise (List.replicate (n + 1) pleaded)).pending.get?
        (forRaise 1 (min (n + 1) u32Max))).isSome := by
  have hstep : ∀ desk : EscalationDesk, desk.answer forRaise pleaded =
      (.raised (forRaise 1 (min (desk.seq + 1) u32Max)) 1 .user
          ⟨.blocking, .scopeContradiction, [], none, none⟩,
        { pending := desk.pending.insert (forRaise 1 (min (desk.seq + 1) u32Max))
            (.opened (forRaise 1 (min (desk.seq + 1) u32Max)) 1
              ⟨.blocking, .scopeContradiction, [], none, none⟩ .user)
          seq := min (desk.seq + 1) u32Max }) := fun _ => rfl
  have hseq : ∀ n, (deskAfter forRaise (List.replicate n pleaded)).seq = min n u32Max := by
    intro n
    induction n with
    | zero => rfl
    | succ n ih =>
      rw [List.replicate_succ', deskAfter_concat, hstep]
      show min ((deskAfter forRaise (List.replicate n pleaded)).seq + 1) u32Max = _
      omega
  have hmin : min ((deskAfter forRaise (List.replicate n pleaded)).seq + 1) u32Max =
      min (n + 1) u32Max := by
    have hn := hseq n
    omega
  refine ⟨hseq (n + 1), ?_⟩
  rw [List.replicate_succ', deskAfter_concat, hstep, hmin, OrderedMap.get?_insert_self]
  rfl

end Histories

/-- An escalation passed up and resolved. -/
def resolvedOnce : List Call :=
  [.raise 3 (.parent 2) ⟨.blocking, .scopeContradiction, ["stop", "go on"], none, none⟩,
    .advance (Nat.pair 3 1) 2 .user, .resolve (Nat.pair 3 1) .terminate]

theorem pair_injective2 : Function.Injective2 Nat.pair := fun _ _ _ _ h => Nat.pair_eq_pair.mp h

theorem orderly_iff_resolvedOnce : Orderly Nat.pair resolvedOnce :=
  (orderly_iff Nat.pair pair_injective2 resolvedOnce).mpr (spaced_of_length (by decide))

/-- The raise after the counter's end takes the id of the one before, which is pending. -/
theorem escalation_overwritten : ¬ ∀ (forRaise : RunId → Nat → EscalationId),
    Function.Injective2 forRaise → ∀ calls, Orderly forRaise calls := by
  intro hall
  have horderly := hall Nat.pair pair_injective2 (List.replicate (u32Max - 1 + 1) pleaded ++ [pleaded])
  obtain ⟨hseq, hpending⟩ := pleaded_again Nat.pair (u32Max - 1)
  have hfresh := horderly.distinct _ pleaded [] rfl _ 1 .user
    ⟨.blocking, .scopeContradiction, [], none, none⟩ rfl
  rw [hseq, notMem_pendingIds] at hfresh
  rw [show min (min (u32Max - 1 + 1) u32Max + 1) u32Max = min (u32Max - 1 + 1) u32Max by
    simp only [u32Max]; omega] at hfresh
  rw [hfresh] at hpending
  cases hpending

end MarloweAgent.Daemon
