import MarloweAgent.Daemon.ControlPlane

/-! Children in the run table. The recorder writes every event to the journal and keeps
the table in step: a spawn adds a row, a checkpoint updates the row it was recorded
under, a settlement marks the row of the child it names. -/

namespace MarloweAgent.Daemon
open Contract EventLog Library Loop

/-- A status as its serialised checkpoint names it. -/
def statusWord : RunStatus → String
  | .queued => "queued"
  | .running => "running"
  | .waitingApproval _ => "waiting_approval"
  | .waitingEvent _ => "waiting_event"
  | .paused _ => "paused"
  | .completed => "completed"
  | .failed _ => "failed"
  | .cancelled => "cancelled"

/-- The words a checkpoint ends a run with are the table's terminal words. -/
@[simp] theorem isTerminalWord_statusWord (cp : Checkpoint) :
    isTerminalWord (statusWord cp.status) = cp.isTerminal := by
  unfold Checkpoint.isTerminal
  cases cp.status <;> simp [isTerminalWord, statusWord]

/-- The child and depth a spawn's payload names. -/
def spawnedChild : Payload → Option (RunId × Nat)
  | .childSpawned child _ _ depth _ _ _ _ => some (child, depth % 2 ^ 8)
  | .readerSpawned child _ _ _ _ => some (child, 0)
  | _ => none

/-- What a checkpoint makes of a row. -/
def RunSummary.checkpointed (s : RunSummary) (cp : Checkpoint) : RunSummary :=
  let word := statusWord cp.status
  { s with
    tokens := cp.spent.tokens
    spendMicrosUsd := cp.spent.microsUsd
    status := word
    elapsedMs := if isTerminalWord word then cp.spent.wallMs else s.elapsedMs }

namespace ControlPlane

/-- The table after an event reached the journal. -/
def follow (plane : ControlPlane) (clock : Clock) (kind : EventKind) (run : RunId)
    (payload : Payload) : ControlPlane :=
  match kind with
  | .runSpawned =>
    match spawnedChild payload with
    | none => plane
    | some (child, depth) =>
      match plane.runs.get? child with
      | some _ => plane
      | none =>
        { plane with runs := plane.runs.insert child { RunSummary.accepted child clock.nowMs with depth } }
  | .checkpointed =>
    match payload with
    | .checkpoint cp => { plane with runs := plane.runs.modify run (·.checkpointed cp) }
    | _ => plane
  | .runCompleted =>
    match payload with
    | .childFate child fate _ =>
      { plane with runs := plane.runs.modify child fun s => { s with status := fate } }
    | _ => plane
  | _ => plane

/-- `RosterRecorder::append`, with the journal's answer: the table follows what was written. -/
def append (plane : ControlPlane) (written : Except String Nat) (clock : Clock) (kind : EventKind)
    (run : RunId) (payload : Payload) : Except String Nat × ControlPlane :=
  match written with
  | .error e => (.error e, plane)
  | .ok seq =>
    let logged : ControlPlane := { plane with log := plane.log ++ [⟨kind, run, payload⟩] }
    (.ok seq, logged.follow clock kind run payload)

end ControlPlane

/-! ## What the log says of a run -/

/-- The run a row of the log settles the state of, and whether it stops it for good. -/
def about (entry : Recorded) : Option (RunId × Bool) :=
  match entry.kind, entry.payload with
  | .checkpointed, .checkpoint cp => some (cp.run, cp.isTerminal)
  | .runCompleted, .childFate child fate _ =>
    some (child, fate = "terminated" ∨ isTerminalWord fate)
  | _, _ => none

/-- The run's latest checkpoint or settlement is terminal. -/
def stopped (log : List Recorded) (run : RunId) : Bool :=
  match KeyedLog.lastOf Prod.fst run (log.filterMap about) with
  | some (_, terminal) => terminal
  | none => false

theorem stopped_snoc (log : List Recorded) (entry : Recorded) (run : RunId) :
    stopped (log ++ [entry]) run =
      match about entry with
      | some (other, terminal) => if other = run then terminal else stopped log run
      | none => stopped log run := by
  unfold stopped
  rw [List.filterMap_append]
  cases habout : about entry with
  | none => simp [habout]
  | some state =>
    obtain ⟨other, terminal⟩ := state
    by_cases h : other = run
    · simp [habout, h, KeyedLog.lastOf_snoc_self]
    · simp [habout, h, KeyedLog.lastOf_snoc_ne]

/-! ## Histories -/

/-- Something that reaches the table. -/
inductive Happening
  | recorded (written : Except String Nat) (clock : Clock) (kind : EventKind) (run : RunId)
      (payload : Payload)
  | steer (run : RunId) (text : String)
  | cancel (run : RunId)
  | accepted (run : RunId) (now : Int)
  | finished (run : RunId) (word : String) (spent : Budget) (depth : Nat)

/-- A request of the control port. -/
def Happening.isRequest : Happening → Bool
  | .steer _ _ | .cancel _ => true
  | _ => false

section Table

variable (shown : RunStatus → String) (now : Int)

def ControlPlane.step (plane : ControlPlane) : Happening → ControlPlane
  | .recorded written clock kind run payload => (plane.append written clock kind run payload).2
  | .steer run text => (plane.steer shown now run text).2
  | .cancel run => (plane.cancel shown now run).2
  | .accepted run now => plane.accept run now
  | .finished run word spent depth => plane.finish run word spent depth

def tableAfter (history : List Happening) : ControlPlane :=
  history.foldl (ControlPlane.step shown now) .new

/-! ## What the table owes -/

/-- A row and the log, of one run: they agree on whether it has stopped, and once it has,
its elapsed time is fixed and a steer is refused with nothing queued. -/
structure RowAgrees (plane : ControlPlane) (run : RunId) (s : RunSummary) : Prop where
  terminal : stopped plane.log run = true → isTerminalWord s.status = true
  live : stopped plane.log run = false → isTerminalWord s.status = false
  elapsed : stopped plane.log run = true → ∀ now, (plane.detail shown now run).elapsedMs = s.elapsedMs
  refused : stopped plane.log run = true → ∀ now text, ∃ why,
    plane.steer shown now run text = (.error why, plane)

def TableAgrees (plane : ControlPlane) : Prop :=
  ∀ run s, plane.runs.get? run = some s → RowAgrees shown plane run s

/-- Nothing the log has stopped enters the table or is cancelled, no row is settled as
terminated, and what is written to a row or to the log of a run with a row says of it
what the other says. -/
def keeps (plane : ControlPlane) : Happening → Bool
  | .recorded (.error _) _ _ _ _ => true
  | .recorded (.ok _) _ kind run payload =>
    match kind, payload with
    | .runSpawned, payload =>
      match spawnedChild payload with
      | some (child, _) => (plane.runs.get? child).isSome || !stopped plane.log child
      | none => true
    | .checkpointed, .checkpoint cp =>
      run = cp.run ||
        (((plane.runs.get? run).isNone || stopped plane.log run = cp.isTerminal) &&
          ((plane.runs.get? cp.run).isNone || stopped plane.log cp.run = cp.isTerminal))
    | .runCompleted, .childFate child fate _ =>
      (plane.runs.get? child).isNone || fate ≠ "terminated"
    | _, _ => true
  | .steer _ _ => true
  | .cancel run => (plane.runs.get? run).isNone || !stopped plane.log run
  | .accepted run _ => !stopped plane.log run
  | .finished run word _ _ =>
    (plane.runs.get? run).isNone || isTerminalWord word = stopped plane.log run

/-- Every step of the history keeps the table right. -/
def keepsThroughout (plane : ControlPlane) : List Happening → Bool
  | [] => true
  | h :: rest => keeps plane h && keepsThroughout (plane.step shown now h) rest

variable {shown now}

/-! ## One step -/

/-- The core of it: a row's word is terminal where the log has stopped the run. -/
def RowsMatch (plane : ControlPlane) : Prop :=
  ∀ run s, plane.runs.get? run = some s → isTerminalWord s.status = stopped plane.log run

theorem steer_stopped {plane : ControlPlane} {run : RunId} {s : RunSummary}
    (hrow : plane.runs.get? run = some s) (h : isTerminalWord s.status = true) (text : String) :
    ∃ why, plane.steer shown now run text = (.error why, plane) := by
  have hstopped : ((plane.runs.get? run).map RunSummary.status).filter
      (· ∈ ["completed", "failed", "cancelled"]) = some s.status := by
    rw [hrow]
    exact Option.filter_eq_some_iff.mpr ⟨rfl, h⟩
  unfold ControlPlane.steer
  simp only [hstopped]
  exact ⟨_, rfl⟩

theorem RowsMatch.tableAgrees {plane : ControlPlane} (h : RowsMatch plane) :
    TableAgrees shown plane := by
  intro run s hrow
  have hmatch := h run s hrow
  refine ⟨fun hs => hmatch.trans hs, fun hs => hmatch.trans hs, fun hs now => ?_,
    fun hs now => steer_stopped hrow (hmatch.trans hs)⟩
  have hword := hmatch.trans hs
  simp [ControlPlane.detail, hrow, ControlPlane.elapsedOf, hword]

theorem TableAgrees.rowsMatch {plane : ControlPlane} (h : TableAgrees shown plane) :
    RowsMatch plane := by
  intro run s hrow
  cases hs : stopped plane.log run with
  | true => exact (h run s hrow).terminal hs
  | false => exact (h run s hrow).live hs

/-- A row rewritten with a word, and nothing new in the log. -/
theorem rowsMatch_modify {plane after : ControlPlane} (h : RowsMatch plane) (run : RunId)
    (f : RunSummary → RunSummary) (terminal : Bool) (hruns : after.runs = plane.runs.modify run f)
    (hlog : ∀ r, stopped after.log r = stopped plane.log r)
    (hf : ∀ s, isTerminalWord (f s).status = terminal) :
    RowsMatch after ↔ ((plane.runs.get? run).isNone || terminal = stopped plane.log run) = true := by
  unfold RowsMatch
  simp only [hruns, hlog, OrderedMap.get?_modify]
  cases hrow : plane.runs.get? run with
  | none =>
    refine ⟨fun _ => rfl, fun _ r s hs => ?_⟩
    split at hs
    · rename_i heq
      rw [← heq, hrow] at hs
      cases hs
    · exact h r s hs
  | some row =>
    constructor
    · intro hall
      have hrun := hall run (f row) (by simp [hrow])
      rw [hf] at hrun
      simpa using hrun
    · intro hterminal r s hs
      split at hs
      · rename_i heq
        rw [← heq, hrow] at hs
        cases hs
        rw [hf, ← heq]
        simpa using hterminal
      · exact h r s hs

/-- A row rewritten with a word, and the log saying something of a run. -/
theorem rowsMatch_logged {plane after : ControlPlane} (h : RowsMatch plane) (run other : RunId)
    (f : RunSummary → RunSummary) (word terminal : Bool)
    (hruns : after.runs = plane.runs.modify run f)
    (hlog : ∀ r, stopped after.log r = if other = r then terminal else stopped plane.log r)
    (hf : ∀ s, isTerminalWord (f s).status = word) :
    RowsMatch after ↔
      (if run = other then (plane.runs.get? run).isSome → word = terminal
      else ((plane.runs.get? run).isSome → stopped plane.log run = word) ∧
        ((plane.runs.get? other).isSome → stopped plane.log other = terminal)) := by
  unfold RowsMatch
  simp only [hruns, hlog, OrderedMap.get?_modify]
  constructor
  · intro hall
    split
    · rename_i heq
      intro hsome
      obtain ⟨row, hrow⟩ := Option.isSome_iff_exists.mp hsome
      have hrun := hall run (f row) (by simp [hrow])
      rwa [hf, if_pos heq.symm] at hrun
    · rename_i hne
      constructor
      · intro hsome
        obtain ⟨row, hrow⟩ := Option.isSome_iff_exists.mp hsome
        have hrun := hall run (f row) (by simp [hrow])
        rw [hf, if_neg (Ne.symm hne)] at hrun
        exact hrun.symm
      · intro hsome
        obtain ⟨row, hrow⟩ := Option.isSome_iff_exists.mp hsome
        have hother := hall other row (by rw [if_neg hne]; exact hrow)
        rw [if_pos rfl] at hother
        exact (h other row hrow).symm.trans hother
  · intro hcond r s hs
    split at hs
    · rename_i heq
      subst heq
      obtain ⟨row, hrow, rfl⟩ := Option.map_eq_some_iff.mp hs
      rw [hf]
      split at hcond
      · rename_i hro
        rw [if_pos hro.symm]
        exact hcond (by simp [hrow])
      · rename_i hro
        rw [if_neg (Ne.symm hro)]
        exact (hcond.1 (by simp [hrow])).symm
    · rename_i hne
      have hmatch := h r s hs
      by_cases hor : other = r
      · subst hor
        rw [if_pos rfl, hmatch]
        rw [if_neg hne] at hcond
        exact hcond.2 (by simp [hs])
      · rw [if_neg hor, hmatch]

/-- A new row with a word that is not terminal. -/
theorem rowsMatch_insert {plane after : ControlPlane} (h : RowsMatch plane) {run : RunId}
    {row : RunSummary} (hruns : after.runs = plane.runs.insert run row)
    (hlog : ∀ r, stopped after.log r = stopped plane.log r)
    (hrow : isTerminalWord row.status = false) :
    RowsMatch after ↔ (!stopped plane.log run) = true := by
  unfold RowsMatch
  simp only [hruns, hlog, OrderedMap.get?_insert]
  constructor
  · intro hall
    have hrun := hall run row (by simp)
    rw [← hrun, hrow]
    rfl
  · intro hlive r s hs
    split at hs
    · rename_i heq
      cases hs
      rw [hrow, ← heq]
      simpa using hlive
    · exact h r s hs

/-- Neither a row nor what the log says changes. -/
theorem rowsMatch_same {plane after : ControlPlane} (h : RowsMatch plane)
    (hruns : after.runs = plane.runs) (hlog : ∀ r, stopped after.log r = stopped plane.log r) :
    RowsMatch after := by
  intro r s hs
  rw [hlog]
  exact h r s (hruns ▸ hs)

/-- An event that settles nothing about a run leaves what the log says. -/
theorem stopped_of_about_none {log : List Recorded} {entry : Recorded} (h : about entry = none)
    (r : RunId) : stopped (log ++ [entry]) r = stopped log r := by
  rw [stopped_snoc, h]

theorem about_runSpawned (run : RunId) (payload : Payload) :
    about ⟨.runSpawned, run, payload⟩ = none := rfl

theorem rowsMatch_spawned {plane : ControlPlane} (h : RowsMatch plane) (seq : Nat) (clock : Clock)
    (run : RunId) (payload : Payload) :
    RowsMatch (plane.append (.ok seq) clock .runSpawned run payload).2 ↔
      keeps plane (.recorded (.ok seq) clock .runSpawned run payload) = true := by
  have hlog : ∀ r, stopped (plane.log ++ [⟨.runSpawned, run, payload⟩]) r = stopped plane.log r :=
    stopped_of_about_none (about_runSpawned run payload)
  cases hchild : spawnedChild payload with
  | none =>
    simp only [ControlPlane.append, ControlPlane.follow, keeps, hchild, iff_true]
    exact rowsMatch_same h rfl hlog
  | some spawned =>
    obtain ⟨child, depth⟩ := spawned
    cases hrow : plane.runs.get? child with
    | some row =>
      simp only [ControlPlane.append, ControlPlane.follow, keeps, hchild, hrow, Option.isSome_some,
        Bool.true_or, iff_true]
      exact rowsMatch_same h rfl hlog
    | none =>
      simp only [ControlPlane.append, ControlPlane.follow, keeps, hchild, hrow,
        Option.isSome_none, Bool.false_or]
      have hrunning : isTerminalWord "running" = false := by decide
      exact rowsMatch_insert h rfl hlog hrunning

theorem rowsMatch_checkpointed {plane : ControlPlane} (h : RowsMatch plane) (seq : Nat)
    (clock : Clock) (run : RunId) (cp : Checkpoint) :
    RowsMatch (plane.append (.ok seq) clock .checkpointed run (.checkpoint cp)).2 ↔
      keeps plane (.recorded (.ok seq) clock .checkpointed run (.checkpoint cp)) = true := by
  refine (rowsMatch_logged h run cp.run (·.checkpointed cp) cp.isTerminal cp.isTerminal rfl
    (fun r => stopped_snoc _ _ r) fun s => isTerminalWord_statusWord cp).trans ?_
  by_cases hrun : run = cp.run
  · simp [keeps, hrun]
  · cases hr : plane.runs.get? run <;> cases ho : plane.runs.get? cp.run <;>
      simp [keeps, hrun, hr, ho]

theorem rowsMatch_settled {plane : ControlPlane} (h : RowsMatch plane) (seq : Nat) (clock : Clock)
    (run child : RunId) (fate : String) (policy : Option OrphanPolicy) :
    RowsMatch (plane.append (.ok seq) clock .runCompleted run (.childFate child fate policy)).2 ↔
      keeps plane (.recorded (.ok seq) clock .runCompleted run (.childFate child fate policy)) =
        true := by
  refine (rowsMatch_logged h child child (fun s => { s with status := fate }) (isTerminalWord fate)
    (fate = "terminated" ∨ isTerminalWord fate) rfl (fun r => stopped_snoc _ _ r)
    fun s => rfl).trans ?_
  by_cases hfate : fate = "terminated"
  · cases hrow : plane.runs.get? child <;> simp [keeps, hfate, hrow, isTerminalWord]
  · simp [keeps, hfate]

/-- Every other event leaves the table and what the log says alone. -/
theorem rowsMatch_other {plane : ControlPlane} (h : RowsMatch plane) (seq : Nat) (clock : Clock)
    {kind : EventKind} (run : RunId) {payload : Payload} (hspawned : kind ≠ .runSpawned)
    (hcheckpointed : ∀ cp, kind = .checkpointed → payload ≠ .checkpoint cp)
    (hsettled : ∀ child fate policy, kind = .runCompleted → payload ≠ .childFate child fate policy) :
    RowsMatch (plane.append (.ok seq) clock kind run payload).2 ∧
      keeps plane (.recorded (.ok seq) clock kind run payload) = true := by
  have habout : about ⟨kind, run, payload⟩ = none := by
    unfold about
    split
    · rename_i hkind hpayload
      exact absurd hpayload (hcheckpointed _ hkind)
    · rename_i hkind hpayload
      exact absurd hpayload (hsettled _ _ _ hkind)
    · rfl
  have hfollow : ∀ logged : ControlPlane, logged.follow clock kind run payload = logged := by
    intro logged
    unfold ControlPlane.follow
    split
    · exact absurd rfl hspawned
    · split
      · exact absurd rfl (hcheckpointed _ rfl)
      · rfl
    · split
      · exact absurd rfl (hsettled _ _ _ rfl)
      · rfl
    · rfl
  constructor
  · simp only [ControlPlane.append, hfollow]
    exact rowsMatch_same h rfl (stopped_of_about_none habout)
  · unfold keeps
    split <;> simp_all

variable (shown now) in
theorem rowsMatch_step {plane : ControlPlane} (h : RowsMatch plane) (e : Happening) :
    RowsMatch (plane.step shown now e) ↔ keeps plane e = true := by
  cases e with
  | recorded written clock kind run payload =>
    cases written with
    | error e => exact iff_of_true h rfl
    | ok seq =>
      show RowsMatch (plane.append (.ok seq) clock kind run payload).2 ↔ _
      by_cases hspawned : kind = .runSpawned
      · rw [hspawned]
        exact rowsMatch_spawned h seq clock run payload
      by_cases hcheckpointed : ∃ cp, kind = .checkpointed ∧ payload = .checkpoint cp
      · obtain ⟨cp, rfl, rfl⟩ := hcheckpointed
        exact rowsMatch_checkpointed h seq clock run cp
      by_cases hsettled : ∃ child fate policy, kind = .runCompleted ∧
          payload = .childFate child fate policy
      · obtain ⟨child, fate, policy, rfl, rfl⟩ := hsettled
        exact rowsMatch_settled h seq clock run child fate policy
      obtain ⟨hafter, hkeeps⟩ := rowsMatch_other h seq clock run hspawned
        (fun cp hk hp => hcheckpointed ⟨cp, hk, hp⟩)
        fun child fate policy hk hp => hsettled ⟨child, fate, policy, hk, hp⟩
      exact iff_of_true hafter hkeeps
  | steer run text =>
    refine iff_of_true ?_ rfl
    simp only [ControlPlane.step, ControlPlane.steer]
    split
    · exact h
    · split
      · exact h
      · exact h
  | cancel run =>
    have hcancelling : isTerminalWord "cancelling" = false := by decide
    have hmodify : RowsMatch (plane.step shown now (.cancel run)) ↔ _ :=
      rowsMatch_modify h run (fun s => { s with status := "cancelling" }) false rfl
        (fun _ => rfl) fun _ => hcancelling
    rw [hmodify]
    cases hs : stopped plane.log run <;> simp [keeps, hs]
  | accepted run now =>
    have hrunning : isTerminalWord "running" = false := by decide
    exact rowsMatch_insert h rfl (fun _ => rfl) hrunning
  | finished run word spent depth =>
    have hmodify : RowsMatch (plane.step shown now (.finished run word spent depth)) ↔ _ :=
      rowsMatch_modify h run
        (fun s => { s with
          status := word, tokens := spent.tokens, spendMicrosUsd := spent.microsUsd
          elapsedMs := spent.wallMs, depth })
        (isTerminalWord word) rfl (fun _ => rfl) fun _ => rfl
    exact hmodify

/-! ## Whole histories -/

/-- The table agrees with the log after every step exactly where every step keeps it right. -/
theorem rowsMatch_throughout {plane : ControlPlane} (h : RowsMatch plane) (history : List Happening) :
    (∀ done, done <+: history → RowsMatch (done.foldl (ControlPlane.step shown now) plane)) ↔
      keepsThroughout shown now plane history = true := by
  induction history generalizing plane with
  | nil =>
    refine iff_of_true (fun done hdone => ?_) rfl
    obtain rfl := List.prefix_nil.mp hdone
    exact h
  | cons e rest ih =>
    rw [keepsThroughout, Bool.and_eq_true, ← rowsMatch_step shown now h e]
    constructor
    · intro hall
      have hfirst := hall [e] ⟨rest, rfl⟩
      refine ⟨hfirst, (ih hfirst).mp fun done hdone => ?_⟩
      exact hall (e :: done) ((List.prefix_cons_inj e).mpr hdone)
    · rintro ⟨hfirst, hrest⟩ done hdone
      cases done with
      | nil => exact h
      | cons e' done =>
        obtain ⟨rfl, hprefix⟩ := List.cons_prefix_cons.mp hdone
        exact (ih hfirst).mpr hrest done hprefix

variable (shown now) in
/-- A request of the control port leaves the log alone, and every row's elapsed time. -/
theorem request_kept (plane : ControlPlane) {e : Happening} (he : e.isRequest = true) :
    (plane.step shown now e).log = plane.log ∧
      ∀ run s, plane.runs.get? run = some s → ∃ s', (plane.step shown now e).runs.get? run = some s' ∧
        s'.elapsedMs = s.elapsedMs := by
  cases e with
  | steer run text =>
    have hsame : (plane.step shown now (.steer run text)).log = plane.log ∧
        (plane.step shown now (.steer run text)).runs = plane.runs := by
      simp only [ControlPlane.step, ControlPlane.steer]
      split
      · exact ⟨rfl, rfl⟩
      · split
        · exact ⟨rfl, rfl⟩
        · exact ⟨rfl, rfl⟩
    exact ⟨hsame.1, fun r s hrow => ⟨s, hsame.2 ▸ hrow, rfl⟩⟩
  | cancel run =>
    refine ⟨rfl, fun r s hrow => ?_⟩
    simp only [ControlPlane.step, ControlPlane.cancel, OrderedMap.get?_modify]
    by_cases hr : run = r
    · exact ⟨{ s with status := "cancelling" }, by simp [hr, hrow], rfl⟩
    · exact ⟨s, by simp [hr, hrow], rfl⟩
  | _ => cases he

variable (shown now) in
theorem requests_kept (plane : ControlPlane) {requests : List Happening}
    (hrequests : ∀ e ∈ requests, e.isRequest = true) :
    (requests.foldl (ControlPlane.step shown now) plane).log = plane.log ∧
      ∀ run s, plane.runs.get? run = some s →
        ∃ s', (requests.foldl (ControlPlane.step shown now) plane).runs.get? run = some s' ∧
          s'.elapsedMs = s.elapsedMs := by
  induction requests generalizing plane with
  | nil => exact ⟨rfl, fun _ s hrow => ⟨s, hrow, rfl⟩⟩
  | cons e rest ih =>
    obtain ⟨hlog, hrows⟩ := request_kept shown now plane
      (hrequests e List.mem_cons_self)
    obtain ⟨hlog', hrows'⟩ := ih (plane.step shown now e) fun e' he' =>
      hrequests e' (List.mem_cons_of_mem _ he')
    refine ⟨hlog'.trans hlog, fun run s hrow => ?_⟩
    obtain ⟨s', hrow', heq⟩ := hrows run s hrow
    obtain ⟨s'', hrow'', heq'⟩ := hrows' run s' hrow'
    exact ⟨s'', hrow'', heq'.trans heq⟩

variable (shown now)

/-- After every step the table agrees with the log; and what has stopped stays stopped,
with the same elapsed time, whatever is requested next. -/
structure TableKept (history : List Happening) : Prop where
  agrees : ∀ done, done <+: history → TableAgrees shown (tableAfter shown now done)
  stays : ∀ done requests, done ++ requests <+: history → (∀ e ∈ requests, e.isRequest = true) →
    ∀ run s, (tableAfter shown now done).runs.get? run = some s →
      stopped (tableAfter shown now done).log run = true →
        ∃ s', (tableAfter shown now (done ++ requests)).runs.get? run = some s' ∧
          isTerminalWord s'.status = true ∧
          ∀ t₁ t₂, ((tableAfter shown now (done ++ requests)).detail shown t₂ run).elapsedMs =
            ((tableAfter shown now done).detail shown t₁ run).elapsedMs

/-- **When the run table agrees with the log.** -/
theorem table_kept_iff (history : List Happening) :
    TableKept shown now history ↔ keepsThroughout shown now .new history = true := by
  have hstart : RowsMatch .new := fun _ _ hrow => by cases hrow
  rw [← rowsMatch_throughout hstart history]
  constructor
  · exact fun h done hdone => (h.agrees done hdone).rowsMatch
  · intro h
    have hagrees : ∀ done, done <+: history → TableAgrees shown (tableAfter shown now done) :=
      fun done hdone => RowsMatch.tableAgrees (h done hdone)
    refine ⟨hagrees, fun done requests hdone hrequests run s hrow hstopped => ?_⟩
    obtain ⟨hlog, hrows⟩ := requests_kept shown now
      (tableAfter shown now done) hrequests
    obtain ⟨s', hrow', helapsed⟩ := hrows run s hrow
    have hafter : tableAfter shown now (done ++ requests) =
        requests.foldl (ControlPlane.step shown now) (tableAfter shown now done) := by
      simp [tableAfter]
    rw [← hafter] at hlog hrow'
    have hbefore := hagrees done ((List.prefix_append _ _).trans hdone) run s hrow
    have hthen := hagrees (done ++ requests) hdone run s' hrow'
    rw [← hlog] at hstopped
    refine ⟨s', hrow', hthen.terminal hstopped, fun t₁ t₂ => ?_⟩
    rw [hthen.elapsed hstopped t₂, helapsed, hbefore.elapsed (hlog ▸ hstopped) t₁]

end Table

/-! ## A parent that ends before its child -/

def parentRun : Run := .root 1 1 .quarantinedReader {} .answer

/-- The child's checkpoint after its first step. -/
def childCheckpoint : Checkpoint :=
  .capture { Run.child 2 parentRun 2 .quarantinedReader {} .terminate .answer with status := .running }
    (.new 2 "Marlowe.") 1 0

/-- A turn with one child, and what the engine records of the child when the turn ends:
its amended checkpoint and then its fate, both under the parent. -/
def parentEnds : List Happening :=
  [.accepted 1 0,
    .recorded (.ok 1) ⟨0⟩ .runSpawned 1
      (.childSpawned 2 .terminate 4000 1 false .worker .worker "typed"),
    .recorded (.ok 2) ⟨0⟩ .checkpointed 2 (.checkpoint childCheckpoint),
    .recorded (.ok 3) ⟨0⟩ .checkpointed 1 (.checkpoint { childCheckpoint with status := .cancelled }),
    .recorded (.ok 4) ⟨0⟩ .runCompleted 1 (.childFate 2 "terminated" (some .terminate))]

/-- The parent, which goes on, is shown as cancelled; its child, which does not, is not. -/
theorem terminated_child_live : ¬ ∀ (shown : RunStatus → String) (now : Int) (history : List Happening),
    TableKept shown now history := by
  intro hall
  let plane := tableAfter (fun _ => "") 0 parentEnds
  have hagrees := (hall (fun _ => "") 0 parentEnds).agrees parentEnds List.prefix_rfl
  obtain ⟨s, hrow, hstatus⟩ : ∃ s, plane.runs.get? 2 = some s ∧ s.status = "terminated" :=
    ⟨{ RunSummary.accepted 2 0 with status := "terminated", depth := 1 }, by decide, rfl⟩
  have hstopped : stopped plane.log 2 = true := by decide
  have hterminal := (hagrees 2 s hrow).terminal hstopped
  rw [hstatus] at hterminal
  exact absurd hterminal (by decide)

end MarloweAgent.Daemon
