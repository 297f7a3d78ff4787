import MarloweAgent.Loop.Execution
import MarloweAgent.Loop.Script

/-! A batch and its results in the session. Every call is answered by one block; the
order is that of the calls except that a group's untrusted results, which are read
elsewhere first, come after the group's others. -/

namespace MarloweAgent.Loop
open Contract Library Tools Permission
open Stateful (each collect)

variable {σ α : Type} {sys : Outside σ}

/-! ## Slots -/

/-- The calls of a group in the order their results come to the session: those whose
result is read elsewhere last. -/
def readLast (slots : List (String × Bool)) : List String :=
  ((slots.filter fun slot => !slot.2) ++ slots.filter fun slot => slot.2).map Prod.fst

theorem readLast_perm (slots : List (String × Bool)) :
    (readLast slots).Perm (slots.map Prod.fst) := by
  have hparts : ((slots.filter fun slot => !slot.2) ++ slots.filter fun slot => slot.2).Perm slots :=
    List.perm_append_comm.trans (List.filter_append_perm (fun slot : String × Bool => slot.2) slots)
  exact hparts.map Prod.fst

theorem flatMap_readLast_perm (groups : List (List (String × Bool))) :
    (groups.flatMap readLast).Perm (groups.flatten.map Prod.fst) := by
  induction groups with
  | nil => exact .nil
  | cons slots rest ih =>
    rw [List.flatMap_cons, List.flatten_cons, List.map_append]
    exact (readLast_perm slots).append ih

/-- Groups follow each other, so the whole is in order exactly when each group is. -/
theorem flatMap_readLast_eq_iff (groups : List (List (String × Bool))) :
    groups.flatMap readLast = groups.flatten.map Prod.fst ↔
      ∀ slots ∈ groups, readLast slots = slots.map Prod.fst := by
  induction groups with
  | nil => simp
  | cons slots rest ih =>
    rw [List.flatMap_cons, List.flatten_cons, List.map_append, List.forall_mem_cons, ← ih]
    constructor
    · intro h
      exact List.append_inj h (by simpa using (readLast_perm slots).length_eq)
    · rintro ⟨hslots, hrest⟩
      rw [hslots, hrest]

/-- The groups a run folded, in order. -/
def foldedBy (run : RunId) (trace : List Effect) : List (List (String × Bool)) :=
  trace.filterMap fun
    | .groupFolded id slots => if id = run then some slots else none
    | _ => none

section FoldedBy

variable {run : RunId} {trace es : List Effect}

theorem foldedBy_append : foldedBy run (trace ++ es) = foldedBy run trace ++ foldedBy run es :=
  List.filterMap_append

/-- What is done by later runs is no folding of this one. -/
theorem foldedBy_of_later (h : ∀ e ∈ es, run < e.actor) : foldedBy run es = [] := by
  refine List.filterMap_eq_nil_iff.mpr fun e he => ?_
  have hlater := h e he
  cases e with
  | groupFolded id slots => exact if_neg (Nat.ne_of_gt hlater)
  | _ => rfl

end FoldedBy

/-! ## What a computation does to the session -/

/-- The session has grown by one block for each of these calls, in this order, and the
run has folded these groups. -/
structure Results (ids : List String) (groups : List (List (String × Bool)))
    (m m' : Machine σ) : Prop where
  run : m'.run.id = m.run.id
  pushed : ∃ blocks, m'.state.volatile = m.state.volatile ++ blocks ∧
    blocks.map Block.callId = ids.map some
  folded : ∃ es, m'.trace = m.trace ++ es ∧ foldedBy m.run.id es = groups

/-- The session has not changed, and no group was folded. -/
abbrev Still (m m' : Machine σ) : Prop := Results [] [] m m'

theorem Results.trans {ids ids' : List String} {groups groups' : List (List (String × Bool))}
    {m m' m'' : Machine σ} (h : Results ids groups m m') (h' : Results ids' groups' m' m'') :
    Results (ids ++ ids') (groups ++ groups') m m'' := by
  obtain ⟨blocks, hblocks, hids⟩ := h.pushed
  obtain ⟨blocks', hblocks', hids'⟩ := h'.pushed
  obtain ⟨es, htrace, hgroups⟩ := h.folded
  obtain ⟨es', htrace', hgroups'⟩ := h'.folded
  refine ⟨h'.run.trans h.run, ⟨blocks ++ blocks', ?_, ?_⟩, es ++ es', ?_, ?_⟩
  · rw [hblocks', hblocks, List.append_assoc]
  · rw [List.map_append, List.map_append, hids, hids']
  · rw [htrace', htrace, List.append_assoc]
  · rw [foldedBy_append, hgroups, ← h.run, hgroups']

namespace Still

theorem refl (m : Machine σ) : Still m m :=
  ⟨rfl, ⟨[], (List.append_nil _).symm, rfl⟩, [], (List.append_nil _).symm, rfl⟩

theorem trans (m m' m'' : Machine σ) (h : Still m m') (h' : Still m' m'') : Still m m'' :=
  Results.trans h h'

/-- Before others, it adds nothing to what they come to. -/
theorem results {ids : List String} {groups : List (List (String × Bool))} {m m' m'' : Machine σ}
    (h : Still m m') (h' : Results ids groups m' m'') : Results ids groups m m'' :=
  Results.trans h h'

/-- Nothing pushed, and some effects other than the folding of a group of this run. -/
theorem of_trace {m m' : Machine σ} {es : List Effect} (run : m'.run.id = m.run.id)
    (state : m'.state = m.state) (trace : m'.trace = m.trace ++ es)
    (h : foldedBy m.run.id es = []) : Still m m' :=
  ⟨run, ⟨[], by rw [state, List.append_nil], rfl⟩, es, trace, h⟩

theorem withEnv (m : Machine σ) (env : σ) : Still m (m.withEnv env) :=
  .of_trace rfl rfl (List.append_nil _).symm rfl

end Still

/-- `f` leaves the session as it is and folds nothing. -/
abbrev Quiet (f : LoopM σ α) : Prop := Stateful.Within Still f

section Quiet

variable {β : Type}

theorem Quiet.pure (a : α) : Quiet (pure a : LoopM σ α) := Stateful.Within.pure Still.refl a

theorem Quiet.bind {f : LoopM σ α} {g : α → LoopM σ β} (hf : Quiet f) (hg : ∀ a, Quiet (g a)) :
    Quiet (f >>= g) :=
  Stateful.Within.bind Still.trans hf hg

theorem Quiet.read {g : Machine σ → LoopM σ β} (h : ∀ m, Quiet (g m)) :
    Quiet (Stateful.read >>= g) :=
  Stateful.Within.read_bind fun m => h m m

theorem quiet_port (f : Stateful σ α) : Quiet (port f) := fun m => .withEnv m _

theorem quiet_note (e : Effect) (h : ∀ run, foldedBy run [e] = []) :
    Quiet (note e : LoopM σ Unit) :=
  fun m => .of_trace rfl rfl rfl (h m.run.id)

theorem quiet_setEngine (f : Engine → Engine) : Quiet (setEngine f : LoopM σ Unit) :=
  fun _ => .of_trace rfl rfl (List.append_nil _).symm rfl

theorem quiet_setRun (f : Run → Run) (h : ∀ run, (f run).id = run.id) :
    Quiet (setRun f : LoopM σ Unit) :=
  fun m => .of_trace (h m.run) rfl (List.append_nil _).symm rfl

theorem quiet_takeCallId : Quiet (takeCallId : LoopM σ Nat) :=
  fun _ => .of_trace rfl rfl (List.append_nil _).symm rfl

theorem quiet_uses (tools : List ToolId) : Quiet (uses tools : LoopM σ Unit) :=
  fun _ => .of_trace rfl rfl rfl rfl

theorem quiet_charge (amount : Budget) : Quiet (charge amount : LoopM σ Unit) :=
  fun _ => .of_trace rfl rfl rfl rfl

theorem quiet_emit (ports : Ports σ) (event : TurnEvent) : Quiet (emit ports event) :=
  fun _ => .of_trace rfl rfl rfl rfl

theorem quiet_record (ports : Ports σ) (kind : EventLog.EventKind) (payload : Payload) :
    Quiet (record ports kind payload) := by
  intro m
  obtain ⟨env, accepted, notice, hrun, hnotice⟩ := record_run ports kind payload m
  rw [hrun]
  refine .of_trace rfl rfl rfl ?_
  refine List.filterMap_eq_nil_iff.mpr fun e he => ?_
  rcases List.mem_cons.mp he with rfl | he
  · rfl
  · rw [hnotice e he]
    rfl

end Quiet

/-! ## Preparing and executing -/

theorem quiet_adjudicateCall (ports : Ports σ) (req : Request) :
    Quiet (adjudicateCall sys ports req) :=
  .read fun _ => (quiet_setEngine _).bind fun _ => (quiet_port _).bind fun _ =>
    (quiet_note _ fun _ => rfl).bind fun _ => (quiet_record _ _ _).bind fun _ => .pure _

theorem quiet_takeApproval (ports : Ports σ) (adjudication : Adjudication) (granted : Bool) :
    Quiet (takeApproval ports adjudication granted) := by
  refine .read fun m => (quiet_note _ fun _ => rfl).bind fun _ => ?_
  cases granted with
  | true =>
    generalize widen adjudication.decision.reasons m.run.profile = widened
    obtain ⟨profile, names⟩ := widened
    refine Quiet.bind (quiet_setRun _ ?_) fun _ => (quiet_record _ _ _).bind fun _ => .pure _
    exact fun _ => rfl
  | false => exact (quiet_record _ _ _).bind fun _ => .pure _

theorem quiet_askApproval (ports : Ports σ) (tool : ToolId) (adjudication : Adjudication) :
    Quiet (askApproval ports tool adjudication) :=
  (quiet_record _ _ _).bind fun _ => (quiet_emit _ _).bind fun _ => (quiet_port _).bind fun _ =>
    quiet_takeApproval _ _ _

/-- `f` is quiet, and prepares this call. -/
structure Prepares (callRef : String) (f : LoopM σ Prepared) : Prop where
  quiet : Quiet f
  callRef : ∀ m, (f.run m).1.callRef = callRef

theorem prepares_readyCall (ports : Ports σ) (callId : Nat) (call : ToolInvocation) (args : Args)
    (adjudication : Adjudication) :
    Prepares call.id (readyCall ports callId call args adjudication) :=
  ⟨(quiet_emit _ _).bind fun _ => .pure _, fun _ => rfl⟩

theorem prepares_declinedCall (ports : Ports σ) (callId : Nat) (call : ToolInvocation)
    (adjudication : Adjudication) : Prepares call.id (declinedCall ports callId call adjudication) :=
  ⟨.read fun _ => (quiet_emit _ _).bind fun _ => .pure _, fun _ => rfl⟩

theorem prepares_blockedCall (ports : Ports σ) (callId : Nat) (call : ToolInvocation)
    (adjudication : Adjudication) (reason : BlockReason) :
    Prepares call.id (blockedCall ports callId call adjudication reason) := by
  have hrecord : Quiet (recordEgressBlock ports reason) := by
    unfold recordEgressBlock
    split
    · exact (quiet_record _ _ _).bind fun _ => .pure _
    · exact .pure _
  exact ⟨hrecord.bind fun _ => .read fun _ => (quiet_emit _ _).bind fun _ => .pure _, fun _ => rfl⟩

theorem prepares_settleCall (ports : Ports σ) (callId : Nat) (call : ToolInvocation) (args : Args)
    (adjudication : Adjudication) :
    Prepares call.id (settleCall ports callId call args adjudication) := by
  unfold settleCall
  cases adjudication.decision.outcome with
  | blocked reason => exact prepares_blockedCall _ _ _ _ _
  | allowed | allowedBatched => exact prepares_readyCall _ _ _ _ _
  | needsApproval tier =>
    refine ⟨(quiet_askApproval _ _ _).bind fun granted => ?_, fun m => ?_⟩
    · cases granted with
      | true => exact (prepares_readyCall _ _ _ _ _).quiet
      | false => exact (prepares_declinedCall _ _ _ _).quiet
    · dsimp only
      rw [Stateful.run_bind]
      cases ((askApproval ports call.tool adjudication).run m).1 with
      | true => rfl
      | false => rfl

/-- **A call is prepared as itself.** -/
theorem prepares_prepareCall (ports : Ports σ) (view : ContextView) (call : ToolInvocation) :
    Prepares call.id (prepareCall sys ports view call) := by
  refine ⟨quiet_takeCallId.bind fun callId => (quiet_record _ _ _).bind fun _ => .read fun m => ?_,
    fun m => ?_⟩
  · split
    · exact .pure _
    · exact (quiet_adjudicateCall _ _).bind fun _ => (prepares_settleCall _ _ _ _ _).quiet
  · unfold prepareCall
    rw [Stateful.run_bind, Stateful.run_bind, Stateful.run_bind]
    split
    · rfl
    · rw [Stateful.run_bind]
      exact (prepares_settleCall _ _ _ _ _).callRef _

theorem quiet_collect (ports : Ports σ) (view : ContextView) (calls : List ToolInvocation) :
    Quiet (collect (prepareCall sys ports view) calls) := by
  induction calls with
  | nil => exact .pure _
  | cons call rest ih =>
    exact (prepares_prepareCall ports view call).quiet.bind fun _ => ih.bind fun _ => .pure _

theorem collect_callRef (ports : Ports σ) (view : ContextView) (calls : List ToolInvocation)
    (m : Machine σ) :
    ((collect (prepareCall sys ports view) calls).run m).1.map Prepared.callRef =
      calls.map ToolInvocation.id := by
  induction calls generalizing m with
  | nil => rfl
  | cons call rest ih =>
    have hcall := (@prepares_prepareCall σ sys ports view call).callRef m
    simp only [collect, Stateful.run_bind, Stateful.run_pure, List.map_cons, hcall, ih]

theorem quiet_executeItems (ports : Ports σ) (items : List BatchItem) :
    Quiet (executeItems ports items) := by
  have hcall : Quiet (callHost ports items) := by
    unfold callHost
    split
    · exact .pure _
    · exact (quiet_uses _).bind fun _ => .read fun _ => (quiet_note _ fun _ => rfl).bind fun _ =>
        quiet_port _
  exact (quiet_port _).bind fun _ => hcall.bind fun _ => (quiet_port _).bind fun _ =>
    (quiet_charge _).bind fun _ => .pure _

theorem fitOutcomes_length (n : Nat) (outcomes : List ToolOutcome) :
    (fitOutcomes n outcomes).length = n := by
  simp only [fitOutcomes, List.length_append, List.length_take, List.length_replicate]
  omega

/-- There is one outcome for each item. -/
theorem executeItems_length (ports : Ports σ) (items : List BatchItem) (m : Machine σ) :
    ((executeItems ports items).run m).1.length = items.length := by
  simp only [executeItems, Stateful.run_bind, Stateful.run_pure, List.length_map]
  exact fitOutcomes_length _ _

/-! ## Folding back -/

theorem results_pushBlock (b : Block) (id : String) (volatile : b.source.tier = .volatile)
    (callId : b.callId = some id) (m : Machine σ) :
    Results [id] [] m ((pushBlock b).run m).2 := by
  refine ⟨rfl, ⟨[b], ?_, by simp [callId]⟩, [], (List.append_nil _).symm, rfl⟩
  change (m.state.push b).volatile = _
  simp [SessionState.push, volatile]

theorem slotsOf_fst (prepared : List Prepared) (outcomes : List ToolOutcome) :
    (slotsOf prepared outcomes).map Prod.fst = prepared.map Prepared.callRef := by
  induction prepared generalizing outcomes with
  | nil => rfl
  | cons p rest ih =>
    cases p with
    | refused tool why callRef => simp [slotsOf, Prepared.callRef, ih]
    | ready call => cases outcomes <;> simp [slotsOf, Prepared.callRef, ih]

/-- The untrusted result of a call is returned, any other is pushed. -/
theorem finishCall_results (ports : Ports σ) (call : PreparedCall) (outcome : ToolOutcome)
    (m : Machine σ) :
    let finished := (finishCall ports call outcome).run m
    let reads := blocksComposedTargets outcome.trust
    Results (if reads then [] else [call.callRef]) [] m finished.2 ∧
      finished.1.toList.map PendingRead.callRef = if reads then [call.callRef] else [] := by
  intro finished reads
  let told : LoopM σ Unit := do
    let _ ← record ports (if outcome.failed then .toolFailed else .toolCompleted)
      (.toolResult call.tool outcome.summary.render
        (if outcome.failed then outcome.summary.detail else none))
    emit ports (.toolLine call.callId call.tool.text call.adjudication.decision.blastRadius.scope
      (if outcome.failed then .failed { outcome.summary with detail := outcome.screenDetail }
        else .ok { outcome.summary with detail := outcome.screenDetail }))
  have htold : Quiet told := (quiet_record _ _ _).bind fun _ => quiet_emit _ _
  cases hreads : reads with
  | true =>
    have hrun : finished = (some
        { tool := call.tool, text := resultText outcome, summary := outcome.summary.render
          callRef := call.callRef }, (told.run m).2) := by
      change (if reads then _ else _ : LoopM σ (Option PendingRead)).run (told.run m).2 = _
      rw [hreads]
      rfl
    rw [hrun]
    exact ⟨htold m, rfl⟩
  | false =>
    have hrun : finished = (none, ((pushBlock (.toolResultFor (resultText outcome) call.tool.text
        outcome.trust (some outcome.summary.render) outcome.failed call.callRef)).run
          (told.run m).2).2) := by
      change (if reads then _ else _ : LoopM σ (Option PendingRead)).run (told.run m).2 = _
      rw [hreads]
      rfl
    rw [hrun]
    exact ⟨Results.trans (htold m) (results_pushBlock _ _ rfl rfl _), rfl⟩

/-- **The results that are not read elsewhere come first, in order**, and the others wait
in order. -/
theorem foldResults_results (ports : Ports σ) (prepared : List Prepared)
    (outcomes : List ToolOutcome) (m : Machine σ)
    (h : (prepared.filterMap Prepared.item).length ≤ outcomes.length) :
    let folded := (foldResults ports prepared outcomes).run m
    let slots := slotsOf prepared outcomes
    Results ((slots.filter fun slot => !slot.2).map Prod.fst) [] m folded.2 ∧
      folded.1.map PendingRead.callRef = (slots.filter fun slot => slot.2).map Prod.fst := by
  induction prepared generalizing outcomes m with
  | nil => exact ⟨Still.refl m, rfl⟩
  | cons p rest ih =>
    cases p with
    | refused tool why callRef =>
      obtain ⟨hrest, hwait⟩ := ih outcomes ((toolError tool why callRef).run m).2 h
      exact ⟨Results.trans (results_pushBlock _ callRef rfl rfl m) hrest, hwait⟩
    | ready call =>
      cases outcomes with
      | nil => simp [Prepared.item] at h
      | cons outcome outcomes =>
        obtain ⟨hfirst, hfirstWait⟩ := finishCall_results ports call outcome m
        obtain ⟨hrest, hwait⟩ := ih outcomes ((finishCall ports call outcome).run m).2
          (by simpa [Prepared.item] using h)
        have hboth := hfirst.trans hrest
        simp only [foldResults, Stateful.run_bind, Stateful.run_pure, slotsOf, List.map_append]
        rw [hfirstWait, hwait]
        cases hreads : blocksComposedTargets outcome.trust with
        | true => simpa [hreads] using hboth
        | false => simpa [hreads] using hboth

/-! ## Reading what waits -/

theorem results_pushBlocks (blocks : List Block) (ids : List String)
    (volatile : ∀ b ∈ blocks, b.source.tier = .volatile)
    (callIds : blocks.map Block.callId = ids.map some) (m : Machine σ) :
    Results ids [] m ((each pushBlock blocks).run m).2 := by
  induction blocks generalizing ids m with
  | nil =>
    cases ids with
    | nil => exact Still.refl m
    | cons id rest => cases callIds
  | cons b rest ih =>
    cases ids with
    | nil => cases callIds
    | cons id ids =>
      obtain ⟨hid, hids⟩ := List.cons.inj callIds
      exact Results.trans (results_pushBlock b id (volatile b List.mem_cons_self) hid m)
        (ih ids (fun b' hb => volatile b' (List.mem_cons_of_mem _ hb)) hids _)

theorem answeredNotes_callId (answer : ReaderAnswer) (i k : Nat)
    (hits : List (PendingRead × Option String)) :
    (answeredNotes answer i k hits).map Block.callId =
      (hits.map fun hit => hit.1.callRef).map some := by
  induction hits generalizing i k with
  | nil => rfl
  | cons hit rest ih =>
    obtain ⟨p, cached⟩ := hit
    cases cached <;> simp only [answeredNotes, List.map_cons, ih] <;> rfl

/-- A nested driver folds no group of an earlier run while it drives a reader. -/
def Spares (sub : SubRun σ) : Prop :=
  ∀ (ports : Ports σ) (m : Machine σ), m.run.profile = .quarantinedReader →
    m.frame.locals.steps = 0 → m.frame.locals.contractRetries = 0 →
      ∃ es, ((sub ports).run m).2.trace = m.trace ++ es ∧ ∀ id < m.run.id, foldedBy id es = []

/-- **The engine's own nested driver does not**, at any depth. -/
theorem nested_spares (sys : Outside σ) (n : Nat) : Spares (nested sys n) := by
  intro ports m hprofile hsteps hretries
  cases n with
  | zero => exact ⟨[.stuck], rfl, fun _ _ => rfl⟩
  | succ n =>
    have hnesting : nesting m.run = 0 := by
      unfold nesting
      rw [hprofile]
      rfl
    obtain ⟨done, hruns, hfin⟩ := nested_nests sys (n + 1) ports m (by omega) hsteps hretries
    obtain ⟨hid, es, htrace, hes⟩ := hruns.later
    obtain ⟨es', htrace', hes'⟩ := hfin.trace
    refine ⟨es ++ es', by rw [htrace', htrace, List.append_assoc], fun id hlt => ?_⟩
    refine foldedBy_of_later (List.forall_mem_append.mpr ⟨fun e he => ?_, fun e he => ?_⟩)
    · exact Nat.lt_of_lt_of_le hlt (hes e he)
    · rw [(hes' e he).actor, hid]
      exact hlt

/-- The run in the frame goes before this one. -/
def Before (id : RunId) (m : Machine σ) : Prop := m.run.id < id

theorem Still.before {id : RunId} (m m' : Machine σ) (h : Still m m') (hm : Before id m) :
    Before id m' := by
  unfold Before
  rw [h.run]
  exact hm

section Readers

variable {β : Type} {sub : SubRun σ}

/-- A quiet computation, before others that need the run to go before another. -/
theorem Quiet.before_bind {id : RunId} {f : LoopM σ α} {g : α → LoopM σ β} (hf : Quiet f)
    (hg : ∀ a, Stateful.Under (Before id) Still (g a)) :
    Stateful.Under (Before id) Still (f >>= g) :=
  .bind Still.trans hf.under (hf.triple Still.before) hg

/-- A reader's whole run leaves its caller's session as it is. -/
theorem runChild_still (hsub : Spares sub) (ports : Ports σ) (child : Run) (state : SessionState)
    (hprofile : child.profile = .quarantinedReader) :
    Stateful.Under (Before child.id) Still (runChild sub ports child state) := by
  intro m hm
  obtain ⟨es, htrace, hes⟩ := hsub ports (m.entered child state) hprofile rfl rfl
  let fin := ((sub ports).run (m.entered child state)).2
  let outcome := ((sub ports).run (m.entered child state)).1
  have hback : Still m ({ fin with frame := m.frame } : Machine σ) := by
    refine .of_trace rfl rfl (htrace.trans (List.append_assoc _ _ _)) ?_
    rw [foldedBy_append, hes _ hm]
    rfl
  exact ((hback.trans _ _ _ (quiet_note (.returned m.run fin.run outcome) (fun _ => rfl) _)).trans
    _ _ _ (quiet_charge fin.run.spent _)).trans _ _ _ (quiet_charge { subagents := 1 } _)

/-- Two identifiers drawn, the first of them a later run's. -/
theorem still_newIds {g : Nat → Nat → LoopM σ α} (m : Machine σ)
    (h : ∀ childId session m', m'.run = m.run → Before childId m' →
      Still m' ((g childId session).run m').2) :
    Still m ((newId >>= fun childId => newId >>= fun session => g childId session).run m).2 := by
  let drawn := ((newId >>= fun _ => newId : LoopM σ Nat).run m).2
  have hdraw : Still m drawn := .of_trace rfl rfl (List.append_nil _).symm rfl
  refine hdraw.trans _ _ _ (h (max m.fresh (m.run.id + 1)) _ drawn rfl ?_)
  exact Nat.lt_of_lt_of_le (Nat.lt_succ_self _) (Nat.le_max_right m.fresh _)

theorem quiet_recordReaderFailure (ports : Ports σ) (child : RunId) (contract : OutputContract)
    (outcome : LoopOutcome) : Quiet (recordReaderFailure ports child contract outcome) := by
  cases outcome with
  | completed result =>
    unfold recordReaderFailure
    dsimp only
    split
    · exact .pure _
    · exact (quiet_record _ _ _).bind fun _ => .pure _
  | _ => exact (quiet_record _ _ _).bind fun _ => .pure _

theorem quiet_readSources (hsub : Spares sub) (ports : Ports σ) (childBudget : Budget)
    (fresh : List PendingRead) : Quiet (readSources ports sub childBudget fresh) := by
  intro m
  unfold readSources
  refine still_newIds m fun childId session m' hrun hbefore => ?_
  rw [Stateful.run_bind, Stateful.run_read]
  refine (Quiet.before_bind (quiet_record _ _ _) fun _ => Quiet.before_bind quiet_takeCallId
    fun line => Quiet.before_bind (quiet_emit _ _) fun _ => ?_) m' hbefore
  let contract := readerContract fresh.length
  let child := Run.child childId m'.run session .quarantinedReader childBudget .terminate contract
  have hchild : Stateful.Under (Before childId) Still (runChild sub ports.forReader child
      (readerWindow session m'.state fresh contract)) :=
    runChild_still hsub ports.forReader child _ rfl
  refine .bind (B := fun _ => True) Still.trans hchild (fun _ _ => trivial) fun answered => ?_
  obtain ⟨outcome, frame⟩ := answered
  exact ((quiet_recordReaderFailure _ _ _ _).bind fun _ => (quiet_emit _ _).bind fun _ =>
    .pure _).under

/-- **Each read of a chunk is answered by one block**, in the chunk's order. -/
theorem condenseChunk_results (hsub : Spares sub) (ports : Ports σ) (chunk : List PendingRead)
    (m : Machine σ) :
    Results (chunk.map PendingRead.callRef) [] m
      ((condenseChunk sys ports sub chunk).run m).2 := by
  let hits := cacheHits sys m.engine.condensed chunk
  have hids : hits.map (fun hit => hit.1.callRef) = chunk.map PendingRead.callRef := by
    simp [hits, cacheHits]
  have hanswered : ∀ (answer : ReaderAnswer) (m' : Machine σ),
      Results (chunk.map PendingRead.callRef) [] m'
        ((each pushBlock (answeredNotes answer 0 0 hits)).run m').2 := fun answer m' =>
    results_pushBlocks _ _ (answeredNotes_volatile answer 0 0 hits)
      (hids ▸ answeredNotes_callId answer 0 0 hits) m'
  unfold condenseChunk
  rw [Stateful.run_bind, Stateful.run_read, Stateful.run_bind]
  have hconsulted : Still m (m.note (.consulted m.run.id (hits.map Prod.snd))) :=
    quiet_note _ (fun _ => rfl) m
  refine hconsulted.results ?_
  dsimp only
  rw [Stateful.run_ite]
  split
  · exact hanswered _ _
  · cases m.run.budget.sliceForQuarantinedRead m.run.spent with
    | none =>
      refine results_pushBlocks _ _ ?_ ?_ _
      · intro b hb
        obtain ⟨p, -, rfl⟩ := List.mem_map.mp hb
        rfl
      · rw [List.map_map, List.map_map]
        rfl
    | some childBudget =>
      dsimp only
      rw [Stateful.run_bind]
      have hread := quiet_readSources hsub ports childBudget (freshReads hits)
        (m.note (.consulted m.run.id (hits.map Prod.snd)))
      exact hread.results (Still.results (quiet_setEngine _ _) (hanswered _ _))

theorem chunks_flatten {β : Type} (n fuel : Nat) (items : List β) (h : items.length ≤ fuel) :
    (chunks n fuel items).flatten = items := by
  induction fuel generalizing items with
  | zero => simpa [chunks] using h
  | succ fuel ih =>
    cases items with
    | nil => rfl
    | cons item rest =>
      have hrest : ((item :: rest).drop (n + 1)).length ≤ fuel := by
        simp only [List.length_drop, List.length_cons] at h ⊢
        omega
      simp only [chunks, List.flatten_cons, ih _ hrest, List.take_append_drop]

theorem condenseBatch_results (hsub : Spares sub) (ports : Ports σ) (pending : List PendingRead)
    (m : Machine σ) :
    Results (pending.map PendingRead.callRef) [] m
      ((condenseBatch sys ports sub pending).run m).2 := by
  have heach : ∀ (parts : List (List PendingRead)) (m : Machine σ),
      Results (parts.flatten.map PendingRead.callRef) [] m
        ((each (condenseChunk sys ports sub) parts).run m).2 := by
    intro parts
    induction parts with
    | nil => exact Still.refl
    | cons part rest ih =>
      intro m
      rw [List.flatten_cons, List.map_append]
      exact Results.trans (condenseChunk_results hsub ports part m) (ih _)
  have hparts := heach (chunks (maxSourcesPerReader - 1) pending.length pending) m
  rwa [chunks_flatten _ _ _ (Nat.le_refl _)] at hparts

end Readers

/-! ## A batch -/

/-- **A group is answered call by call**, the results read elsewhere last. -/
theorem runGroup_results {sub : SubRun σ} (hsub : Spares sub) (ports : Ports σ) (view : ContextView)
    (calls : List ToolInvocation) (m : Machine σ) :
    ∃ slots, slots.map Prod.fst = calls.map ToolInvocation.id ∧
      Results (readLast slots) [slots] m ((runGroup sys ports sub view calls).run m).2 := by
  let prepared := (collect (prepareCall sys ports view) calls).run (m.note (.groupStarted m.run.id))
  let items := prepared.1.filterMap Prepared.item
  let executed := (executeItems ports items).run prepared.2
  let slots := slotsOf prepared.1 executed.1
  let noted := executed.2.note (.groupFolded m.run.id slots)
  let folded := (foldResults ports prepared.1 executed.1).run noted
  have hprepared : Still m prepared.2 :=
    (quiet_note (.groupStarted m.run.id) (fun _ => rfl) m).trans _ _ _ (quiet_collect ports view calls _)
  have hexecuted : Still m executed.2 := hprepared.trans _ _ _ (quiet_executeItems ports items _)
  have hnoted : Results [] [slots] m noted := by
    refine hexecuted.results ⟨rfl, ⟨[], (List.append_nil _).symm, rfl⟩, _, rfl, ?_⟩
    change (if m.run.id = executed.2.run.id then some slots else none).toList = [slots]
    rw [hexecuted.run, if_pos rfl]
    rfl
  obtain ⟨hfolded, hwait⟩ := foldResults_results ports prepared.1 executed.1 noted
    (executeItems_length ports items prepared.2).ge
  refine ⟨slots, (slotsOf_fst _ _).trans (collect_callRef ports view calls _), ?_⟩
  have hread := @condenseBatch_results σ sys sub hsub ports folded.1 folded.2
  rw [hwait] at hread
  unfold readLast
  rw [List.map_append]
  exact (hnoted.trans hfolded).trans hread

/-- Groups one after the other. -/
theorem groups_results {sub : SubRun σ} (hsub : Spares sub) (ports : Ports σ) (view : ContextView)
    (groups : List (List ToolInvocation)) (m : Machine σ) :
    ∃ folded : List (List (String × Bool)),
      folded.flatten.map Prod.fst = groups.flatten.map ToolInvocation.id ∧
        Results (folded.flatMap readLast) folded m
          ((each (runGroup sys ports sub view) groups).run m).2 := by
  induction groups generalizing m with
  | nil => exact ⟨[], rfl, Still.refl m⟩
  | cons group rest ih =>
    obtain ⟨slots, hslots, hgroup⟩ := @runGroup_results σ sys sub hsub ports view group m
    obtain ⟨folded, hfolded, hrest⟩ := ih ((runGroup sys ports sub view group).run m).2
    refine ⟨slots :: folded, ?_, ?_⟩
    · simp only [List.flatten_cons, List.map_append, hslots, hfolded]
    · exact hgroup.trans hrest

/-- The turn that announces the calls, when there are any. -/
def announced (calls : List ToolInvocation) (reasoning : String) : List Block :=
  if calls.isEmpty then [] else [announcement calls reasoning]

/-- After the turn that announces the calls, the session holds one result for each of
them, in their order. -/
def Paired (calls : List ToolInvocation) (reasoning : String) (before after : SessionState) : Prop :=
  ∃ results, after.volatile = before.volatile ++ announced calls reasoning ++ results ∧
    results.map Block.callId = calls.map fun call => some call.id

theorem toolBatch_results {sub : SubRun σ} (hsub : Spares sub) (ports : Ports σ) (view : ContextView)
    (calls : List ToolInvocation) (reasoning : String) (m : Machine σ) :
    ∃ folded : List (List (String × Bool)), folded.flatten.map Prod.fst = calls.map ToolInvocation.id ∧
      Results (folded.flatMap readLast) folded
        (m.withState { m.state with volatile := m.state.volatile ++ announced calls reasoning })
        ((toolBatch sys ports sub view calls reasoning).run m).2 := by
  unfold toolBatch
  cases calls with
  | nil =>
    have hstate : (m.withState
        { m.state with volatile := m.state.volatile ++ announced [] reasoning }).state = m.state := by
      simp [announced, Machine.withState]
    exact ⟨[], rfl, Still.of_trace rfl hstate.symm (List.append_nil _).symm rfl⟩
  | cons call rest =>
    let announcing := m.withState (m.state.push (announcement (call :: rest) reasoning))
    obtain ⟨folded, hfolded, hresults⟩ := @groups_results σ sys sub hsub ports view
      (groupCalls m.engine.registry (call :: rest) []) announcing
    rw [groupCalls_flatten] at hfolded
    exact ⟨folded, hfolded, hresults⟩

/-- **When a batch's results come in the order of its calls.** Every batch, of any
length and whatever becomes of its calls, leaves exactly one result for each call
after the turn that announces them. They are in the order of the calls exactly when
no group it folded had its untrusted results, which come last, before others. -/
theorem results_in_order_iff (sys : Outside σ) (ports : Ports σ) (n : Nat) (view : ContextView)
    (calls : List ToolInvocation) (reasoning : String) (m : Machine σ) :
    let after := ((toolBatch sys ports (nested sys n) view calls reasoning).run m).2
    ∃ results added, after.state.volatile =
        m.state.volatile ++ announced calls reasoning ++ results ∧
      (results.map Block.callId).Perm (calls.map fun call => some call.id) ∧
      after.trace = m.trace ++ added ∧
      (Paired calls reasoning m.state after.state ↔
        ∀ slots ∈ foldedBy m.run.id added, readLast slots = slots.map Prod.fst) := by
  intro after
  obtain ⟨folded, hcalls, hresults⟩ := toolBatch_results (nested_spares sys n) ports view calls
    reasoning m
  obtain ⟨results, hvolatile, hids⟩ := hresults.pushed
  obtain ⟨added, htrace, hgroups⟩ := hresults.folded
  have hwanted : (calls.map fun call => some call.id) = (folded.flatten.map Prod.fst).map some := by
    rw [hcalls, List.map_map]
    rfl
  have hinjective : Function.Injective (some : String → Option String) :=
    fun _ _ => Option.some.inj
  refine ⟨results, added, hvolatile, ?_, htrace, ?_⟩
  · rw [hids, hwanted]
    exact (flatMap_readLast_perm folded).map some
  · have hfolded : foldedBy m.run.id added = folded := hgroups
    rw [hfolded, ← flatMap_readLast_eq_iff]
    constructor
    · rintro ⟨others, hothers, hpaired⟩
      obtain rfl : results = others := List.append_cancel_left (hvolatile.symm.trans hothers)
      rw [hids, hwanted] at hpaired
      exact List.map_injective_iff.mpr hinjective hpaired
    · intro horder
      exact ⟨results, hvolatile, by rw [hids, hwanted, horder]⟩

/-! ## Two pages, one of them fetched -/

/-- A batch of two looks: the first returns a page to be read elsewhere, the second does not. -/
def Script.mixedBatch : Machine Script :=
  start 100000 looks ample
    { answers := [say "about:\na page\nsource_1:\npage"]
      outcomes := [[result .untrustedContent "page", result .agentObserved "file"]] }

def Script.twoLooks : List ToolInvocation := [⟨"a", look, .empty⟩, ⟨"b", look, .empty⟩]

/-- The second call's result comes first. -/
theorem untrusted_result_comes_last :
    ¬ Paired Script.twoLooks "" Script.mixedBatch.state
      ((toolBatch Script.outside Script.ports (nested Script.outside 1)
        (Script.mixedBatch.engine.assembler.assemble Script.mixedBatch.state) Script.twoLooks "").run
          Script.mixedBatch).2.state := by
  rintro ⟨results, hvolatile, hids⟩
  have horder : ((toolBatch Script.outside Script.ports (nested Script.outside 1)
      (Script.mixedBatch.engine.assembler.assemble Script.mixedBatch.state) Script.twoLooks "").run
        Script.mixedBatch).2.state.volatile.map Block.callId = [none, some "b", some "a"] := by
    decide +kernel
  rw [hvolatile, List.map_append, hids] at horder
  exact absurd horder (by decide)

end MarloweAgent.Loop
