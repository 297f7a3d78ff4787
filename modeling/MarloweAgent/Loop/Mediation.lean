import MarloweAgent.Loop.Nesting
import Mathlib.Data.List.Forall2

/-! A batch is mediated: what a group hands to the host was adjudicated in that
group, recorded, and approved where it had to be. -/

namespace MarloweAgent.Loop
open Contract Library Tools Permission

variable {σ α : Type} {sys : Outside σ} {n : Nat}

theorem Effect.PlainOf.startsGroup {run : RunId} {e : Effect} (h : e.PlainOf run) :
    e.startsGroup = false := by
  cases e <;> first | rfl | cases h.plain

/-- The trace grew by effects that start no group, and they vouch for the items. -/
def Vouches (sys : Outside σ) (registry : ToolRegistry) (run : Run) (m m' : Machine σ)
    (items : List BatchItem) : Prop :=
  ∃ group segments, m'.trace = m.trace ++ group ∧ (∀ e ∈ group, e.startsGroup = false) ∧
    List.Forall₂ (Vouched sys registry run) items segments ∧ segments.flatten.Sublist group

namespace Vouches

variable {registry : ToolRegistry} {run : Run}

/-- Effects that start no group vouch for nothing. -/
theorem of_trace {m m' : Machine σ} {es : List Effect} (trace : m'.trace = m.trace ++ es)
    (h : ∀ e ∈ es, e.startsGroup = false) : Vouches sys registry run m m' [] :=
  ⟨es, [], trace, h, .nil, List.nil_sublist _⟩

theorem of_told {m m' : Machine σ} {es : List Effect} (h : Told m m' es) :
    Vouches sys registry run m m' [] :=
  of_trace h.trace fun e he => (h.plain e he).startsGroup

theorem trans {m m' m'' : Machine σ} {items items' : List BatchItem}
    (h : Vouches sys registry run m m' items) (h' : Vouches sys registry run m' m'' items') :
    Vouches sys registry run m m'' (items ++ items') := by
  obtain ⟨group, segments, htrace, hgroup, hitems, hsub⟩ := h
  obtain ⟨group', segments', htrace', hgroup', hitems', hsub'⟩ := h'
  refine ⟨group ++ group', segments ++ segments', ?_, ?_, List.rel_append hitems hitems', ?_⟩
  · rw [htrace', htrace, List.append_assoc]
  · intro e he
    rcases List.mem_append.mp he with he | he
    · exact hgroup e he
    · exact hgroup' e he
  · rw [List.flatten_append]
    exact hsub.append hsub'

end Vouches

/-- The frame's run is this one, as far as mediation looks. -/
structure Acts (registry : ToolRegistry) (run : Run) (m : Machine σ) : Prop where
  id : m.run.id = run.id
  tools : m.run.profile.exposedTools = run.profile.exposedTools
  registry : m.engine.registry = registry

theorem Kept.acts {registry : ToolRegistry} {run : Run} {m m' : Machine σ} (h : Kept m m')
    (hm : Acts registry run m) : Acts registry run m' :=
  ⟨h.id.trans hm.id, h.rights.exposedTools.trans hm.tools, h.registry.trans hm.registry⟩

theorem Vouched.congr {registry : ToolRegistry} {run run' : Run} {item : BatchItem}
    {segment : List Effect} (h : Vouched sys registry run item segment) (id : run'.id = run.id)
    (tools : run'.profile.exposedTools = run.profile.exposedTools) :
    Vouched sys registry run' item segment := by
  unfold Vouched at *
  rw [id, tools]
  exact h

/-! ## One call -/

/-- An adjudication is noted with the request it answers, and recorded. -/
theorem adjudicateCall_trace (ports : Ports σ) (req : Request) (m : Machine σ) :
    ∃ id env session accepted notice,
      ((adjudicateCall sys ports req).run m).1 = ((adjudicate sys.scope id req).run env).1 ∧
      ((adjudicateCall sys ports req).run m).2.trace = m.trace ++
        .adjudicated m.run m.frame.seen req ((adjudicateCall sys ports req).run m).1 ::
          .recorded m.run.id session .permissionDecided
            (.decision ((adjudicateCall sys ports req).run m).1.decision) accepted :: notice ∧
      ((adjudicateCall sys ports req).run m).2.run = m.run ∧
      ∀ e ∈ notice, e.PlainOf m.run.id := by
  let counted := m.withEngine { m.engine with nextDecision := m.engine.nextDecision + 1 }
  let judged := (adjudicate sys.scope m.engine.nextDecision req).run m.env
  let noted := (counted.withEnv judged.2).note (.adjudicated m.run m.frame.seen req judged.1)
  obtain ⟨env, accepted, notice, hrun, hnotice⟩ :=
    record_run ports .permissionDecided (.decision judged.1.decision) noted
  have hstate : ((adjudicateCall sys ports req).run m).2 =
      ((record ports .permissionDecided (.decision judged.1.decision)).run noted).2 := rfl
  refine ⟨m.engine.nextDecision, m.env, m.state.session, accepted, notice, rfl, ?_, ?_,
    plain_of_notice hnotice⟩
  · rw [hstate, hrun]
    change (m.trace ++ [_]) ++ _ :: notice = _
    rw [List.append_assoc]
    rfl
  · rw [hstate, hrun]
    rfl

theorem adjudicateCall_reach (ports : Ports σ) (tool : ToolId) (req : Request) (m : Machine σ)
    (h : RequestOf m.engine.registry m.run tool req) :
    Reach sys n m ((adjudicateCall sys ports req).run m).2 := by
  let counted := m.withEngine { m.engine with nextDecision := m.engine.nextDecision + 1 }
  let judged := (adjudicate sys.scope m.engine.nextDecision req).run m.env
  have htold : Told m (counted.withEnv judged.2) [] :=
    (Told.withEngine m counted.engine rfl rfl rfl).trans (.withEnv counted _)
  refine Reach.trans m (counted.withEnv judged.2) _ (.of_told ⟨_, htold⟩) ?_
  refine Reach.trans _ _ _ (.of_act (.adjudicated _ tool req judged.1 h) rfl rfl) ?_
  exact ((tells_record ports .permissionDecided _ (by decide)).steps.bind fun _ => .pure _) _

/-- The machine once the answer to an approval is taken. -/
def Machine.answered (m : Machine σ) (decision : PermissionDecision) (granted : Bool) : Machine σ :=
  (m.note (.asked m.run.id decision granted)).withRun
    (if granted then { m.run with profile := (widen decision.reasons m.run.profile).1 } else m.run)

/-- The answer comes first, then its record. -/
theorem takeApproval_told (ports : Ports σ) (adjudication : Adjudication) (granted : Bool)
    (m : Machine σ) :
    ((takeApproval ports adjudication granted).run m).1 = granted ∧
      ∃ es, Told (m.answered adjudication.decision granted)
        ((takeApproval ports adjudication granted).run m).2 es := by
  cases granted with
  | true =>
    have hafter : Tells (σ := σ) (do
        let _ ← record ports .approvalGranted
          (if (widen adjudication.decision.reasons m.run.profile).2.isEmpty then .empty
            else .egressGranted (widen adjudication.decision.reasons m.run.profile).2)
        pure true) :=
      (tells_record _ _ _ (by decide)).bind fun _ => .pure _
    exact ⟨rfl, hafter (m.answered adjudication.decision true)⟩
  | false =>
    have hafter : Tells (σ := σ) (do
        let _ ← record ports .approvalDenied .empty
        pure false) :=
      (tells_record _ _ _ (by decide)).bind fun _ => .pure _
    exact ⟨rfl, hafter (m.answered adjudication.decision false)⟩

theorem steps_takeApproval (ports : Ports σ) (adjudication : Adjudication) (granted : Bool) :
    Steps sys n (takeApproval ports adjudication granted) := by
  intro m
  have hact : Reach sys n m (m.answered adjudication.decision granted) :=
    .of_act (.asked m adjudication.decision granted) rfl rfl
  exact hact.trans _ _ _ (.of_told (takeApproval_told ports adjudication granted m).2)

/-- Asking starts no group, and a yes is on the trace. -/
theorem askApproval_trace (ports : Ports σ) (tool : ToolId) (adjudication : Adjudication)
    (m : Machine σ) :
    ∃ es, ((askApproval ports tool adjudication).run m).2.trace = m.trace ++ es ∧
      (∀ e ∈ es, e.startsGroup = false) ∧
      (((askApproval ports tool adjudication).run m).1 = true →
        .asked m.run.id adjudication.decision true ∈ es) := by
  let prompt : LoopM σ Bool := do
    let _ ← record ports .approvalRequested (.tool tool)
    emit ports (.approvalPrompt adjudication.decision.blastRadius)
    port (ports.approvals.awaitApproval adjudication.decision.blastRadius)
  have hprompt : Tells prompt :=
    (tells_record _ _ _ (by decide)).bind fun _ => (tells_emit _ _).bind fun _ => tells_port _
  obtain ⟨es, htold⟩ := hprompt m
  obtain ⟨hanswer, es', htold'⟩ :=
    takeApproval_told ports adjudication (prompt.run m).1 (prompt.run m).2
  have hrun : (askApproval ports tool adjudication).run m =
      (takeApproval ports adjudication (prompt.run m).1).run (prompt.run m).2 := rfl
  refine ⟨es ++ .asked m.run.id adjudication.decision (prompt.run m).1 :: es', ?_, ?_, ?_⟩
  · have hasked : ((prompt.run m).2.answered adjudication.decision (prompt.run m).1).trace =
        m.trace ++ es ++ [.asked m.run.id adjudication.decision (prompt.run m).1] := by
      rw [← htold.trace, ← htold.id_eq]
      rfl
    rw [hrun, htold'.trace, hasked]
    simp
  · intro e he
    rcases List.mem_append.mp he with he | he
    · exact (htold.plain e he).startsGroup
    · rcases List.mem_cons.mp he with rfl | he
      · rfl
      · exact (htold'.plain e he).startsGroup
  · intro hgranted
    rw [hrun, hanswer] at hgranted
    rw [hgranted]
    simp

theorem tells_readyCall (ports : Ports σ) (callId : Nat) (call : ToolInvocation) (args : Args)
    (adjudication : Adjudication) : Tells (readyCall ports callId call args adjudication) :=
  (tells_emit _ _).bind fun _ => .pure _

theorem tells_blockedCall (ports : Ports σ) (callId : Nat) (call : ToolInvocation)
    (adjudication : Adjudication) (reason : BlockReason) :
    Tells (blockedCall ports callId call adjudication reason) := by
  have hrecord : Tells (recordEgressBlock ports reason) := by
    unfold recordEgressBlock
    split
    · exact (tells_record _ _ _ (by decide)).bind fun _ => .pure _
    · exact .pure _
  exact hrecord.bind fun _ => .read fun _ => (tells_emit _ _).bind fun _ => .pure _

theorem tells_declinedCall (ports : Ports σ) (callId : Nat) (call : ToolInvocation)
    (adjudication : Adjudication) : Tells (declinedCall ports callId call adjudication) :=
  .read fun _ => (tells_emit _ _).bind fun _ => .pure _

/-- The slot of a call that may run. -/
def Prepared.Carries (p : Prepared) (call : ToolInvocation) (args : Args)
    (adjudication : Adjudication) : Prop :=
  p.item = some { tool := call.tool, args, adjudication }

/-- **What settling one call comes to**: nothing to run, or the call itself, allowed
or asked about and granted. -/
theorem settleCall_trace (ports : Ports σ) (callId : Nat) (call : ToolInvocation) (args : Args)
    (adjudication : Adjudication) (m : Machine σ) :
    ∃ es, ((settleCall ports callId call args adjudication).run m).2.trace = m.trace ++ es ∧
      (∀ e ∈ es, e.startsGroup = false) ∧
      (((settleCall ports callId call args adjudication).run m).1.item = none ∨
        ((settleCall ports callId call args adjudication).run m).1.Carries call args adjudication ∧
          adjudication.decision.outcome.isBlocked = false ∧
          ((∃ tier, adjudication.decision.outcome = .needsApproval tier) →
            .asked m.run.id adjudication.decision true ∈ es)) := by
  unfold settleCall
  cases houtcome : adjudication.decision.outcome with
  | blocked reason =>
    obtain ⟨es, htold⟩ := tells_blockedCall ports callId call adjudication reason m
    exact ⟨es, htold.trace, fun e he => (htold.plain e he).startsGroup, .inl rfl⟩
  | allowed | allowedBatched =>
    obtain ⟨es, htold⟩ := tells_readyCall ports callId call args adjudication m
    exact ⟨es, htold.trace, fun e he => (htold.plain e he).startsGroup,
      .inr ⟨rfl, rfl, by rintro ⟨tier, h⟩; cases h⟩⟩
  | needsApproval tier =>
    dsimp only
    rw [Stateful.run_bind]
    obtain ⟨es, htrace, hes, hyes⟩ := askApproval_trace ports call.tool adjudication m
    cases hgranted : ((askApproval ports call.tool adjudication).run m).1 with
    | true =>
      obtain ⟨es', htold⟩ := tells_readyCall ports callId call args adjudication
        ((askApproval ports call.tool adjudication).run m).2
      refine ⟨es ++ es', ?_, ?_, .inr ⟨rfl, rfl, fun _ => ?_⟩⟩
      · rw [← List.append_assoc, ← htrace]
        exact htold.trace
      · exact List.forall_mem_append.mpr ⟨hes, fun e he => (htold.plain e he).startsGroup⟩
      · exact List.mem_append_left _ (hyes hgranted)
    | false =>
      obtain ⟨es', htold⟩ := tells_declinedCall ports callId call adjudication
        ((askApproval ports call.tool adjudication).run m).2
      refine ⟨es ++ es', ?_, ?_, .inl rfl⟩
      · rw [← List.append_assoc, ← htrace]
        exact htold.trace
      · exact List.forall_mem_append.mpr ⟨hes, fun e he => (htold.plain e he).startsGroup⟩

theorem steps_settleCall (ports : Ports σ) (callId : Nat) (call : ToolInvocation) (args : Args)
    (adjudication : Adjudication) :
    Steps sys n (settleCall ports callId call args adjudication) := by
  unfold settleCall
  cases adjudication.decision.outcome with
  | blocked reason => exact (tells_blockedCall _ _ _ _ _).steps
  | allowed | allowedBatched => exact (tells_readyCall _ _ _ _ _).steps
  | needsApproval tier =>
    refine Steps.bind ((tells_record _ _ _ (by decide)).steps.bind fun _ =>
      (tells_emit _ _).steps.bind fun _ => (tells_port _).steps.bind fun _ =>
        steps_takeApproval _ _ _) fun granted => ?_
    split
    · exact (tells_readyCall _ _ _ _ _).steps
    · exact (tells_declinedCall _ _ _ _).steps

/-- Adjudicating and settling a request vouches for the call, if it may run. -/
theorem settled_vouches (ports : Ports σ) (callId : Nat) (call : ToolInvocation) (req : Request)
    (registry : ToolRegistry) (run : Run) (m : Machine σ) (hm : Acts registry run m)
    (hreq : RequestOf registry m.run call.tool req) :
    Vouches sys registry run m
      ((adjudicateCall sys ports req >>= settleCall ports callId call req.args).run m).2
      ((adjudicateCall sys ports req >>= settleCall ports callId call req.args).run m).1.item.toList := by
  obtain ⟨id, env, session, accepted, notice, hadj, htrace, hrun, hnotice⟩ :=
    @adjudicateCall_trace σ sys ports req m
  rw [Stateful.run_bind]
  generalize hjudged : (adjudicateCall sys ports req).run m = judged at *
  obtain ⟨adjudication, m₁⟩ := judged
  dsimp only at *
  obtain ⟨es, hes, hplain, hitem⟩ := settleCall_trace ports callId call req.args adjudication m₁
  rw [hrun] at hitem
  let segment := Effect.adjudicated m.run m.frame.seen req adjudication ::
    .recorded m.run.id session .permissionDecided (.decision adjudication.decision) accepted ::
      (notice ++ es)
  have hgrown : ((settleCall ports callId call req.args adjudication).run m₁).2.trace =
      m.trace ++ segment := by
    rw [hes, htrace, List.append_assoc]
    rfl
  have hsegment : ∀ e ∈ segment, e.startsGroup = false := by
    intro e he
    rcases List.mem_cons.mp he with rfl | he
    · rfl
    rcases List.mem_cons.mp he with rfl | he
    · rfl
    rcases List.mem_append.mp he with he | he
    · exact (hnotice e he).startsGroup
    · exact hplain e he
  rcases hitem with hnone | ⟨hcarries, hunblocked, hyes⟩
  · rw [hnone]
    exact .of_trace hgrown hsegment
  · rw [hcarries]
    refine ⟨segment, [segment], hgrown, hsegment, .cons ?_ .nil, by simp⟩
    have hcases := @adjudicate_cases σ sys.scope id req env
    rw [← hadj, hunblocked] at hcases
    obtain ⟨hcleared, houtcome⟩ := hcases.resolve_left Bool.false_ne_true
    refine ⟨m.run, m.frame.seen, req, id, env, session, accepted, notice ++ es, hm.id, hm.tools,
      hreq, rfl, hadj, hcleared, ?_, ?_⟩
    · rw [← hm.id]
    · refine houtcome.imp_right fun htier => ⟨htier, ?_⟩
      rw [← hm.id]
      exact List.mem_append_right _ (hyes htier)

theorem settled_reach (ports : Ports σ) (callId : Nat) (call : ToolInvocation) (req : Request)
    (m : Machine σ) (hreq : RequestOf m.engine.registry m.run call.tool req) :
    Reach sys n m
      ((adjudicateCall sys ports req >>= settleCall ports callId call req.args).run m).2 :=
  (adjudicateCall_reach ports call.tool req m hreq).trans _ _ _ (steps_settleCall _ _ _ _ _ _)

/-- A call gets its id, and is noted. -/
def openCall (ports : Ports σ) (call : ToolInvocation) : LoopM σ Nat := do
  let callId ← takeCallId
  let _ ← record ports .toolRequested (.tool call.tool)
  pure callId

theorem prepareCall_unregistered {ports : Ports σ} {view : ContextView} {call : ToolInvocation} {m m₁ : Machine σ}
    (hm₁ : ((openCall ports call).run m).2 = m₁) (h : m₁.engine.registry.manifest call.tool = none) :
    (prepareCall sys ports view call).run m = (.refused call.tool "no such tool is registered" call.id, m₁) := by
  subst hm₁
  unfold prepareCall
  rw [Stateful.run_bind, Stateful.run_bind, Stateful.run_bind]
  split
  · rfl
  · rename_i manifest hsome
    cases h.symm.trans hsome

theorem prepareCall_registered {ports : Ports σ} {view : ContextView} {call : ToolInvocation} {m m₁ : Machine σ}
    {manifest : CapabilityManifest} (hm₁ : ((openCall ports call).run m).2 = m₁)
    (h : m₁.engine.registry.manifest call.tool = some manifest) :
    (prepareCall sys ports view call).run m =
      (adjudicateCall sys ports (requestFor m₁ view manifest call.args) >>=
        settleCall ports ((openCall ports call).run m).1 call (requestFor m₁ view manifest call.args).args).run m₁ := by
  subst hm₁
  unfold prepareCall
  rw [Stateful.run_bind, Stateful.run_bind, Stateful.run_bind]
  split
  · rename_i hnone
    cases hnone.symm.trans h
  · rename_i manifest' hsome
    cases hsome.symm.trans h
    rfl

/-- **One call is vouched for**: if it may run, its segment is in what was added. -/
theorem prepareCall_vouches (ports : Ports σ) (view : ContextView) (call : ToolInvocation)
    (registry : ToolRegistry) (run : Run) (m : Machine σ) (hm : Acts registry run m) :
    Reach sys n m ((prepareCall sys ports view call).run m).2 ∧
      Vouches sys registry run m ((prepareCall sys ports view call).run m).2
        ((prepareCall sys ports view call).run m).1.item.toList := by
  have hopening : Tells (openCall ports call) :=
    tells_takeCallId.bind fun _ => (tells_record _ _ _ (by decide)).bind fun _ => .pure _
  obtain ⟨es, htold⟩ := hopening m
  let m₁ := ((openCall ports call).run m).2
  have hreach : Reach sys n m m₁ := .of_told ⟨es, htold⟩
  have hacts : Acts registry run m₁ := (htold.toUnmoved.kept (htold.trace ▸ List.prefix_append _ _)).acts hm
  cases hmanifest : m₁.engine.registry.manifest call.tool with
  | none =>
    rw [prepareCall_unregistered rfl hmanifest]
    exact ⟨hreach, .of_told htold⟩
  | some manifest =>
    rw [prepareCall_registered rfl hmanifest]
    have hreq : RequestOf m₁.engine.registry m₁.run call.tool
        (requestFor m₁ view manifest call.args) := ⟨hmanifest, rfl, _, _, rfl⟩
    refine ⟨hreach.trans _ _ _ (settled_reach ports _ call _ m₁ hreq), ?_⟩
    exact (Vouches.of_told htold).trans
      (settled_vouches ports _ call _ registry run m₁ hacts (hacts.registry ▸ hreq))

/-! ## One group -/

theorem collect_vouches (ports : Ports σ) (view : ContextView) (calls : List ToolInvocation)
    (registry : ToolRegistry) (run : Run) (m : Machine σ) (hm : Acts registry run m) (hn : nesting m.run ≤ n) :
    Reach sys n m ((Stateful.collect (prepareCall sys ports view) calls).run m).2 ∧
      Vouches sys registry run m ((Stateful.collect (prepareCall sys ports view) calls).run m).2
        (((Stateful.collect (prepareCall sys ports view) calls).run m).1.filterMap Prepared.item) := by
  induction calls generalizing m with
  | nil => exact ⟨.refl m, .of_told (.refl m)⟩
  | cons call rest ih =>
    obtain ⟨hreach, hvouch⟩ := @prepareCall_vouches σ sys n ports view call registry run m hm
    have hkept := (hreach hn).1.kept
    obtain ⟨hreach', hvouch'⟩ := ih ((prepareCall sys ports view call).run m).2 (hkept.acts hm)
      (hkept.nesting ▸ hn)
    refine ⟨hreach.trans _ _ _ hreach', ?_⟩
    have hitems : ((Stateful.collect (prepareCall sys ports view) (call :: rest)).run m).1.filterMap
        Prepared.item = ((prepareCall sys ports view call).run m).1.item.toList ++
          ((Stateful.collect (prepareCall sys ports view) rest).run
            ((prepareCall sys ports view call).run m).2).1.filterMap Prepared.item := by
      simp only [Stateful.collect, Stateful.run_bind, Stateful.run_pure, List.filterMap_cons]
      cases ((prepareCall sys ports view call).run m).1.item <;> rfl
    rw [hitems]
    exact hvouch.trans hvouch'

/-- The machine once the tools of the items have been marked, when there are any. -/
def Machine.marked (m : Machine σ) (items : List BatchItem) : Machine σ :=
  if items.isEmpty then m else m.note (.used m.run.id m.frame.answer (items.map BatchItem.tool))

/-- Executing the items is one step of the transition system, the clock apart. -/
theorem executeItems_run (ports : Ports σ) (items : List BatchItem) (m : Machine σ) :
    ∃ env elapsed, ((executeItems ports items).run m).2 =
      (if items.isEmpty then (m.withEnv env).marked items
        else ((m.withEnv env).marked items).note (.hostCalled m.run items)).charged
          { toolCalls := items.length % 2 ^ 32, wallMs := elapsed } := by
  cases items with
  | nil => exact ⟨_, _, rfl⟩
  | cons item rest => exact ⟨_, _, rfl⟩

/-- A mark in a group leaves it mediated. -/
theorem Mediated.note {registry : ToolRegistry} {trace : List Effect} {run : Run}
    {items : List BatchItem} (h : Mediated sys registry trace run items) (e : Effect)
    (he : e.startsGroup = false) : Mediated sys registry (trace ++ [e]) run items := by
  obtain ⟨before, group, segments, rfl, hgroup, hitems, hsub⟩ := h
  refine ⟨before, group ++ [e], segments, by simp, ?_, hitems, ?_⟩
  · exact List.forall_mem_append.mpr ⟨hgroup, by simpa using he⟩
  · exact hsub.trans (List.sublist_append_left group [e])

theorem executeItems_reach (ports : Ports σ) (items : List BatchItem) (m : Machine σ)
    (h : Mediated sys m.engine.registry m.trace m.run items)
    (permits : ∃ answer, m.frame.answer = some answer ∧
      ∀ tool ∈ items.map BatchItem.tool, answer.Permits tool) :
    Reach sys n m ((executeItems ports items).run m).2 := by
  obtain ⟨env, elapsed, hrun⟩ := executeItems_run ports items m
  rw [hrun]
  refine Reach.trans m (m.withEnv env) _ (.of_told ⟨_, .withEnv m env⟩) ?_
  cases items with
  | nil => exact .of_act (.host (m.withEnv env) [] elapsed h) rfl rfl
  | cons item rest =>
    have hmarked : Reach sys n (m.withEnv env) ((m.withEnv env).marked (item :: rest)) :=
      .of_act (.used (m.withEnv env) _ permits) rfl rfl
    refine hmarked.trans _ _ _ ?_
    exact .of_act (.host _ (item :: rest) elapsed (h.note _ rfl)) rfl rfl

theorem steps_foldResults (ports : Ports σ) (prepared : List Prepared)
    (outcomes : List ToolOutcome) : Steps sys n (foldResults ports prepared outcomes) := by
  induction prepared generalizing outcomes with
  | nil => exact .pure _
  | cons p rest ih =>
    cases p with
    | refused tool why callRef => exact (steps_toolError _ _ _).bind fun _ => ih _
    | ready call =>
      cases outcomes with
      | nil => exact ih _
      | cons outcome outcomes =>
        have hfinish : Steps sys n (finishCall ports call outcome) := by
          have hrecord : Tells (record ports (if outcome.failed then .toolFailed else .toolCompleted)
              (.toolResult call.tool outcome.summary.render
                (if outcome.failed then outcome.summary.detail else none))) := by
            refine tells_record _ _ _ ?_
            split <;> decide
          refine hrecord.steps.bind fun _ => (tells_emit _ _).steps.bind fun _ => ?_
          split
          · exact .pure _
          · exact (steps_pushBlock _ rfl).bind fun _ => .pure _
        exact hfinish.bind fun _ => (ih _).bind fun _ => .pure _

/-- Something waits to be read only when something was handed to the host. -/
theorem foldResults_pending (ports : Ports σ) (prepared : List Prepared)
    (outcomes : List ToolOutcome) (m : Machine σ)
    (h : prepared.filterMap Prepared.item = []) :
    ((foldResults ports prepared outcomes).run m).1 = [] := by
  induction prepared generalizing m outcomes with
  | nil => rfl
  | cons p rest ih =>
    cases p with
    | refused tool why callRef => exact ih _ _ h
    | ready call => cases h

/-- A call that was vouched for is of a tool the run holds. -/
theorem Vouched.exposed {registry : ToolRegistry} {run : Run} {item : BatchItem}
    {segment : List Effect} (h : Vouched sys registry run item segment) :
    run.profile.exposedTools.contains item.tool = true := by
  obtain ⟨_, _, req, _, _, _, _, _, -, htools, hreq, -, -, hcleared, -⟩ := h
  rw [← htools, ← hreq.exposed, ← ToolRegistry.manifest_tool hreq.registered]
  exact hcleared.exposed

theorem nesting_of_exposed {run : Run} {tool : ToolId}
    (h : run.profile.exposedTools.contains tool = true) : 0 < nesting run := by
  unfold nesting
  rw [if_neg]
  · omega
  · intro hempty
    unfold ExposedSet.contains at h
    unfold ExposedSet.isEmpty at hempty
    rw [List.isEmpty_iff.mp hempty] at h
    cases h

theorem Mediated.exposed {registry : ToolRegistry} {trace : List Effect} {run : Run}
    {items : List BatchItem} (h : Mediated sys registry trace run items) :
    ∀ item ∈ items, run.profile.exposedTools.contains item.tool = true := by
  obtain ⟨_, _, segments, -, -, hitems, -⟩ := h
  induction hitems with
  | nil => intro item hitem; cases hitem
  | cons hvouched _ ih =>
    intro item hitem
    rcases List.mem_cons.mp hitem with rfl | hitem
    · exact hvouched.exposed
    · exact ih item hitem

/-- A call that may run is a call of the tool the model named. -/
theorem prepareCall_item (ports : Ports σ) (view : ContextView) (call : ToolInvocation)
    (m : Machine σ) :
    ∀ item ∈ ((prepareCall sys ports view call).run m).1.item, item.tool = call.tool := by
  let m₁ := ((openCall ports call).run m).2
  intro item hitem
  cases hmanifest : m₁.engine.registry.manifest call.tool with
  | none =>
    rw [prepareCall_unregistered rfl hmanifest] at hitem
    cases hitem
  | some manifest =>
    rw [prepareCall_registered rfl hmanifest] at hitem
    obtain ⟨_, _, _, hnone | ⟨hcarries, -⟩⟩ := settleCall_trace ports ((openCall ports call).run m).1 call
      (requestFor m₁ view manifest call.args).args
      ((adjudicateCall sys ports (requestFor m₁ view manifest call.args)).run m₁).1
      ((adjudicateCall sys ports (requestFor m₁ view manifest call.args)).run m₁).2
    · cases hnone.symm.trans hitem
    · cases hcarries.symm.trans hitem
      rfl

theorem collect_item (ports : Ports σ) (view : ContextView) (calls : List ToolInvocation)
    (m : Machine σ) :
    ∀ item ∈ ((Stateful.collect (prepareCall sys ports view) calls).run m).1.filterMap
      Prepared.item, item.tool ∈ calls.map ToolInvocation.tool := by
  induction calls generalizing m with
  | nil => intro item hitem; cases hitem
  | cons call rest ih =>
    intro item hitem
    obtain ⟨p, hp, hitem⟩ := List.mem_filterMap.mp hitem
    rcases List.mem_cons.mp hp with rfl | hp
    · rw [prepareCall_item ports view call m item hitem]
      exact List.mem_cons_self
    · exact List.mem_cons_of_mem _ (ih _ item (List.mem_filterMap.mpr ⟨p, hp, hitem⟩))

/-- The run answers these calls, and can nest at most `n` levels. -/
structure Answering (n : Nat) (calls : List ToolInvocation) (m : Machine σ) : Prop where
  bound : nesting m.run ≤ n
  answer : ∃ answer, m.frame.answer = some answer ∧ answer.step = .toolCall calls ∧
    answer.run.profile.exposedTools = m.run.profile.exposedTools

theorem Reach.answering {calls : List ToolInvocation} (m m' : Machine σ) (h : Reach sys n m m')
    (hm : Answering n calls m) : Answering n calls m' := by
  obtain ⟨hruns, -, hanswer⟩ := h hm.bound
  obtain ⟨answer, hsome, hstep, htools⟩ := hm.answer
  refine ⟨?_, answer, hanswer.trans hsome, hstep, ?_⟩
  · rw [hruns.kept.nesting]
    exact hm.bound
  · rw [hruns.kept.rights.exposedTools]
    exact htools

/-- A tool of the calls that the run holds is one it may use for them. -/
theorem Answering.permits {calls : List ToolInvocation} {m : Machine σ}
    (h : Answering n calls m) {tools : List ToolId}
    (named : ∀ tool ∈ tools, tool ∈ calls.map ToolInvocation.tool)
    (held : ∀ tool ∈ tools, m.run.profile.exposedTools.contains tool = true) :
    ∃ answer, m.frame.answer = some answer ∧ ∀ tool ∈ tools, answer.Permits tool := by
  obtain ⟨answer, hsome, hstep, htools⟩ := h.answer
  refine ⟨answer, hsome, fun tool htool => ?_⟩
  unfold Answer.Permits
  rw [hstep, htools]
  exact ⟨named tool htool, held tool htool⟩

/-- **A group is mediated.** -/
theorem runGroup_under {sub : SubRun σ} (hsub : Nests sys n sub) (ports : Ports σ)
    (view : ContextView) (all calls : List ToolInvocation) (part : calls ⊆ all) :
    Stateful.Under (Answering n all) (Reach sys n) (runGroup sys ports sub view calls) := by
  intro m hm hn
  refine (?_ : Reach sys n m _) hn
  let started := m.note (.groupStarted m.run.id)
  let prepared := (Stateful.collect (prepareCall sys ports view) calls).run started
  have hstart : Reach sys n m started := .of_act (.groupStart m) rfl rfl
  obtain ⟨hreach, hvouch⟩ := @collect_vouches σ sys n ports view calls m.engine.registry m.run
    started ⟨rfl, rfl, rfl⟩ hn
  have hprepared : Reach sys n m prepared.2 := hstart.trans _ _ _ hreach
  have hkept := (hprepared hn).1.kept
  have hmediated : Mediated sys prepared.2.engine.registry prepared.2.trace prepared.2.run
      (prepared.1.filterMap Prepared.item) := by
    obtain ⟨group, segments, htrace, hgroup, hitems, hsub⟩ := hvouch
    refine ⟨m.trace, group, segments, ?_, hgroup, ?_, hsub⟩
    · rw [hkept.id, htrace]
      change (m.trace ++ [_]) ++ group = _
      rw [List.append_assoc]
      rfl
    · rw [hkept.registry]
      exact hitems.imp fun _ _ h => h.congr hkept.id hkept.rights.exposedTools
  have hpermits := (hprepared.answering _ _ hm).permits
    
    (List.forall_mem_map.mpr fun item hitem =>
      List.map_subset _ part (collect_item ports view calls started item hitem))
    (List.forall_mem_map.mpr hmediated.exposed)
  let executed := (executeItems ports (prepared.1.filterMap Prepared.item)).run prepared.2
  have hexecuted : Reach sys n m executed.2 :=
    hprepared.trans _ _ _ (executeItems_reach ports _ prepared.2 hmediated hpermits)
  let marked := executed.2.note (.groupFolded m.run.id (slotsOf prepared.1 executed.1))
  have hfolded : Reach sys n m ((foldResults ports prepared.1 executed.1).run marked).2 := by
    refine hexecuted.trans _ _ _ (Reach.trans _ marked _ (.of_told ⟨_, .note executed.2 _ ⟨rfl, ?_⟩⟩)
      (steps_foldResults ports _ _ marked))
    exact (hexecuted hn).1.kept.id.symm
  refine hfolded.trans _ _ _ (condenseBatch_reach hsub ports _ _ fun hpending => ?_)
  rw [(hfolded hn).1.kept.nesting, ← hkept.nesting]
  -- something waits, so something was executed, and that takes a tool of the run's own
  cases hitems : prepared.1.filterMap Prepared.item with
  | nil => exact absurd (foldResults_pending ports _ _ _ hitems) hpending
  | cons item rest => exact nesting_of_exposed (hmediated.exposed item (by rw [hitems]; simp))

/-- Grouping keeps every call, in order. -/
theorem groupCalls_flatten (registry : ToolRegistry) (calls group : List ToolInvocation) :
    (groupCalls registry calls group).flatten = group ++ calls := by
  induction calls generalizing group with
  | nil => cases group <;> simp [groupCalls]
  | cons call rest ih =>
    cases group with
    | nil =>
      simp only [groupCalls]
      split <;> simp [ih]
    | cons first group =>
      simp only [groupCalls]
      split <;> simp [ih]

theorem toolBatch_under {sub : SubRun σ} (hsub : Nests sys n sub) (ports : Ports σ)
    (view : ContextView) (calls : List ToolInvocation) (reasoning : String) :
    Stateful.Under (Answering n calls) (Reach sys n)
      (toolBatch sys ports sub view calls reasoning) := by
  unfold toolBatch
  split
  · exact (Steps.pure ()).under
  · have hannounce : Steps sys n (pushBlock (announcement calls reasoning)) := steps_pushBlock _ rfl
    refine .bind Reach.trans hannounce.under (hannounce.triple Reach.answering) fun _ m hm => ?_
    rw [Stateful.run_bind, Stateful.run_read]
    refine Stateful.Under.each Reach.refl Reach.trans Reach.answering _ (fun group hgroup => ?_) m hm
    refine runGroup_under hsub ports view calls group fun call hcall => ?_
    have hall : (groupCalls m.engine.registry calls []).flatten = calls :=
      groupCalls_flatten m.engine.registry calls []
    rw [← hall]
    exact List.mem_flatten_of_mem hgroup hcall

end MarloweAgent.Loop
