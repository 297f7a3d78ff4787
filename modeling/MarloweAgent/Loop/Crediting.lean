import MarloweAgent.Loop.Pairing

/-! A group whose host returns the wrong number of results. The outcomes are cut or filled up
to the number of calls, so those that came are still credited by position. -/

namespace MarloweAgent.Loop
open Contract Library Tools Permission
open Stateful (each collect)

variable {σ : Type}

/-- The harness's own outcome for a result that is not available. -/
def ToolOutcome.Unavailable (outcome : ToolOutcome) : Prop := { outcome with wallMs := 0 } = hostError

instance (outcome : ToolOutcome) : Decidable outcome.Unavailable :=
  inferInstanceAs (Decidable (_ = _))

/-- The error a slot is answered with when no result of the host is credited to it. -/
def Prepared.errorBlock : Prepared → Block
  | .refused tool why callRef =>
    .toolResultBlockedId s!"[{tool.text} blocked] {why}" tool.text .agentObserved callRef
  | .ready call =>
    .toolResultFor (resultText hostError) call.tool.text hostError.trust (some hostError.summary.render)
      true call.callRef

/-! ## One group -/

/-- One group of calls, at the machine it is run in. -/
structure Group (σ : Type) where
  sys : Outside σ
  ports : Ports σ
  view : ContextView
  calls : List ToolInvocation
  machine : Machine σ

namespace Group

variable (g : Group σ)

/-- The calls prepared, refused or approved. -/
def prepared : List Prepared × Machine σ :=
  (collect (prepareCall g.sys g.ports g.view) g.calls).run
    (g.machine.note (.groupStarted g.machine.run.id))

/-- The approved calls, as they are handed to the host. -/
def items : List BatchItem := g.prepared.1.filterMap Prepared.item

/-- What the host returned for them. -/
def returned : List ToolOutcome :=
  ((callHost g.ports g.items).run ((port g.ports.nowMs).run g.prepared.2).2).1

/-- The outcomes the calls are credited with, in order. -/
def credited : List ToolOutcome × Machine σ := (executeItems g.ports g.items).run g.prepared.2

/-- The machine once the group is run. -/
def after (sub : SubRun σ) : Machine σ := ((runGroup g.sys g.ports sub g.view g.calls).run g.machine).2

/-- The host returned another number of outcomes than it was handed calls. -/
def Mismatched : Prop := g.returned.length ≠ g.items.length

/-- On a mismatch no call is credited with an outcome of the host. -/
def Unattributed : Prop := g.Mismatched → ∀ outcome ∈ g.credited.1, outcome.Unavailable

instance : Decidable g.Mismatched := inferInstanceAs (Decidable (_ ≠ _))

theorem unavailable_withTime {outcome : ToolOutcome} (ms : Nat) :
    ({ outcome with wallMs := ms } : ToolOutcome).Unavailable ↔ outcome.Unavailable := Iff.rfl

theorem unavailable_hostError : hostError.Unavailable := rfl

/-- The outcomes that came are kept in their places. -/
theorem forall_credited_iff :
    (∀ outcome ∈ g.credited.1, outcome.Unavailable) ↔
      ∀ outcome ∈ g.returned.take g.items.length, outcome.Unavailable := by
  have hcredited : ∃ ms, g.credited.1 =
      (fitOutcomes g.items.length g.returned).map fun o => { o with wallMs := ms } := ⟨_, rfl⟩
  obtain ⟨ms, hcredited⟩ := hcredited
  rw [hcredited, List.forall_mem_map]
  simp only [unavailable_withTime, fitOutcomes, List.forall_mem_append]
  refine ⟨And.left, fun h => ⟨h, fun outcome hmem => ?_⟩⟩
  rw [List.eq_of_mem_replicate hmem]
  exact unavailable_hostError

end Group

/-! ## What the session is told -/

theorem Still.volatile_eq {m m' : Machine σ} (h : Still m m') :
    m'.state.volatile = m.state.volatile := by
  obtain ⟨blocks, hblocks, hids⟩ := h.pushed
  rw [List.map_nil, List.map_eq_nil_iff] at hids
  rw [hblocks, hids, List.append_nil]

/-- A result that is not available is an error in the session, and nothing to be read. -/
theorem finishCall_unavailable (ports : Ports σ) (call : PreparedCall) {outcome : ToolOutcome}
    (h : outcome.Unavailable) (m : Machine σ) :
    ((finishCall ports call outcome).run m).1 = none ∧
      ((finishCall ports call outcome).run m).2.state.volatile =
        m.state.volatile ++ [(Prepared.ready call).errorBlock] := by
  have htext : resultText outcome = resultText hostError :=
    (congrArg resultText h : resultText { outcome with wallMs := 0 } = resultText hostError)
  have hsummary : outcome.summary = hostError.summary := (congrArg ToolOutcome.summary h :)
  have htrust : outcome.trust = hostError.trust := (congrArg ToolOutcome.trust h :)
  have hfailed : outcome.failed = true := (congrArg ToolOutcome.failed h :)
  let told : LoopM σ Unit := do
    let _ ← record ports (if outcome.failed then .toolFailed else .toolCompleted)
      (.toolResult call.tool outcome.summary.render
        (if outcome.failed then outcome.summary.detail else none))
    emit ports (.toolLine call.callId call.tool.text call.adjudication.decision.blastRadius.scope
      (if outcome.failed then .failed { outcome.summary with detail := outcome.screenDetail }
        else .ok { outcome.summary with detail := outcome.screenDetail }))
  have htold : Quiet told := (quiet_record _ _ _).bind fun _ => quiet_emit _ _
  have hreads : blocksComposedTargets outcome.trust = false := by
    rw [htrust]
    rfl
  have hrun : (finishCall ports call outcome).run m =
      (none, ((pushBlock (.toolResultFor (resultText outcome) call.tool.text outcome.trust
        (some outcome.summary.render) outcome.failed call.callRef)).run (told.run m).2).2) := by
    change (if blocksComposedTargets outcome.trust then _ else _ : LoopM σ (Option PendingRead)).run
      (told.run m).2 = _
    rw [hreads]
    rfl
  rw [hrun]
  refine ⟨rfl, ?_⟩
  have hblock : Block.toolResultFor (resultText outcome) call.tool.text outcome.trust
      (some outcome.summary.render) outcome.failed call.callRef = (Prepared.ready call).errorBlock := by
    rw [htext, hsummary, htrust, hfailed]
    rfl
  rw [hblock, ← (htold m).volatile_eq]
  rfl

/-- Then every slot is answered with an error, and nothing waits to be read. -/
theorem foldResults_unavailable (ports : Ports σ) (prepared : List Prepared)
    (outcomes : List ToolOutcome) (m : Machine σ)
    (hlength : (prepared.filterMap Prepared.item).length ≤ outcomes.length)
    (h : ∀ outcome ∈ outcomes, outcome.Unavailable) :
    ((foldResults ports prepared outcomes).run m).1 = [] ∧
      ((foldResults ports prepared outcomes).run m).2.state.volatile =
        m.state.volatile ++ prepared.map Prepared.errorBlock := by
  induction prepared generalizing outcomes m with
  | nil => exact ⟨rfl, (List.append_nil _).symm⟩
  | cons p rest ih =>
    cases p with
    | refused tool why callRef =>
      obtain ⟨hwait, hpushed⟩ := ih outcomes ((toolError tool why callRef).run m).2 hlength h
      refine ⟨hwait, hpushed.trans ?_⟩
      have herror : ((toolError tool why callRef).run m).2.state.volatile =
          m.state.volatile ++ [(Prepared.refused tool why callRef).errorBlock] := rfl
      rw [herror, List.append_assoc]
      rfl
    | ready call =>
      cases outcomes with
      | nil => simp [Prepared.item] at hlength
      | cons outcome outcomes =>
        obtain ⟨hfirst, hrest⟩ := List.forall_mem_cons.mp h
        obtain ⟨hnone, herror⟩ := finishCall_unavailable ports call hfirst m
        obtain ⟨hwait, hpushed⟩ := ih outcomes ((finishCall ports call outcome).run m).2
          (by simpa [Prepared.item] using hlength) hrest
        simp only [foldResults, Stateful.run_bind, Stateful.run_pure]
        rw [hnone, hwait]
        refine ⟨rfl, hpushed.trans ?_⟩
        rw [herror, List.append_assoc]
        rfl

namespace Group

variable (g : Group σ)

/-- Where nothing is attributed, each call of the group is answered with an error. -/
theorem after_of_unavailable (sub : SubRun σ) (h : ∀ outcome ∈ g.credited.1, outcome.Unavailable) :
    (g.after sub).state.volatile =
      g.machine.state.volatile ++ g.prepared.1.map Prepared.errorBlock := by
  let slots := slotsOf g.prepared.1 g.credited.1
  let noted := g.credited.2.note (.groupFolded g.machine.run.id slots)
  have hexecuted : Still g.machine g.credited.2 :=
    ((quiet_note (.groupStarted g.machine.run.id) (fun _ => rfl) g.machine).trans _ _ _
      (quiet_collect g.ports g.view g.calls _)).trans _ _ _ (quiet_executeItems g.ports g.items _)
  obtain ⟨hwait, hpushed⟩ := foldResults_unavailable g.ports g.prepared.1 g.credited.1 noted
    (executeItems_length g.ports g.items g.prepared.2).ge h
  let folded := (foldResults g.ports g.prepared.1 g.credited.1).run noted
  have hafter : g.after sub = ((condenseBatch g.sys g.ports sub folded.1).run folded.2).2 := rfl
  rw [hafter, show folded.1 = [] from hwait]
  exact hpushed.trans (congrArg (· ++ _) hexecuted.volatile_eq)

/-- A mismatch attributes nothing exactly if the outcomes the host did return, up to the number of
calls, are all the harness's own error; and then every call is answered with an error. -/
theorem unattributed_iff (sub : SubRun σ) :
    (g.Unattributed ↔
        (g.Mismatched → ∀ outcome ∈ g.returned.take g.items.length, outcome.Unavailable)) ∧
      (g.Unattributed → g.Mismatched → (g.after sub).state.volatile =
        g.machine.state.volatile ++ g.prepared.1.map Prepared.errorBlock) :=
  ⟨forall_congr' fun _ => g.forall_credited_iff,
    fun h hmismatch => g.after_of_unavailable sub (h hmismatch)⟩

end Group

/-- Three looks, of which the host drops the second. -/
def Script.droppedSecond : Group Script :=
  let machine := start 100000 looks ample
    { answers := [], outcomes := [[result .agentObserved "first", result .agentObserved "third"]] }
  { sys := outside, ports := ports, view := machine.engine.assembler.assemble machine.state
    calls := [⟨"a", look, .empty⟩, ⟨"b", look, .empty⟩, ⟨"c", look, .empty⟩], machine }

set_option maxRecDepth 20000 in
/-- The second call is credited with the third one's outcome. -/
theorem third_result_credited : ¬ ∀ g : Group Script, g.Unattributed := by
  intro h
  have hmismatch : Script.droppedSecond.Mismatched := by decide
  have hcredited : ¬ ∀ outcome ∈ Script.droppedSecond.credited.1, outcome.Unavailable := by
    decide
  exact hcredited (h Script.droppedSecond hmismatch)

end MarloweAgent.Loop
