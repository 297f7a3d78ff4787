import MarloweAgent.Memory.Refinement

/-! Which refusals are journalled. A claim that is refused leaves a record; a correction or a
forgetting that its target refuses leaves nothing. -/

namespace MarloweAgent.Memory
open Contract EventLog Library

variable {α β : Type} {m : MemoryState} {clock : Clock}

/-! ## How a request ends -/

/-- A request ends refused, with one rejection appended and the store unchanged; or accepted, with
no rejection appended; or cut short because the journal could not be written. -/
inductive Journalled (m : MemoryState) :
    Except MemoryError (Except ClaimRejected α) × MemoryState → Prop
  | refused (reason : ClaimRejected) (seq : Seq) (turnId sessionId : String) (m' : MemoryState)
    (beliefs : m'.beliefs = m.beliefs)
    (appended : log m' = log m ++ [(seq, .memoryWriteRejected,
      .memoryWriteRejected { turnId, sessionId, reason := reason.asWireString })]) :
    Journalled m (.ok (.error reason), m')
  | accepted (a : α) (m' : MemoryState) (events : List LogEvent) (appended : log m' = log m ++ events)
    (none : ∀ e ∈ events, e.2.1 ≠ .memoryWriteRejected) : Journalled m (.ok (.ok a), m')
  | failed (error : MemoryError) (m' : MemoryState) : Journalled m (.error error, m')

/-- Append first: judge what follows at the grown log, and the failure where the log is. -/
theorem append_bind {P : Except MemoryError α × MemoryState → Prop} {req : AppendRequest Payload}
    {next : JournalEvent Payload → MemoryM α}
    (ok : ∀ (event : JournalEvent Payload) (m' : MemoryState), m'.beliefs = m.beliefs →
      log m' = log m ++ [(event.seq, req.kind, req.payload)] → P ((next event).run m'))
    (error : ∀ e m', P (.error e, m')) : P ((append clock req >>= next).run m) := by
  rcases append_run clock req m with ⟨event, journal, hrun, hlog⟩ | ⟨e, journal, hrun, -⟩
  · rw [Fallible.bind_ok hrun]
    exact ok event _ rfl hlog
  · rw [Fallible.bind_error hrun]
    exact error e _

theorem Journalled.map {op : MemoryM (Except ClaimRejected α)} (h : Journalled m (op.run m)) (f : α → β) :
    Journalled m ((op >>= fun a => pure (a.map f) : MemoryM (Except ClaimRejected β)).run m) := by
  cases hrun : op.run m with
  | mk r m' =>
    rw [hrun] at h
    cases h with
    | refused reason seq turnId sessionId _ beliefs appended =>
      rw [Fallible.bind_ok hrun]
      exact .refused reason seq turnId sessionId m' beliefs appended
    | accepted a _ events appended none =>
      rw [Fallible.bind_ok hrun]
      exact .accepted (f a) m' events appended none
    | failed error =>
      rw [Fallible.bind_error hrun]
      exact .failed error m'

/-! ## The three requests -/

theorem rememberClaim_journalled (clock : Clock) (write : ClaimWrite) (m : MemoryState) :
    Journalled m ((rememberClaim clock write).run m) := by
  unfold rememberClaim
  rw [Fallible.read_bind_run]
  dsimp only
  split
  next reason _ =>
    refine append_bind (fun event m' hbeliefs hlog => ?_) .failed
    exact .refused reason event.seq _ _ m' hbeliefs hlog
  next =>
    refine append_bind (fun event m' _ hlog => ?_) .failed
    exact .accepted _ _ [_] hlog (List.forall_mem_singleton.mpr nofun)

/-- A request of the model. -/
inductive ClaimRequest
  | remember (write : ClaimWrite)
  | correct (write : ClaimWrite) (target : MemoryId)
  | forget (sessionId runId : String) (target : MemoryId)

namespace ClaimRequest

/-- Carry it out: the belief it left or removed, or why it was refused. -/
def carryOut (clock : Clock) : ClaimRequest → MemoryM (Except ClaimRejected MemoryId)
  | .remember write => rememberClaim clock write >>= fun result => pure (result.map WriteReceipt.id)
  | .correct write target =>
    correctClaim clock write target >>= fun result => pure (result.map WriteReceipt.id)
  | .forget sessionId runId target => forgetClaim clock sessionId runId target

/-- The target of a request refuses it before anything is written. -/
def RefusedByTarget (beliefs : BeliefStore) : ClaimRequest → Prop
  | .remember _ => False
  | .correct write target => ∀ existing, beliefs.get target = some existing →
    claimTrust beliefs write < existing.effectiveTrust
  | .forget _ _ target => beliefs.get target = none

end ClaimRequest

theorem correctClaim_journalled {write : ClaimWrite} {target : MemoryId} {existing : MemoryEntry}
    (htarget : m.beliefs.get target = some existing)
    (htrust : ¬ claimTrust m.beliefs write < existing.effectiveTrust) :
    Journalled m ((correctClaim clock write target).run m) := by
  unfold correctClaim
  rw [Fallible.read_bind_run]
  dsimp only
  rw [htarget]
  dsimp only
  rw [if_neg htrust]
  have hremember := rememberClaim_journalled clock write m
  cases hrun : (rememberClaim clock write).run m with
  | mk r m' =>
    rw [hrun] at hremember
    cases hremember with
    | refused reason seq turnId sessionId _ beliefs appended =>
      rw [Fallible.bind_ok hrun]
      exact .refused reason seq turnId sessionId m' beliefs appended
    | accepted receipt _ events appended none =>
      rw [Fallible.bind_ok hrun]
      refine append_bind (fun event m'' _ hlog => ?_) .failed
      rw [appended, List.append_assoc] at hlog
      exact .accepted receipt _ _ hlog
        (List.forall_mem_append.mpr ⟨none, List.forall_mem_singleton.mpr nofun⟩)
    | failed error =>
      rw [Fallible.bind_error hrun]
      exact .failed error m'

theorem forgetClaim_journalled {sessionId runId : String} {target : MemoryId} {existing : MemoryEntry}
    (htarget : m.beliefs.get target = some existing) :
    Journalled m ((forgetClaim clock sessionId runId target).run m) := by
  unfold forgetClaim
  rw [Fallible.read_bind_run, htarget]
  refine append_bind (fun event m' _ hlog => ?_) .failed
  exact .accepted target _ [_] hlog (List.forall_mem_singleton.mpr nofun)

/-- Where nothing was appended, a refusal was not journalled. -/
theorem not_journalled_of_same {result : Except MemoryError (Except ClaimRejected α) × MemoryState}
    {reason : ClaimRejected} (hresult : result = (.ok (.error reason), m)) : ¬ Journalled m result := by
  rintro (⟨reason', seq, turnId, sessionId, m', beliefs, appended⟩ | _ | _)
  · cases hresult
    exact absurd (List.self_eq_append_right.mp appended) (List.cons_ne_nil _ _)
  · cases hresult
  · cases hresult

namespace ClaimRequest

/-- A request its target refuses changes nothing. -/
theorem carryOut_of_refused {request : ClaimRequest} (h : request.RefusedByTarget m.beliefs) :
    ∃ reason, (request.carryOut clock).run m = (.ok (.error reason), m) := by
  cases request with
  | remember write => exact h.elim
  | correct write target =>
    have hcorrect : ∃ reason, (correctClaim clock write target).run m = (.ok (.error reason), m) := by
      unfold correctClaim
      rw [Fallible.read_bind_run]
      cases htarget : m.beliefs.get target with
      | none => exact ⟨_, rfl⟩
      | some existing =>
        dsimp only
        rw [if_pos (h existing htarget)]
        exact ⟨_, rfl⟩
    obtain ⟨reason, hrun⟩ := hcorrect
    exact ⟨reason, Fallible.bind_ok hrun⟩
  | forget sessionId runId target =>
    have htarget : m.beliefs.get target = none := h
    refine ⟨.unknownParent target, ?_⟩
    show (forgetClaim clock sessionId runId target).run m = _
    unfold forgetClaim
    rw [Fallible.read_bind_run, htarget]
    rfl

theorem carryOut_journalled {request : ClaimRequest} (h : ¬ request.RefusedByTarget m.beliefs) :
    Journalled m ((request.carryOut clock).run m) := by
  cases request with
  | remember write => exact (rememberClaim_journalled clock write m).map _
  | correct write target =>
    obtain ⟨existing, hexisting⟩ := not_forall.mp h
    obtain ⟨htarget, htrust⟩ := Classical.not_imp.mp hexisting
    exact (correctClaim_journalled htarget htrust).map _
  | forget sessionId runId target =>
    obtain ⟨existing, htarget⟩ := Option.ne_none_iff_exists'.mp h
    exact forgetClaim_journalled htarget

/-- **A request is journalled as it ends exactly when its target does not refuse it.** -/
theorem journalled_iff (clock : Clock) (request : ClaimRequest) (m : MemoryState) :
    Journalled m ((request.carryOut clock).run m) ↔ ¬ request.RefusedByTarget m.beliefs := by
  refine ⟨fun h hrefused => ?_, carryOut_journalled⟩
  have hend : ∃ reason, (request.carryOut clock).run m = (.ok (.error reason), m) :=
    carryOut_of_refused hrefused
  obtain ⟨reason, hresult⟩ := hend
  exact not_journalled_of_same hresult h

/-- Forgetting what an empty memory does not have leaves its log empty. -/
theorem forgotten_unknown_unjournalled :
    ¬ (∀ clock request m, Journalled m ((carryOut clock request).run m)) ∧
      (((carryOut ⟨0⟩ (.forget "s" "r" "m-s-t-0")).run (MemoryState.create ⟨fun _ => ""⟩ [])).1 =
          .ok (.error (.unknownParent "m-s-t-0")) ∧
        log ((carryOut ⟨0⟩ (.forget "s" "r" "m-s-t-0")).run (MemoryState.create ⟨fun _ => ""⟩ [])).2 = []) := by
  refine ⟨fun h => ?_, rfl, rfl⟩
  have hrefused : (carryOut ⟨0⟩ (.forget "s" "r" "m-s-t-0")).run (MemoryState.create ⟨fun _ => ""⟩ []) =
      (.ok (.error (.unknownParent "m-s-t-0")), MemoryState.create ⟨fun _ => ""⟩ []) := rfl
  exact not_journalled_of_same hrefused (h _ _ _)

end ClaimRequest

end MarloweAgent.Memory
