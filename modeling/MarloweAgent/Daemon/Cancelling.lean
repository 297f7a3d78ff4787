import MarloweAgent.Daemon.Steering

/-! What a cancellation is worth. The plane remembers it in memory, a resume is refused for
what the last checkpoint says, and a resume that is not refused forgets it: a cancelled run
stays cancelled exactly when whoever asks to resume it finds its cancelled checkpoint. -/

namespace MarloweAgent.Daemon.World
open Contract EventLog Library Loop

/-- What may come after a run's cancellation: no model call of its own, and no resume but one
refused as terminated. -/
def MayFollow (run : RunId) : Occurrence → Prop
  | .modelCalled other => other ≠ run
  | .staged other => other ≠ run
  | .resumeRefused other why => other = run → why = .terminated run
  | _ => True

/-- From every accepted cancellation on, only what may follow it. -/
def Final (log : List Occurrence) : Prop :=
  log.Pairwise fun first later => ∀ run, first = .cancelAccepted run → MayFollow run later

/-- A run's cancellation and its queue are as they were. -/
structure Untouched (w w' : World) (run : RunId) : Prop where
  cancelled : run ∈ w'.plane.cancelled ↔ run ∈ w.plane.cancelled
  queued : w'.plane.queued run = w.plane.queued run

section Moves

variable (shown : RunStatus → String) (now : Int)

/-- A cancel and a resume name one run, and what is staged stays unless a resume succeeds. -/
structure Apart (w : World) : Prop where
  cancel : ∀ run, (w.step shown now (.happens (.cancel run))).resumed = w.resumed ∧
    ∀ other, other ≠ run → Untouched w (w.step shown now (.happens (.cancel run))) other
  resume : ∀ run other, other ≠ run → Untouched w (w.step shown now (.resume run)) other
  refused : ∀ run why, (w.plane.resume run).1 = .error why →
    (w.step shown now (.resume run)).plane = w.plane ∧
      (w.step shown now (.resume run)).resumed = w.resumed

end Moves

/-- Whoever asks to resume a cancelled run finds its last checkpoint cancelled, and readable. -/
def Upheld (w : World) : Move → Prop
  | .resume run => run ∈ w.plane.cancelled →
    ∃ cp, w.plane.latest run = some cp ∧ cp.version = checkpointVersion ∧ cp.status = .cancelled
  | _ => True

/-! ### What a resume answers -/

theorem resume_terminated_iff (plane : ControlPlane) (run : RunId) :
    (plane.resume run).1 = .error (.terminated run) ↔
      ∃ cp, plane.latest run = some cp ∧ cp.version = checkpointVersion ∧ cp.status = .cancelled := by
  unfold ControlPlane.resume
  cases hlatest : plane.latest run with
  | none => simp
  | some cp =>
    by_cases hversion : cp.version = checkpointVersion
    · cases hstatus : cp.status <;> simp [hversion, hstatus]
    · simp [hversion]

/-! ### What a step does to the cancelled -/

section Steps

variable {shown : RunStatus → String} {now : Int} {w : World}

theorem cancelled_follow (plane : ControlPlane) (clock : Clock) (kind : EventKind) (run : RunId)
    (payload : Payload) : (plane.follow clock kind run payload).cancelled = plane.cancelled := by
  unfold ControlPlane.follow
  repeat' split
  all_goals rfl

/-- Of what reaches the plane, only a cancel cancels. -/
theorem cancelled_happens (plane : ControlPlane) (h : Happening) (run : RunId) :
    run ∈ (plane.step shown now h).cancelled ↔ run ∈ plane.cancelled ∨ h = .cancel run := by
  cases h with
  | recorded written clock kind other payload =>
    have hsame : (plane.append written clock kind other payload).2.cancelled = plane.cancelled := by
      unfold ControlPlane.append
      split
      · rfl
      · exact cancelled_follow _ _ _ _ _
    simp [ControlPlane.step, hsame]
  | steer other text =>
    obtain ⟨why, hrefused⟩ | ⟨message, detail, -, hqueued⟩ :=
      ControlPlane.steer_cases shown now plane other text
    · simp [ControlPlane.step, hrefused]
    · simp [ControlPlane.step, hqueued]
  | cancel other =>
    simp only [ControlPlane.step, ControlPlane.cancel, Happening.cancel.injEq]
    by_cases hother : other ∈ plane.cancelled
    · rw [if_pos hother]
      refine ⟨.inl, fun h => h.elim id fun heq => heq ▸ hother⟩
    · rw [if_neg hother, List.mem_cons, or_comm, eq_comm]
  | accepted other at_ => simp [ControlPlane.step, ControlPlane.accept]
  | finished other word spent depth => simp [ControlPlane.step, ControlPlane.finish]

theorem plane_calling (w : World) (run : RunId) (calls : Bool) :
    (w.calling run calls).plane = w.plane := by
  unfold calling
  split <;> rfl

theorem cancelled_iterate (w : World) (run : RunId) (l : RunLoop) (calls : Bool) :
    (w.iterate run l calls).plane.cancelled = w.plane.cancelled := by
  unfold World.iterate
  split
  · rfl
  obtain ⟨-, htake⟩ | ⟨message, rest, -, htake⟩ := ControlPlane.takeSteer_cases w.plane run
  · rw [htake]
    simp only [plane_calling]
  · rw [htake]
    simp only [plane_calling]

theorem Upheld.resume {run : RunId} (h : Upheld w (.resume run)) (hrun : run ∈ w.plane.cancelled) :
    w.plane.resume run = (.error (.terminated run), w.plane) := by
  have hterminated := (resume_terminated_iff w.plane run).mpr (h hrun)
  obtain ⟨why, heq⟩ | ⟨cp, heq⟩ := w.plane.resume_cases run
  · rw [heq] at hterminated
    obtain rfl : why = .terminated run := by simpa using hterminated
    exact heq
  · rw [heq] at hterminated
    cases hterminated

/-- A step cancels nobody that was not asked to be. -/
theorem cancelled_of_step {move : Move} {run : RunId}
    (h : run ∈ (w.step shown now move).plane.cancelled) :
    run ∈ w.plane.cancelled ∨ move = .happens (.cancel run) := by
  cases move with
  | happens happening =>
    refine ((cancelled_happens _ _ _).mp h).imp id ?_
    rintro rfl
    rfl
  | resume other =>
    simp only [step] at h
    obtain ⟨why, heq⟩ | ⟨cp, heq⟩ := w.plane.resume_cases other
    · rw [heq] at h
      exact .inl h
    · rw [heq] at h
      exact .inl (List.mem_of_mem_filter h)
  | takeResumed | start | work | stop =>
    simp only [step] at h
    split at h <;> exact .inl h
  | iterate other calls =>
    simp only [step] at h
    split at h
    · rw [cancelled_iterate] at h
      exact .inl h
    · exact .inl h

/-- While cancellations are upheld, nobody's is forgotten. -/
theorem cancelled_step {move : Move} {run : RunId} (hup : Upheld w move)
    (h : run ∈ w.plane.cancelled) : run ∈ (w.step shown now move).plane.cancelled := by
  cases move with
  | happens happening => exact (cancelled_happens _ _ _).mpr (.inl h)
  | resume other =>
    simp only [step]
    by_cases hother : other ∈ w.plane.cancelled
    · rw [hup.resume hother]
      exact h
    obtain ⟨why, heq⟩ | ⟨cp, heq⟩ := w.plane.resume_cases other
    · rw [heq]
      exact h
    · rw [heq]
      exact List.mem_filter.mpr ⟨h, by simpa using fun heq : run = other => hother (heq ▸ h)⟩
  | takeResumed | start | work | stop =>
    simp only [step]
    split <;> exact h
  | iterate other calls =>
    simp only [step]
    split
    · rw [cancelled_iterate]
      exact h
    · exact h

theorem Final.of_quiet {os : List Occurrence} (h : ∀ run, .cancelAccepted run ∉ os) : Final os :=
  List.pairwise_of_forall_mem_list fun _ hfirst _ _ run heq => absurd (heq ▸ hfirst) (h run)

/-- What a step adds to the log. -/
structure News (shown : RunStatus → String) (now : Int) (w : World) (move : Move)
    (os : List Occurrence) : Prop where
  log : (w.step shown now move).log = w.log ++ os
  final : Final os
  follows : Upheld w move → ∀ run ∈ w.plane.cancelled, ∀ o ∈ os, MayFollow run o
  cancels : ∀ run, .cancelAccepted run ∈ os ↔ move = .happens (.cancel run)

theorem News.of_quiet {move : Move} {os : List Occurrence}
    (hlog : (w.step shown now move).log = w.log ++ os)
    (hmove : ∀ run, move ≠ .happens (.cancel run)) (hquiet : ∀ run, .cancelAccepted run ∉ os)
    (hfollows : Upheld w move → ∀ run ∈ w.plane.cancelled, ∀ o ∈ os, MayFollow run o) :
    News shown now w move os where
  log := hlog
  final := .of_quiet hquiet
  follows := hfollows
  cancels := fun run => iff_of_false (hquiet run) (hmove run)

/-- Nothing is said. -/
theorem News.silent {move : Move} (hlog : (w.step shown now move).log = w.log)
    (hmove : ∀ run, move ≠ .happens (.cancel run)) : News shown now w move [] :=
  .of_quiet (by rw [hlog, List.append_nil]) hmove (by simp) (by simp)

theorem news_happens (happening : Happening) :
    News shown now w (.happens happening) (heardOf shown now w.plane happening) := by
  cases happening with
  | steer other text =>
    refine .of_quiet rfl (by simp) (fun run => ?_) (fun _ run _ => ?_)
    · simp only [heardOf]
      split <;> simp
    · simp only [heardOf]
      split <;> simp [MayFollow]
  | cancel other =>
    exact
      { log := rfl
        final := List.pairwise_singleton _ _
        follows := by simp [heardOf, MayFollow]
        cancels := fun run => by simp [heardOf, eq_comm] }
  | recorded | accepted | finished => exact .silent (List.append_nil _) (by simp)

/-- Past the check for cancellation, an iteration asks, may push, and may call. -/
theorem iterate_running {run : RunId} (hrun : run ∉ w.plane.cancelled) (l : RunLoop)
    (calls : Bool) : ∃ (w' : World) (os : List Occurrence),
      w.iterate run l calls = w'.calling run calls ∧ w'.log = w.log ++ os ∧
        ∀ o ∈ os, o = .asked run ∨ ∃ message, o = .pushed run message := by
  rw [World.iterate, if_neg hrun]
  obtain ⟨-, htake⟩ | ⟨message, rest, -, htake⟩ := ControlPlane.takeSteer_cases w.plane run
  · rw [htake]
    exact ⟨_, [.asked run], rfl, rfl, by simp⟩
  · rw [htake]
    exact ⟨_, [.asked run, .pushed run message], rfl, rfl, by simp⟩

theorem news_iterate {run : RunId} {l : RunLoop} {calls : Bool}
    (hdriven : w.driven run = some l) : ∃ os, News shown now w (.iterate run calls) os := by
  have hstep : w.step shown now (.iterate run calls) = w.iterate run l calls := by
    simp only [step, hdriven]
  by_cases hcancelled : run ∈ w.plane.cancelled
  · -- the run stops where it is
    refine ⟨[.ended run .cancelled], .of_quiet ?_ (by simp) (by simp) (by simp [MayFollow])⟩
    rw [hstep, World.iterate, if_pos hcancelled]
  obtain ⟨w', os, hiterate, hlog, hos⟩ := iterate_running hcancelled l calls
  refine ⟨os ++ if calls then [.modelCalled run] else [], .of_quiet ?_ (by simp) ?_ ?_⟩
  · rw [hstep, hiterate, calling]
    cases calls <;> simp [hlog]
  · intro other hmem
    rcases List.mem_append.mp hmem with hmem | hmem
    · obtain heq | ⟨message, heq⟩ := hos _ hmem <;> cases heq
    · cases calls <;> simp at hmem
  · intro _ other hother o ho
    rcases List.mem_append.mp ho with ho | ho
    · obtain rfl | ⟨message, rfl⟩ := hos o ho <;> trivial
    · have hne : run ≠ other := fun heq => hcancelled (heq ▸ hother)
      cases calls with
      | true => simpa [List.mem_singleton.mp ho, MayFollow] using hne
      | false => cases ho

theorem news_resume (run : RunId) : ∃ os, News shown now w (.resume run) os := by
  obtain ⟨why, heq⟩ | ⟨cp, heq⟩ := w.plane.resume_cases run
  · refine ⟨[.resumeRefused run why], .of_quiet (by simp only [step, heq]) (by simp) (by simp) ?_⟩
    intro hup other hother o ho
    rw [List.mem_singleton.mp ho]
    rintro rfl
    rw [hup.resume hother] at heq
    simpa using heq.symm
  · refine ⟨[.staged run], .of_quiet (by simp only [step, heq]) (by simp) (by simp) ?_⟩
    intro hup other hother o ho
    rw [List.mem_singleton.mp ho]
    rintro rfl
    rw [hup.resume hother] at heq
    cases heq

theorem exists_news (shown : RunStatus → String) (now : Int) (w : World) (move : Move) :
    ∃ os, News shown now w move os := by
  cases move with
  | happens happening => exact ⟨_, news_happens happening⟩
  | resume run => exact news_resume run
  | iterate run calls =>
    cases hdriven : w.driven run with
    | none => exact ⟨[], .silent (by simp only [step, hdriven]) (by simp)⟩
    | some l => exact news_iterate hdriven
  | takeResumed => exact ⟨[], .silent (by simp only [step]; split <;> rfl) (by simp)⟩
  | start l => exact ⟨[], .silent (by simp only [step]; split <;> rfl) (by simp)⟩
  | work run left => exact ⟨[], .silent (by simp only [step]; split <;> rfl) (by simp)⟩
  | stop run status =>
    cases hdriven : w.driven run with
    | none => exact ⟨[], .silent (by simp only [step, hdriven]) (by simp)⟩
    | some l =>
      exact ⟨[.ended run status],
        .of_quiet (by simp only [step, hdriven]) (by simp) (by simp) (by simp [MayFollow])⟩

end Steps

/-! ### Whole runs -/

section Runs

variable (shown : RunStatus → String) (now : Int) (found : List Recorded)

theorem after_concat (moves : List Move) (move : Move) :
    after shown now found (moves ++ [move]) = (after shown now found moves).step shown now move := by
  rw [after, List.foldl_append]
  rfl

/-- Whoever the plane holds for cancelled was asked to stop. -/
theorem accepted_of_cancelled (moves : List Move) {run : RunId}
    (h : run ∈ (after shown now found moves).plane.cancelled) :
    .cancelAccepted run ∈ (after shown now found moves).log := by
  induction moves using List.reverseRecOn with
  | nil => cases h
  | append_singleton moves move ih =>
    rw [after_concat] at h ⊢
    obtain ⟨os, hnews⟩ := exists_news shown now (after shown now found moves) move
    rw [hnews.log, List.mem_append]
    exact (cancelled_of_step h).imp ih (hnews.cancels run).mpr

/-- Every step of a run upholds the cancellations before it. -/
def AllUpheld (moves : List Move) : Prop :=
  ∀ before move, before ++ [move] <+: moves → Upheld (after shown now found before) move

variable {shown now found}

theorem AllUpheld.concat {moves : List Move} {move : Move} :
    AllUpheld shown now found (moves ++ [move]) ↔
      AllUpheld shown now found moves ∧ Upheld (after shown now found moves) move := by
  constructor
  · intro h
    exact ⟨fun before next hinit => h before next (hinit.trans (List.prefix_append _ _)),
      h moves move (List.prefix_refl _)⟩
  · rintro ⟨hbefore, hup⟩ before next hinit
    rcases List.prefix_concat_iff.mp hinit with heq | hinit
    · obtain ⟨rfl, heq⟩ := List.append_inj' heq rfl
      obtain rfl : next = move := by simpa using heq
      exact hup
    · exact hbefore before next hinit

/-- Upheld, a cancellation is remembered, and nothing comes after it that may not. -/
theorem AllUpheld.final {moves : List Move} (h : AllUpheld shown now found moves) :
    (∀ run, .cancelAccepted run ∈ (after shown now found moves).log →
        run ∈ (after shown now found moves).plane.cancelled) ∧
      Final (after shown now found moves).log := by
  induction moves using List.reverseRecOn with
  | nil => exact ⟨fun _ h => absurd h List.not_mem_nil, .nil⟩
  | append_singleton moves move ih =>
    obtain ⟨hbefore, hup⟩ := AllUpheld.concat.mp h
    obtain ⟨hremembered, hfinal⟩ := ih hbefore
    obtain ⟨os, hnews⟩ := exists_news shown now (after shown now found moves) move
    rw [after_concat, hnews.log]
    refine ⟨fun run hrun => ?_, List.pairwise_append.mpr ⟨hfinal, hnews.final, ?_⟩⟩
    · rcases List.mem_append.mp hrun with hrun | hrun
      · exact cancelled_step hup (hremembered run hrun)
      · rw [(hnews.cancels run).mp hrun]
        exact (cancelled_happens _ _ _).mpr (.inr rfl)
    · intro first hfirst later hlater run heq
      exact hnews.follows hup run (hremembered run (heq ▸ hfirst)) later hlater

theorem log_grows (moves more : List Move) :
    (after shown now found moves).log <+: (after shown now found (moves ++ more)).log := by
  induction more using List.reverseRecOn with
  | nil => rw [List.append_nil]
  | append_singleton more move ih =>
    rw [← List.append_assoc, after_concat]
    obtain ⟨os, hnews⟩ :=
      exists_news shown now (after shown now found (moves ++ more)) move
    rw [hnews.log]
    exact ih.trans (List.prefix_append _ _)

/-- A resume that finds no cancelled checkpoint says what may not come after a cancellation. -/
theorem upheld_of_final {moves : List Move} {run : RunId}
    (h : Final (after shown now found (moves ++ [.resume run])).log) :
    Upheld (after shown now found moves) (.resume run) := by
  intro hcancelled
  have haccepted := accepted_of_cancelled shown now found moves hcancelled
  rw [after_concat] at h
  rw [← resume_terminated_iff]
  simp only [step] at h
  obtain ⟨why, heq⟩ | ⟨cp, heq⟩ := (after shown now found moves).plane.resume_cases run
  · rw [heq] at h ⊢
    have hmay := (List.pairwise_append.mp h).2.2 _ haccepted _ List.mem_cons_self run rfl
    rw [hmay rfl]
  · rw [heq] at h
    have hmay := (List.pairwise_append.mp h).2.2 _ haccepted _ List.mem_cons_self run rfl
    exact absurd rfl hmay

theorem allUpheld_of_final {moves : List Move}
    (h : Final (after shown now found moves).log) : AllUpheld shown now found moves := by
  rintro before move ⟨rest, rfl⟩
  cases move with
  | resume run => exact upheld_of_final (h.sublist (log_grows (before ++ [.resume run]) rest).sublist)
  | _ => trivial

end Runs

/-- Cancels and resumes stay with the run they name, in any world. -/
theorem apart (shown : RunStatus → String) (now : Int) (w : World) : Apart shown now w where
  cancel run :=
    { left := rfl
      right := fun other hother =>
        { cancelled := (cancelled_happens _ _ _).trans (or_iff_left (by simpa using hother.symm))
          queued := rfl } }
  resume run other hother := by
    simp only [step]
    obtain ⟨why, heq⟩ | ⟨cp, heq⟩ := w.plane.resume_cases run
    · rw [heq]
      exact ⟨Iff.rfl, rfl⟩
    · rw [heq]
      exact ⟨by simp [hother], rfl⟩
  refused run why hrefused := by
    simp only [step]
    obtain ⟨why, heq⟩ | ⟨cp, heq⟩ := w.plane.resume_cases run
    · rw [heq]
      exact ⟨rfl, rfl⟩
    · rw [heq] at hrefused
      cases hrefused

/-- **A cancellation is final** exactly when every resume of a cancelled run finds the run's
last checkpoint cancelled; it names one run whatever happens. -/
theorem final_iff (shown : RunStatus → String) (now : Int) (found : List Recorded)
    (moves : List Move) :
    (Final (after shown now found moves).log ∧
        ∀ before, before <+: moves → Apart shown now (after shown now found before)) ↔
      AllUpheld shown now found moves :=
  ⟨fun h => allUpheld_of_final h.1, fun h => ⟨h.final.2, fun _ _ => apart _ _ _⟩⟩

/-! ### A paused run, cancelled and resumed -/

def pausedCheckpoint : Checkpoint :=
  .capture { (interactiveLoop 1).run with status := .paused (.budgetExhausted "tokens") } (.new 1 "M") 1 0

def pausedThenCancelled : List Move :=
  [.start (interactiveLoop 1), .iterate 1 true,
    .happens (.recorded (.ok 1) ⟨0⟩ .checkpointed 1 (.checkpoint pausedCheckpoint)),
    .stop 1 pausedCheckpoint.status, .happens (.cancel 1), .resume 1, .takeResumed, .iterate 1 true]

/-- The checkpoint says paused, so the resume is accepted and the model is called again. -/
theorem cancelled_run_resumed : ¬ ∀ (shown : RunStatus → String) (now : Int)
    (found : List Recorded) (moves : List Move), Final (after shown now found moves).log := by
  intro hall
  have hlog : (after (fun _ => "") 0 [] pausedThenCancelled).log =
      [.asked 1, .modelCalled 1, .ended 1 pausedCheckpoint.status] ++
        [.cancelAccepted 1, .staged 1, .asked 1, .modelCalled 1] := rfl
  have hfinal := hall (fun _ => "") 0 [] pausedThenCancelled
  rw [hlog] at hfinal
  have hlater := (List.pairwise_append.mp hfinal).2.1
  exact List.rel_of_pairwise_cons hlater (.tail _ (.tail _ (.head _))) 1 rfl rfl

end MarloweAgent.Daemon.World
