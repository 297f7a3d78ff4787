import MarloweAgent.Loop.Execution
import MarloweAgent.Loop.Script

/-! The trace of a drive as the nested runs leave it. Only the innermost run acts, a run
that was entered is left again before its caller goes on, and the caller's count has all of
what was spent in it. -/

namespace MarloweAgent.Loop
open Contract Library Tools Permission

variable {σ : Type} {sys : Outside σ}

/-! ## Brackets -/

/-- Whose doing an effect is, and the nested run it enters or leaves. -/
def Effect.bracket : Effect → Bracket RunId
  | .spawned _ parent child => .opens parent.id child.id
  | .returned parent child _ => .closes parent.id child.id
  | e => .own e.actor

/-- The runs entered, and the runs left. -/
def entered (trace : List Effect) : List RunId := trace.flatMap fun e => e.bracket.opened
def left (trace : List Effect) : List RunId := trace.flatMap fun e => e.bracket.closed

theorem Effect.PlainOf.bracket {run : RunId} {e : Effect} (h : e.PlainOf run) :
    e.bracket = .own run := by
  have hactor := h.actor
  cases e with
  | spawned | returned => cases h.plain
  | _ => exact congrArg Bracket.own hactor

/-- What is added to the trace opens and closes nested runs only. -/
structure Bracketed (m m' : Machine σ) : Prop where
  id : m'.run.id = m.run.id
  trace : ∃ es, m'.trace = m.trace ++ es ∧
    ∀ rest, Bracket.openAfter Effect.bracket (m.run.id :: rest) es = some (m.run.id :: rest)

namespace Bracketed

theorem refl (m : Machine σ) : Bracketed m m :=
  ⟨rfl, [], (List.append_nil _).symm, fun _ => rfl⟩

theorem trans {m m' m'' : Machine σ} (h : Bracketed m m') (h' : Bracketed m' m'') :
    Bracketed m m'' := by
  obtain ⟨es, htrace, hes⟩ := h.trace
  obtain ⟨es', htrace', hes'⟩ := h'.trace
  refine ⟨h'.id.trans h.id, es ++ es', ?_, fun rest => ?_⟩
  · rw [htrace', htrace, List.append_assoc]
  · rw [h.id] at hes'
    exact Bracket.openAfter_append (hes rest) (hes' rest)

/-- Effects of the run itself. -/
theorem of_own {m m' : Machine σ} {l : List Effect} (id : m'.run.id = m.run.id)
    (trace : m'.trace = m.trace ++ l) (h : ∀ e ∈ l, e.bracket = .own m.run.id) :
    Bracketed m m' :=
  ⟨id, l, trace, fun _ => Bracket.openAfter_own h⟩

theorem note (m : Machine σ) (e : Effect) (h : e.bracket = .own m.run.id) :
    Bracketed m (m.note e) :=
  of_own rfl rfl (by simpa using h)

theorem charged (m : Machine σ) (amount : Budget) : Bracketed m (m.charged amount) :=
  of_own (l := [_]) rfl rfl (by simp [Effect.bracket, Effect.actor])

end Bracketed

theorem Act.bracketed {m m' : Machine σ} (h : Act sys m m') : Bracketed m m' := by
  have hid := h.kept.id
  cases h with
  | tell es h => exact .of_own hid h.trace fun e he => (h.plain e he).bracket
  | push | clear | latch | enlist => exact .of_own hid (List.append_nil _).symm (by simp)
  | «begin» | violation | call | took | used | adjudicated | groupStart | checkpoint | asked =>
    exact .of_own (l := [_]) hid rfl (by simp [Effect.bracket, Effect.actor])
  | answer usage => exact (Bracketed.note m _ rfl).trans (.charged _ _)
  | compaction child summary p q first second fn sn h hf hs seen offered answer locals children cps
      state trace =>
    exact .of_own hid trace
      (forall_compactionEffects hf hs (fun e he => he.bracket) (fun _ _ _ => rfl) rfl)
  | host items wallMs h =>
    refine Bracketed.trans ?_ (.charged _ _)
    split
    · exact .refl m
    · exact .note m _ rfl

/-- A nested run is entered and left, and has closed by then what it opened. -/
theorem Bracketed.call {m d fin : Machine σ} {child : Run} {state : SessionState}
    (hbody : Bracketed (m.entered child state) d) (hfin : Finished d fin) (outcome : LoopOutcome) :
    Bracketed m (fin.backIn m outcome) := by
  obtain ⟨es, htrace, hes⟩ := hbody.trace
  obtain ⟨es', htrace', hes'⟩ := hfin.trace
  have hchild : d.run.id = child.id := hbody.id
  have hfinal : fin.run.id = child.id := by
    obtain ⟨_, _, _, hrun⟩ := hfin.run
    rw [hrun, ← hchild]
  have hown : ∀ e ∈ es', e.bracket = .own child.id := by
    intro e he
    rw [(hes' e he).bracket, hchild]
  have hcalled : Bracketed m
      (({ fin with frame := m.frame } : Machine σ).note (.returned m.run fin.run outcome)) := by
    refine ⟨rfl, .spawned m.frame.ancestors m.run child :: (es ++ es') ++
      [.returned m.run fin.run outcome], ?_, fun rest => ?_⟩
    · change fin.trace ++ [_] = _
      rw [htrace', htrace]
      simp [Machine.entered]
    · exact Bracket.openAfter_call rfl (congrArg (Bracket.closes m.run.id) hfinal)
        (Bracket.openAfter_append (hes (m.run.id :: rest)) (Bracket.openAfter_own hown))
  exact (hcalled.trans (.charged _ _)).trans (.charged _ _)

/-- **Executions are bracketed**, the runs they nest included. -/
theorem Runs.bracketed {m m' : Machine σ} (h : Runs sys m m') : Bracketed m m' := by
  refine Calls.relates Bracketed.refl (fun _ _ _ => Bracketed.trans) (fun _ _ => Act.bracketed) ?_ h
  rintro m c d m' ⟨child, state, -, rfl⟩ hbody ⟨fin, outcome, hfin, rfl⟩
  exact hbody.call hfin outcome

/-- **Runs do not interleave.** Whatever the ports do, the trace of a drive is bracketed: at
every place the effect is one of the run entered last and not yet left, a nested run is left
for the run that entered it, and at the end each run that was entered has been left, as often
as it was entered. -/
theorem drive_bracketed (sys : Outside σ) (ports : Ports σ) (engine : Engine) (run : Run)
    (state : SessionState) (provenance : Provenance) (env : σ) (fresh steps retries : Nat) :
    let ended := ((runDriveInner sys ports steps retries).run
      (.start engine run state provenance env fresh steps retries)).2
    Bracket.openAfter Effect.bracket [run.id] ended.trace = some [run.id] ∧
      (entered ended.trace).Perm (left ended.trace) := by
  intro ended
  let started := Machine.start engine run state provenance env fresh steps retries
  have hruns : Runs sys started ended := runDriveInner_runs ports started
  obtain ⟨es, htrace, hes⟩ := hruns.bracketed.trace
  have hall : Bracket.openAfter Effect.bracket [run.id] ended.trace = some [run.id] := by
    rw [htrace]
    exact hes []
  exact ⟨hall, (List.perm_append_left_iff [run.id]).mp (Bracket.openAfter_perm hall)⟩

end MarloweAgent.Loop
