import MarloweAgent.Loop.Offering

/-! What stands through a drive. The front of the session, which the prompt cache keys on, is
the same at every model call of the run; and a run that reads untrusted content takes no
action at any point of it. -/

namespace MarloweAgent.Loop
open Contract Library Tools Permission

variable {σ : Type} {sys : Outside σ}

/-! ## The front of the session -/

/-- The tiers in front of the volatile one are the same. -/
structure SessionState.SameFront (s s' : SessionState) : Prop where
  identity : s'.identity = s.identity
  governance : s'.governance = s.governance
  contextBlocks : s'.contextBlocks = s.contextBlocks

namespace SessionState.SameFront

variable {s s' s'' : SessionState}

theorem refl (s : SessionState) : s.SameFront s := ⟨rfl, rfl, rfl⟩

theorem trans (h : s.SameFront s') (h' : s'.SameFront s'') : s.SameFront s'' :=
  ⟨h'.identity.trans h.identity, h'.governance.trans h.governance,
    h'.contextBlocks.trans h.contextBlocks⟩

theorem push (s : SessionState) {b : Block} (h : b.source.tier = .volatile) :
    s.SameFront (s.push b) := by
  unfold SessionState.push
  rw [h]
  exact ⟨rfl, rfl, rfl⟩

/-- A view begins the same, whatever the assembler. -/
theorem assemble (h : s.SameFront s') (assembler : Assembler) :
    (assembler.assemble s').stable = (assembler.assemble s).stable ∧
      (assembler.assemble s').context = (assembler.assemble s).context := by
  constructor
  · change s'.stableBlocks = s.stableBlocks
    unfold SessionState.stableBlocks
    rw [h.identity, h.governance]
  · change assembler.trimToBudget s'.contextBlocks = assembler.trimToBudget s.contextBlocks
    rw [h.contextBlocks]

end SessionState.SameFront

/-- A model call of the run is made with this front. -/
def Effect.CalledWith (run : RunId) (state : SessionState) : Effect → Prop
  | .modelCalled r s _ _ _ => r.id = run → state.SameFront s
  | _ => True

theorem Effect.PlainOf.calledWith {run run' : RunId} {state : SessionState} {e : Effect}
    (h : e.PlainOf run') : e.CalledWith run state := by
  cases e <;> first | trivial | cases h.plain

/-- The front stays, and the run's calls are made with it. -/
structure Fronted (m m' : Machine σ) : Prop where
  id : m'.run.id = m.run.id
  state : m.state.SameFront m'.state
  trace : ∃ es, m'.trace = m.trace ++ es ∧ ∀ e ∈ es, e.CalledWith m.run.id m.state

namespace Fronted

theorem refl (m : Machine σ) : Fronted m m := ⟨rfl, .refl _, [], (List.append_nil _).symm, by simp⟩

theorem trans {m m' m'' : Machine σ} (h : Fronted m m') (h' : Fronted m' m'') : Fronted m m'' := by
  obtain ⟨es, htrace, hes⟩ := h.trace
  obtain ⟨es', htrace', hes'⟩ := h'.trace
  refine ⟨h'.id.trans h.id, h.state.trans h'.state, es ++ es', ?_,
    List.forall_mem_append.mpr ⟨hes, fun e he => ?_⟩⟩
  · rw [htrace', htrace, List.append_assoc]
  · have hcalled := hes' e he
    cases e with
    | modelCalled r s view tools limits =>
      intro hr
      exact h.state.trans (hcalled (hr.trans h.id.symm))
    | _ => trivial

/-- A step that leaves the session as it is, and calls no model. -/
theorem of_others {m m' : Machine σ} {l : List Effect} (id : m'.run.id = m.run.id)
    (state : m'.state = m.state) (trace : m'.trace = m.trace ++ l)
    (h : ∀ e ∈ l, e.CalledWith m.run.id m.state) : Fronted m m' :=
  ⟨id, state ▸ .refl _, l, trace, h⟩

end Fronted

theorem Act.fronted {m m' : Machine σ} (h : Act sys m m') : Fronted m m' := by
  have hid := h.kept.id
  cases h with
  | tell es h => exact .of_others hid h.state h.trace fun e he => (h.plain e he).calledWith
  | push b hb => exact ⟨hid, .push m.state hb, [], (List.append_nil _).symm, by simp⟩
  | clear keep => exact ⟨hid, ⟨rfl, rfl, rfl⟩, [], (List.append_nil _).symm, by simp⟩
  | latch | enlist => exact .of_others hid rfl (List.append_nil _).symm (by simp)
  | call view tools limits h offered =>
    refine .of_others (l := [_]) hid rfl rfl (List.forall_mem_singleton.mpr ?_)
    exact fun _ => .refl _
  | «begin» | violation | took | used | adjudicated | groupStart | checkpoint | asked =>
    exact .of_others (l := [_]) hid rfl rfl (by simp [Effect.CalledWith])
  | compaction child summary p q first second fn sn h hf hs seen offered answer locals children cps
      state trace =>
    refine ⟨hid, ?_, _, trace, ?_⟩
    · rw [state]
      exact ⟨rfl, rfl, rfl⟩
    · exact forall_compactionEffects hf hs (fun e he => he.calledWith) (fun _ _ _ => trivial) trivial
  | answer usage =>
    exact .of_others (l := [_, _]) hid rfl (List.append_assoc _ _ _) (by simp [Effect.CalledWith])
  | host items wallMs h =>
    cases items with
    | nil => exact .of_others (l := [_]) hid rfl rfl (by simp [Effect.CalledWith])
    | cons item rest =>
      exact .of_others (l := [_, _]) hid rfl (List.append_assoc _ _ _) (by simp [Effect.CalledWith])

/-- An effect of a later run is no call of this one. -/
theorem Effect.calledWith_of_lt {run : RunId} {state : SessionState} {e : Effect}
    (h : run < e.actor) : e.CalledWith run state := by
  cases e with
  | modelCalled r s view tools limits => exact fun hr => absurd hr (Nat.ne_of_gt h)
  | _ => trivial

/-- **The front of the session stays through an execution**; the runs it nests have sessions
of their own. -/
theorem Runs.fronted {m m' : Machine σ} (h : Runs sys m m') : Fronted m m' := by
  induction h with
  | refl => exact .refl _
  | step _ hs ih => exact ih.trans hs.fronted
  | @call s t c d u before into body back ih ihbody =>
    refine ih.trans ?_
    obtain ⟨child, state, hborn, rfl⟩ := into
    obtain ⟨fin, outcome, hfin, rfl⟩ := back
    obtain ⟨es, htrace, hes⟩ := (Runs.later body).trace
    obtain ⟨es', htrace', hes'⟩ := hfin.trace
    have hlater : ∀ e ∈ es ++ es', t.run.id < e.actor := by
      refine List.forall_mem_append.mpr ⟨fun e he => ?_, fun e he => ?_⟩
      · exact Nat.lt_of_lt_of_le hborn.later (hes e he)
      · rw [(hes' e he).actor, (Runs.later body).id]
        exact hborn.later
    let spawned : Effect := .spawned t.frame.ancestors t.run child
    let charged : Run := { t.run with spent := t.run.spent.add fin.run.spent }
    refine .of_others (l := spawned :: (es ++ es') ++ [.returned t.run fin.run outcome, .charged charged,
      .charged { charged with spent := charged.spent.add { subagents := 1 } }]) rfl rfl ?_ ?_
    · have hcharged : (fin.backIn t outcome).trace =
          ((fin.trace ++ [.returned t.run fin.run outcome]) ++ [.charged charged]) ++
            [.charged { charged with spent := charged.spent.add { subagents := 1 } }] := rfl
      rw [hcharged, htrace', htrace]
      simp [Machine.entered, spawned]
    · refine List.forall_mem_append.mpr ⟨List.forall_mem_cons.mpr ⟨trivial, fun e he => ?_⟩, ?_⟩
      · exact Effect.calledWith_of_lt (hlater e he)
      · simp [Effect.CalledWith]

/-- **The prompt's front never moves.** At every model call a drive makes for its run, and at
its end, the session has the identity, the governance and the context blocks it began with, so
that every view begins with the same stable and context tiers, whatever the assembler:
no steer, tool result, masking, compaction or nested run in between reaches them. -/
theorem front_stands (sys : Outside σ) (ports : Ports σ) (engine : Engine) (run : Run)
    (state : SessionState) (provenance : Provenance) (env : σ) (fresh steps retries : Nat) :
    let ended := ((runDriveInner sys ports steps retries).run
      (.start engine run state provenance env fresh steps retries)).2
    ∀ s, (s = ended.state ∨ ∃ r view tools limits,
        .modelCalled r s view tools limits ∈ ended.trace ∧ r.id = run.id) →
      state.SameFront s ∧ ∀ assembler : Assembler,
        (assembler.assemble s).stable = (assembler.assemble state).stable ∧
          (assembler.assemble s).context = (assembler.assemble state).context := by
  intro ended s hs
  let started := Machine.start engine run state provenance env fresh steps retries
  have hruns : Runs sys started ended := runDriveInner_runs ports started
  have hfronted := hruns.fronted
  obtain ⟨es, htrace, hes⟩ := hfronted.trace
  have hfront : state.SameFront s := by
    rcases hs with rfl | ⟨r, view, tools, limits, hmem, hr⟩
    · exact hfronted.state
    · rw [htrace] at hmem
      exact hes _ hmem hr
  exact ⟨hfront, hfront.assemble⟩

/-! ## Runs that read untrusted content -/

/-- A run that reads untrusted content. The conversation's own run is none. -/
structure Run.Quarantined (r : Run) : Prop where
  reads : r.profile.readsUntrusted = true
  level : r.profile.level ≠ .secretary

theorem Run.Quarantined.no_tool {r : Run} (h : r.Quarantined) (tool : ToolId) :
    r.profile.exposedTools.contains tool = false := by
  have htools := (r.profile.quarantined h.reads).1
  unfold ExposedSet.contains
  rw [htools]
  rfl

theorem Run.Quarantined.nesting {r : Run} (h : r.Quarantined) : nesting r = 0 := by
  have htools := (r.profile.quarantined h.reads).1
  refine if_pos ?_
  unfold ExposedSet.isEmpty
  rw [htools]
  rfl

/-- Nothing it answers lets a tool take effect. -/
theorem Run.Quarantined.permits {answer : Answer} (h : answer.run.Quarantined) (tool : ToolId) :
    ¬ answer.Permits tool := by
  obtain ⟨run, offered, step⟩ := answer
  change run.Quarantined at h
  have hmemory := (run.profile.quarantined h.reads).2.1
  intro hpermits
  cases step with
  | say text => exact hpermits
  | toolCall calls =>
    have hheld : run.profile.exposedTools.contains tool = true := hpermits.2
    rw [h.no_tool tool] at hheld
    cases hheld
  | memoryWrite claim =>
    have hwrites : run.profile.mayWriteMemory = true := hpermits.2
    rw [hmemory] at hwrites
    cases hwrites
  | spawn req =>
    obtain ⟨-, ⟨budget, profile⟩, hadmit⟩ := hpermits
    have hcreates : run.profile.exposedTools.contains ⟨"run"⟩ = true := (admitSpawn_ok hadmit).1
    rw [h.no_tool] at hcreates
    cases hcreates
  | ask question => exact h.level hpermits.2
  | escalate request =>
    have hreads : run.profile.readsUntrusted = true := h.reads
    refine hpermits.2 .readsUntrusted ?_
    simp [escalationRoute, hreads]

/-- It is no action of a run that reads untrusted content: no call handed to the host, no
nested run, no tool of any kind that took effect. -/
def Effect.Unquarantined : Effect → Prop
  | .hostCalled r _ => ¬ r.Quarantined
  | .spawned _ parent _ => ¬ parent.Quarantined
  | .used run answer tools => ∀ a, answer = some a → a.run.id = run ∧ (tools ≠ [] → ¬ a.run.Quarantined)
  | _ => True

theorem Effect.PlainOf.unquarantined {run : RunId} {e : Effect} (h : e.PlainOf run) :
    e.Unquarantined := by
  cases e <;> first | trivial | cases h.plain

/-- Every action so far is of a run that reads nothing untrusted, and the answer acted on is
of the run in the frame. -/
structure Inert (m : Machine σ) : Prop where
  answer : ∀ a, m.frame.answer = some a → a.run.id = m.run.id
  trace : ∀ e ∈ m.trace, e.Unquarantined

theorem Act.inert {m m' : Machine σ} (h : Act sys m m') (hm : Inert m) : Inert m' := by
  have hid := h.kept.id
  cases h with
  | tell es h =>
    refine ⟨?_, ?_⟩
    · rw [hid, h.answer]
      exact hm.answer
    · rw [h.trace]
      exact List.forall_mem_append.mpr ⟨hm.trace, fun e he => (h.plain e he).unquarantined⟩
  | push | clear | enlist => exact ⟨hm.answer, hm.trace⟩
  | latch observed => exact ⟨fun a ha => (hm.answer a ha).trans hid.symm, hm.trace⟩
  | «begin» | violation | call | adjudicated | groupStart | checkpoint | asked =>
    exact ⟨fun a ha => (hm.answer a ha).trans hid.symm,
      List.forall_mem_append.mpr ⟨hm.trace, by simp [Effect.Unquarantined]⟩⟩
  | took step =>
    refine ⟨fun a ha => ?_, List.forall_mem_append.mpr ⟨hm.trace, by simp [Effect.Unquarantined]⟩⟩
    cases ha
    rfl
  | used tools h =>
    obtain ⟨acted, hacted, hpermits⟩ := h
    refine ⟨hm.answer, List.forall_mem_append.mpr ⟨hm.trace, ?_⟩⟩
    rw [List.forall_mem_singleton]
    intro a ha
    refine ⟨hm.answer a ha, fun htools hquarantined => ?_⟩
    obtain ⟨tool, htool⟩ := List.exists_mem_of_ne_nil tools htools
    cases hacted.symm.trans ha
    exact hquarantined.permits tool (hpermits tool htool)
  | compaction child summary p q first second fn sn h hf hs seen offered answer locals children cps
      state trace =>
    refine ⟨?_, ?_⟩
    · rw [hid, answer]
      exact hm.answer
    · rw [trace]
      exact List.forall_mem_append.mpr ⟨hm.trace,
        forall_compactionEffects hf hs (fun e he => he.unquarantined) (fun _ _ _ => trivial) trivial⟩
  | answer usage =>
    refine ⟨hm.answer, List.forall_mem_append.mpr ⟨List.forall_mem_append.mpr ⟨hm.trace, ?_⟩, ?_⟩⟩ <;>
      simp [Effect.Unquarantined]
  | host items wallMs h =>
    cases items with
    | nil => exact ⟨hm.answer, List.forall_mem_append.mpr ⟨hm.trace, by simp [Effect.Unquarantined]⟩⟩
    | cons item rest =>
      have hheld : ¬ m.run.Quarantined := by
        intro hquarantined
        have hexposed := h.exposed item List.mem_cons_self
        rw [hquarantined.no_tool] at hexposed
        cases hexposed
      refine ⟨hm.answer, List.forall_mem_append.mpr ⟨List.forall_mem_append.mpr ⟨hm.trace, ?_⟩, ?_⟩⟩
      · simpa [Effect.Unquarantined] using hheld
      · simp [Effect.Unquarantined]

theorem Runs.inert {m m' : Machine σ} (h : Runs sys m m') (hm : Inert m) : Inert m' := by
  refine Calls.keeps (fun _ _ => Act.inert) ?_ ?_ h hm
  · rintro m c ⟨child, state, hborn, rfl⟩ hm
    have hparent : ¬ m.run.Quarantined := by
      intro hquarantined
      have hsome := Nat.zero_lt_of_lt hborn.nests
      rw [hquarantined.nesting] at hsome
      exact absurd hsome (Nat.lt_irrefl 0)
    refine ⟨?_, List.forall_mem_append.mpr ⟨hm.trace, ?_⟩⟩
    · intro a ha
      cases ha
    · simpa [Effect.Unquarantined] using hparent
  · rintro m c d m' ⟨child, state, hborn, rfl⟩ hbody ⟨fin, outcome, hfin, rfl⟩ hm hd
    obtain ⟨es, htrace, hes⟩ := hfin.trace
    have hended : ∀ e ∈ fin.trace, e.Unquarantined := by
      rw [htrace]
      exact List.forall_mem_append.mpr ⟨hd.trace, fun e he => (hes e he).unquarantined⟩
    refine ⟨hm.answer, ?_⟩
    change ∀ e ∈ ((fin.trace ++ [_]) ++ [_]) ++ [_], e.Unquarantined
    simp only [List.forall_mem_append, List.forall_mem_singleton]
    exact ⟨⟨⟨hended, trivial⟩, trivial⟩, trivial⟩

/-- A run told to fetch a page; what the page says makes its reader call a tool. -/
def Script.tempted : Machine Script :=
  start 100000 looks ample
    { answers := [call [⟨"a", look, .empty⟩], call [⟨"b", look, .empty⟩],
        say "about:\na page\nsource_1:\npage", say "done"]
      outcomes := [[result .untrustedContent "page"]] }

/-- A call of a run that reads untrusted content is judged. -/
def Effect.tempts : Effect → Bool
  | .adjudicated run _ _ _ => run.profile.readsUntrusted && decide (run.profile.level ≠ .secretary)
  | _ => false

def Effect.reachesHost : Effect → Bool
  | .hostCalled _ _ => true
  | _ => false

end MarloweAgent.Loop
