import MarloweAgent.Library.KeyedLog
import MarloweAgent.Library.Trace
import MarloweAgent.Loop.Execution
import MarloweAgent.Loop.Script

/-! The tools a model call is offered, and the tools that take effect in answer to
it. The loop checks a tool against what the run holds and never against what the
call was offered, so the two agree while the model keeps to the list it was sent. -/

namespace MarloweAgent.Loop
open Contract Library Tools Permission

variable {σ : Type} {sys : Outside σ}

/-- The answer keeps to its offer: no tool outside it would be let through. -/
def Answer.Obeys (answer : Answer) : Prop :=
  ∀ tool, answer.Permits tool → answer.offered.contains tool = true

namespace Answer

theorem obeys_say {run : Run} {offered : ExposedSet} {text : String} :
    Answer.Obeys ⟨run, offered, .say text⟩ := by
  intro tool h
  cases h

end Answer

/-! ## Offers on the trace -/

/-- A model call, a step taken, tools taking effect, or a run's beginning. -/
def Effect.isOffer : Effect → Bool
  | .modelCalled _ _ _ _ _ | .took _ | .used _ _ _ | .spawned _ _ _ => true
  | _ => false

theorem Effect.PlainOf.isOffer {run : RunId} {e : Effect} (h : e.PlainOf run) :
    e.isOffer = false := by
  cases e <;> first | rfl | cases h.plain

/-- The run a model call is for, and the tools it is offered. A run begins with no offer. -/
def Effect.offer : Effect → Option (RunId × ExposedSet)
  | .modelCalled run _ _ tools _ => some (run.id, tools)
  | .spawned _ _ child => some (child.id, .empty)
  | _ => none

/-- The tools offered to the last model call of a run; none before the first. -/
def lastOffer (run : RunId) (trace : List Effect) : ExposedSet :=
  ((KeyedLog.lastOf Prod.fst run (trace.filterMap Effect.offer)).map Prod.snd).getD .empty

section LastOffer

variable {id : RunId} {trace es : List Effect}

theorem lastOffer_append (h : ∀ e ∈ es, e.offer = none) :
    lastOffer id (trace ++ es) = lastOffer id trace := by
  have hnone : es.filterMap Effect.offer = [] := List.filterMap_eq_nil_iff.mpr h
  unfold lastOffer
  rw [List.filterMap_append, hnone, List.append_nil]

theorem lastOffer_of_not_isOffer (h : ∀ e ∈ es, e.isOffer = false) :
    lastOffer id (trace ++ es) = lastOffer id trace := by
  refine lastOffer_append fun e he => ?_
  cases e with
  | modelCalled | spawned => cases h _ he
  | _ => rfl

@[simp] theorem lastOffer_call (run : Run) (state : SessionState) (view : ContextView)
    (tools : ExposedSet) (limits : CallLimits) :
    lastOffer run.id (trace ++ [.modelCalled run state view tools limits]) = tools := by
  simp [lastOffer, Effect.offer]

theorem lastOffer_call_ne (run : Run) (state : SessionState) (view : ContextView)
    (tools : ExposedSet) (limits : CallLimits) (h : run.id ≠ id) :
    lastOffer id (trace ++ [.modelCalled run state view tools limits]) = lastOffer id trace := by
  simp [lastOffer, Effect.offer, h]

@[simp] theorem lastOffer_spawned (ancestors : List Run) (parent child : Run) :
    lastOffer child.id (trace ++ [.spawned ancestors parent child]) = .empty := by
  simp [lastOffer, Effect.offer]

theorem lastOffer_spawned_ne (ancestors : List Run) (parent child : Run) (h : child.id ≠ id) :
    lastOffer id (trace ++ [.spawned ancestors parent child]) = lastOffer id trace := by
  simp [lastOffer, Effect.offer, h]

end LastOffer

/-- What one step does about offers: nothing, or it calls the model with all the run's
tools or none, takes a step as answered to the last call, or has tools take effect
that the step being acted on permits. -/
inductive Offers (m m' : Machine σ) : Prop
  | other (es : List Effect) (trace : m'.trace = m.trace ++ es)
      (others : ∀ e ∈ es, e.isOffer = false) (offered : m'.frame.offered = m.frame.offered)
      (answer : m'.frame.answer = m.frame.answer)
  | called (state : SessionState) (view : ContextView) (tools : ExposedSet) (limits : CallLimits)
      (trace : m'.trace = m.trace ++ [.modelCalled m.run state view tools limits])
      (offered : m'.frame.offered = tools) (answer : m'.frame.answer = m.frame.answer)
      (all : tools = .empty ∨ tools = m.run.profile.exposedTools)
  | took (answer : Answer) (run : answer.run = m.run) (offers : answer.offered = m.frame.offered)
      (trace : m'.trace = m.trace ++ [.took answer])
      (offered : m'.frame.offered = m.frame.offered) (taken : m'.frame.answer = some answer)
  | used (answer : Answer) (tools : List ToolId) (acting : m.frame.answer = some answer)
      (permits : ∀ tool ∈ tools, answer.Permits tool)
      (trace : m'.trace = m.trace ++ [.used m.run.id (some answer) tools])
      (offered : m'.frame.offered = m.frame.offered) (kept : m'.frame.answer = m.frame.answer)

theorem Act.offers {m m' : Machine σ} (h : Act sys m m') : Offers m m' := by
  cases h with
  | tell es h => exact .other es h.trace (fun e he => (h.plain e he).isOffer) h.offered h.answer
  | push | clear | latch | enlist => exact .other [] (List.append_nil _).symm (by simp) rfl rfl
  | «begin» | violation | adjudicated | groupStart | checkpoint | asked =>
    exact .other [_] rfl (by simp [Effect.isOffer]) rfl rfl
  | answer usage =>
    refine .other [.modelAnswered m.run usage,
      .charged { m.run with spent := m.run.spent.add usage.asBudget }] ?_ ?_ rfl rfl
    · exact List.append_assoc _ _ _
    · simp [Effect.isOffer]
  | call view tools limits h hall => exact .called m.state view tools limits rfl rfl rfl hall
  | took step => exact .took ⟨m.run, m.frame.offered, step⟩ rfl rfl rfl rfl rfl
  | used tools h =>
    obtain ⟨answer, hacting, hpermits⟩ := h
    refine .used answer tools hacting hpermits ?_ rfl rfl
    rw [← hacting]
    rfl
  | compaction child summary p q first second fn sn h hf hs seen offered answer locals children cps
      state trace =>
    refine .other _ trace ?_ offered answer
    exact forall_compactionEffects hf hs (fun e he => he.isOffer) (fun _ _ _ => rfl) rfl
  | host items wallMs h =>
    let run := { m.run with
      spent := m.run.spent.add { toolCalls := items.length % 2 ^ 32, wallMs } }
    cases items with
    | nil => exact .other [.charged run] rfl (by simp [Effect.isOffer]) rfl rfl
    | cons item rest =>
      refine .other [.hostCalled m.run (item :: rest), .charged run] ?_ ?_ rfl rfl
      · exact List.append_assoc _ _ _
      · simp [Effect.isOffer]

/-- A run offers tools to no model but its own. -/
theorem Offers.elsewhere {m m' : Machine σ} (h : Offers m m') {id : RunId} (hid : id ≠ m.run.id) :
    lastOffer id m'.trace = lastOffer id m.trace := by
  cases h with
  | other es trace others => rw [trace, lastOffer_of_not_isOffer others]
  | called state view tools limits trace =>
    rw [trace, lastOffer_call_ne m.run state view tools limits (Ne.symm hid)]
  | took answer run offers trace => rw [trace, lastOffer_append (by simp [Effect.offer])]
  | used answer tools acting permits trace =>
    rw [trace, lastOffer_append (by simp [Effect.offer])]

/-- An effect of coming back from a nested run, none of them an offer. -/
theorem Finished.lastOffer_back {done fin : Machine σ} (h : Finished done fin) (caller : Machine σ)
    (outcome : LoopOutcome) (id : RunId) :
    lastOffer id (fin.backIn caller outcome).trace = lastOffer id done.trace := by
  obtain ⟨es, htrace, hes⟩ := h.trace
  change lastOffer id (((fin.trace ++ [_]) ++ [_]) ++ [_]) = _
  rw [lastOffer_append (by simp [Effect.offer]), lastOffer_append (by simp [Effect.offer]),
    lastOffer_append (by simp [Effect.offer]), htrace,
    lastOffer_of_not_isOffer fun e he => (hes e he).isOffer]

/-- **An execution leaves the offers of earlier runs alone**: those it nests are later. -/
theorem Runs.lastOffer_earlier {m m' : Machine σ} (h : Runs sys m m') :
    m'.run.id = m.run.id ∧ ∀ id < m.run.id, lastOffer id m'.trace = lastOffer id m.trace := by
  refine Calls.relates (R := fun m m' => m'.run.id = m.run.id ∧
    ∀ id < m.run.id, lastOffer id m'.trace = lastOffer id m.trace) ?_ ?_ ?_ ?_ h
  · exact fun m => ⟨rfl, fun _ _ => rfl⟩
  · rintro s t u ⟨hid, hst⟩ ⟨hid', htu⟩
    exact ⟨hid'.trans hid, fun id hlt => (htu id (hid ▸ hlt)).trans (hst id hlt)⟩
  · exact fun s t hst => ⟨hst.kept.id, fun id hlt => hst.offers.elsewhere (Nat.ne_of_lt hlt)⟩
  · rintro s c d t ⟨child, state, hborn, rfl⟩ ⟨-, hbody⟩ ⟨fin, outcome, hfin, rfl⟩
    refine ⟨rfl, fun id hlt => ?_⟩
    have hlater := Nat.lt_trans hlt hborn.later
    rw [hfin.lastOffer_back s outcome id, hbody id hlater]
    exact lastOffer_spawned_ne _ _ child (Nat.ne_of_gt hlater)

/-! ## Over whole runs -/

/-- A step is taken as answered to the last call of its run, which was offered all of
the run's tools or none. -/
def Effect.TakenAsOffered (before : List Effect) : Effect → Prop
  | .took answer => answer.offered = lastOffer answer.run.id before ∧
    (answer.offered = .empty ∨ answer.offered = answer.run.profile.exposedTools)
  | _ => True

/-- Tools take effect for a step that was taken before and permits them. -/
def Effect.UsesPermitted (before : List Effect) : Effect → Prop
  | .used run answer tools => ∃ a, answer = some a ∧ a.run.id = run ∧ .took a ∈ before ∧
    ∀ tool ∈ tools, a.Permits tool
  | _ => True

/-- The offer in the frame is the one on the trace, and what was answered is on it too. -/
structure Offering (m : Machine σ) : Prop where
  offered : m.frame.offered = lastOffer m.run.id m.trace
  all : m.frame.offered = .empty ∨ m.frame.offered = m.run.profile.exposedTools
  answer : ∀ answer, m.frame.answer = some answer →
    answer.run.id = m.run.id ∧ .took answer ∈ m.trace
  taken : Throughout Effect.TakenAsOffered m.trace
  uses : Throughout Effect.UsesPermitted m.trace

/-- Effects that are none of the three. -/
theorem Throughout.append_others (trace : List Effect) {es : List Effect} (h : ∀ e ∈ es, e.isOffer = false) :
    (Throughout Effect.TakenAsOffered trace → Throughout Effect.TakenAsOffered (trace ++ es)) ∧
      (Throughout Effect.UsesPermitted trace → Throughout Effect.UsesPermitted (trace ++ es)) := by
  refine ⟨fun ht => ht.append fun e he before => ?_, fun hu => hu.append fun e he before => ?_⟩ <;>
    cases e <;> first | trivial | cases h _ he

theorem Act.offering {m m' : Machine σ} (h : Act sys m m') (hm : Offering m) : Offering m' := by
  have hid : m'.run.id = m.run.id := h.kept.id
  have htools : m'.run.profile.exposedTools = m.run.profile.exposedTools :=
    h.kept.rights.exposedTools
  cases h.offers with
  | other es trace others offered answer =>
    obtain ⟨htaken, huses⟩ := Throughout.append_others m.trace others
    refine ⟨?_, ?_, ?_, trace ▸ htaken hm.taken, trace ▸ huses hm.uses⟩
    · rw [offered, hid, trace, lastOffer_of_not_isOffer others, hm.offered]
    · rw [offered, htools]
      exact hm.all
    · intro a ha
      obtain ⟨hrun, hmem⟩ := hm.answer a (answer ▸ ha)
      exact ⟨hrun.trans hid.symm, trace ▸ List.mem_append_left _ hmem⟩
  | called state view tools limits trace offered answer all =>
    refine ⟨?_, ?_, ?_, ?_, ?_⟩
    · rw [offered, hid, trace, lastOffer_call]
    · rw [offered, htools]
      exact all
    · intro a ha
      obtain ⟨hrun, hmem⟩ := hm.answer a (answer ▸ ha)
      exact ⟨hrun.trans hid.symm, trace ▸ List.mem_append_left _ hmem⟩
    · rw [trace]
      exact hm.taken.concat trivial
    · rw [trace]
      exact hm.uses.concat trivial
  | took taken run offers trace offered htook =>
    refine ⟨?_, ?_, ?_, ?_, ?_⟩
    · rw [offered, hid, trace, lastOffer_append (by simp [Effect.offer]), hm.offered]
    · rw [offered, htools]
      exact hm.all
    · intro a ha
      cases htook.symm.trans ha
      rw [run, hid, trace]
      exact ⟨rfl, List.mem_append_right _ List.mem_cons_self⟩
    · rw [trace]
      refine hm.taken.concat ?_
      rw [Effect.TakenAsOffered, offers, run]
      exact ⟨hm.offered, hm.all⟩
    · rw [trace]
      exact hm.uses.concat trivial
  | used acted tools acting permits trace offered kept =>
    obtain ⟨hrun, hmem⟩ := hm.answer acted acting
    refine ⟨?_, ?_, ?_, ?_, ?_⟩
    · rw [offered, hid, trace, lastOffer_append (by simp [Effect.offer]), hm.offered]
    · rw [offered, htools]
      exact hm.all
    · intro a ha
      obtain ⟨hrun', hmem'⟩ := hm.answer a (kept ▸ ha)
      exact ⟨hrun'.trans hid.symm, trace ▸ List.mem_append_left _ hmem'⟩
    · rw [trace]
      exact hm.taken.concat trivial
    · rw [trace]
      exact hm.uses.concat ⟨acted, rfl, hrun, hmem, permits⟩

/-- **Every step is taken as offered and every use permitted**, in the run and in those
it nests. -/
theorem Runs.offering {m m' : Machine σ} (h : Runs sys m m') (hm : Offering m) : Offering m' := by
  refine Calls.keeps (fun _ _ => Act.offering) ?_ ?_ h hm
  · rintro m c ⟨child, state, -, rfl⟩ hm
    refine ⟨(lastOffer_spawned m.frame.ancestors m.run child).symm, .inl rfl, ?_,
      hm.taken.concat trivial, hm.uses.concat trivial⟩
    intro a ha
    cases ha
  · rintro m c d m' ⟨child, state, hborn, rfl⟩ hbody ⟨fin, outcome, hfin, rfl⟩ hm hd
    obtain ⟨es, htrace, hes⟩ := hfin.trace
    obtain ⟨htaken, huses⟩ := Throughout.append_others d.trace fun e he => (hes e he).isOffer
    have htaken' : Throughout Effect.TakenAsOffered fin.trace := htrace ▸ htaken hd.taken
    have huses' : Throughout Effect.UsesPermitted fin.trace := htrace ▸ huses hd.uses
    have hpre : m.trace <+: (fin.backIn m outcome).trace :=
      ((List.prefix_append _ _).trans (Runs.kept hbody).trace).trans (hfin.prefix_back m outcome)
    refine ⟨?_, hm.all, ?_, ?_, ?_⟩
    · -- the nested run is a later one, and the caller's offer is still its last
      obtain ⟨-, hearlier⟩ := Runs.lastOffer_earlier hbody
      change m.frame.offered = lastOffer m.run.id _
      rw [hfin.lastOffer_back m outcome, hearlier _ hborn.later, hm.offered]
      exact (lastOffer_spawned_ne _ _ child (Nat.ne_of_gt hborn.later)).symm
    · intro a ha
      obtain ⟨hrun, hmem⟩ := hm.answer a ha
      exact ⟨hrun, hpre.subset hmem⟩
    · refine Throughout.concat (Throughout.concat (Throughout.concat htaken' ?_) ?_) ?_ <;> trivial
    · refine Throughout.concat (Throughout.concat (Throughout.concat huses' ?_) ?_) ?_ <;> trivial

theorem driveInner_offering (ports : Ports σ) (m : Machine σ) (hm : Offering m) :
    Offering ((runDriveInner sys ports m.frame.locals.steps m.frame.locals.contractRetries).run
      m).2 :=
  (runDriveInner_runs ports m).offering hm

theorem offering_start (engine : Engine) (run : Run) (state : SessionState) (provenance : Provenance)
    (env : σ) (fresh steps retries : Nat) :
    Offering (.start engine run state provenance env fresh steps retries) := by
  refine ⟨rfl, .inl rfl, ?_, .nil, .nil⟩
  intro a ha
  cases ha

/-- A step taken from an answer that keeps to its offer. -/
def Effect.KeepsToOffer : Effect → Prop
  | .took answer => answer.Obeys
  | _ => True

/-- Tools take effect for a step that was taken as answered to the last model call of
its run, and that call was offered them. -/
def Effect.UsesOffered (before : List Effect) : Effect → Prop
  | .used run answer tools => ∃ a earlier later, answer = some a ∧ a.run.id = run ∧
    before = earlier ++ .took a :: later ∧
    ∀ tool ∈ tools, (lastOffer run earlier).contains tool = true
  | _ => True

/-- **Where the model keeps to the tools it was offered, no others take effect.** In
every run whose answers each keep to their own call's list, each tool that takes
effect, by a call handed to the host or by a control step, was in the list offered
to the model call it answers; and so in every run nested in it. -/
theorem offered_tools_only (sys : Outside σ) (ports : Ports σ) (engine : Engine) (run : Run)
    (state : SessionState) (provenance : Provenance) (env : σ) (fresh steps retries : Nat) :
    let trace := ((runDriveInner sys ports steps retries).run
      (.start engine run state provenance env fresh steps retries)).2.trace
    (∀ e ∈ trace, e.KeepsToOffer) → Throughout Effect.UsesOffered trace := by
  intro trace hkeeps
  let started := Machine.start engine run state provenance env fresh steps retries
  have hruns : Runs sys started ((runDriveInner sys ports steps retries).run started).2 :=
    runDriveInner_runs ports started
  obtain ⟨-, -, -, htaken, huses⟩ := hruns.offering
    (offering_start engine run state provenance env fresh steps retries)
  intro before e after hsplit
  have hpermitted := huses before e after hsplit
  cases e with
  | used id answer tools =>
    obtain ⟨a, rfl, hrun, hmem, hpermits⟩ := hpermitted
    obtain ⟨earlier, later, rfl⟩ := List.append_of_mem hmem
    have hwhole : trace = earlier ++ .took a :: (later ++ .used id (some a) tools :: after) := by
      rw [← List.cons_append, ← List.append_assoc]
      exact hsplit
    obtain ⟨hoffered, -⟩ := htaken _ _ _ hwhole
    have hobeys : a.Obeys := hkeeps (.took a) (by rw [hwhole]; simp)
    refine ⟨a, earlier, later, rfl, hrun, rfl, fun tool htool => ?_⟩
    rw [← hrun, ← hoffered]
    exact hobeys tool (hpermits tool htool)
  | _ => trivial

/-- An answer of plain words, or of calls to a call that withheld nothing. -/
def Effect.keepsPlainly : Effect → Bool
  | .took answer =>
    match answer.step with
    | .say _ => true
    | .toolCall _ => answer.offered.tools = answer.run.profile.exposedTools.tools
    | _ => false
  | _ => true

theorem Effect.keepsToOffer_of_plainly {e : Effect} (h : e.keepsPlainly = true) :
    e.KeepsToOffer := by
  cases e with
  | took answer =>
    obtain ⟨run, offered, step⟩ := answer
    cases step with
    | say text => exact Answer.obeys_say
    | toolCall calls =>
      intro tool hpermits
      have hsame : offered.tools = run.profile.exposedTools.tools := of_decide_eq_true h
      change offered.tools.contains tool = true
      rw [hsame]
      exact hpermits.2
    | _ => cases h
  | _ => trivial

set_option maxRecDepth 20000 in
theorem offered_tools_only_fetching :
    Throughout Effect.UsesOffered (Script.played (Script.fetching Script.ample)).trace := by
  have hplain : (Script.played (Script.fetching Script.ample)).trace.all Effect.keepsPlainly = true := by
    decide
  have honly := offered_tools_only Script.outside Script.ports (Script.engine 100000)
    (.root 1 1 Script.looks Script.ample .answer) (.new 1 "M") .new
    (Script.fetching Script.ample).env 2 0 0
  have hstart : Machine.start (Script.engine 100000) (.root 1 1 Script.looks Script.ample .answer)
    (.new 1 "M") .new (Script.fetching Script.ample).env 2 0 0 = Script.fetching Script.ample := rfl
  rw [hstart] at honly
  unfold Script.played at *
  exact honly fun e he => Effect.keepsToOffer_of_plainly (List.all_eq_true.mp hplain e he)

/-! ## A model that is offered nothing -/

/-- Ten turns of calls that come to nothing, and on the next, with every tool
withheld, a call of a tool the run holds. -/
def Script.gathering : Machine Script :=
  start 100000 looks ample
    { answers := List.replicate 10 (call [⟨"a", ⟨"nothing"⟩, .empty⟩]) ++
        [call [⟨"b", look, .empty⟩], say "done"]
      outcomes := [[result .agentObserved "ok"]] }

/-- A tool is used that was not offered, none being offered. -/
def Effect.strays : Effect → Bool
  | .used _ (some answer) tools => answer.offered.tools.isEmpty && !tools.isEmpty
  | _ => false

set_option maxRecDepth 20000 in
/-- The host is handed the call although the model was offered no tools at all. -/
theorem withheld_tool_used : ¬ Throughout Effect.UsesOffered (Script.played Script.gathering).trace := by
  have hstray : ∀ m, m = Script.gathering → (Script.played m).trace.any Effect.strays = true := by
    intro m hm
    -- A nudge is long, and that it is not empty shows in its first byte.
    simp only [Script.played, runDriveInner, driveInner, iterate, iterationBody, turn, modelTurn, callWith,
      sentView, Text.isEmpty_eq_decide]
    rw [hm]
    decide
  intro hall
  have hstart : Offering Script.gathering :=
    offering_start (Script.engine 100000) (.root 1 1 Script.looks Script.ample .answer) (.new 1 "M")
      .new Script.gathering.env 2 0 0
  have hoffering : Offering (Script.played Script.gathering) := by
    rw [Script.played_eq Script.gathering rfl rfl]
    exact driveInner_offering Script.ports Script.gathering hstart
  obtain ⟨e, he, hholds⟩ := List.any_eq_true.mp (hstray _ rfl)
  obtain ⟨before, after, hsplit⟩ := List.append_of_mem he
  have huses := hall before e after hsplit
  cases e with
  | used run answer tools =>
    obtain ⟨a, earlier, later, rfl, hrun, rfl, hoffered⟩ := huses
    simp only [Effect.strays, Bool.and_eq_true, Bool.not_eq_true', List.isEmpty_iff] at hholds
    obtain ⟨hwithheld, htools⟩ := hholds
    obtain ⟨heq, -⟩ := hoffering.taken earlier (.took a) (later ++ .used run (some a) tools :: after)
      (by simpa using hsplit)
    rw [hrun] at heq
    cases tools with
    | nil => cases htools
    | cons tool rest =>
      have hcontains := hoffered tool List.mem_cons_self
      rw [← heq] at hcontains
      change a.offered.tools.contains tool = true at hcontains
      rw [hwithheld] at hcontains
      cases hcontains
  | _ => cases hholds

end MarloweAgent.Loop
