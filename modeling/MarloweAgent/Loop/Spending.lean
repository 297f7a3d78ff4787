import MarloweAgent.Loop.Execution
import MarloweAgent.Loop.Privilege
import MarloweAgent.Loop.Script

/-! The budget of a run. What is charged is not checked against what is left, so a
run stays within its budget exactly when each model answer, each batch and each
nested run happens to fit. -/

namespace MarloweAgent.Loop
open Contract Library Tools Permission

variable {σ : Type} {sys : Outside σ}

/-- What remains to a run. -/
def Run.left (run : Run) : Budget := run.budget.remaining run.spent

/-- What is about to be charged fits in what is left: the tokens of an answer, prompt
and completion; the calls of a batch; and for a nested run one subagent, and another
when it has itself used some. A budget at its counter's maximum takes anything. -/
def Effect.fits : Effect → Bool
  | .modelAnswered run usage =>
    u64Max ≤ run.budget.tokens || usage.promptTokens + usage.completionTokens ≤ run.left.tokens
  | .hostCalled run items =>
    u32Max ≤ run.budget.toolCalls || items.length % 2 ^ 32 ≤ run.left.toolCalls
  | .returned parent child _ =>
    u16Max ≤ parent.budget.subagents ||
      1 ≤ parent.left.subagents && (2 ≤ parent.left.subagents || child.spent.subagents = 0)
  | _ => true

/-- A run's count just after a charge is within its budget. -/
def Effect.WithinBudget : Effect → Prop
  | .charged run => run.spent.Within run.budget
  | _ => True

theorem Effect.PlainOf.withinBudget {run : RunId} {e : Effect} (h : e.PlainOf run) :
    e.WithinBudget := by
  cases e <;> first | trivial | cases h.plain

/-- Within budget: the run in the frame, and every charge so far; and a nested run
that holds no tool has called none and nested nothing. -/
structure InBudget (m : Machine σ) : Prop where
  run : m.run.spent.Within m.run.budget
  idle : m.frame.ancestors ≠ [] → m.run.profile.exposedTools.isEmpty = true →
    m.run.spent.toolCalls = 0 ∧ m.run.spent.subagents = 0
  charges : ∀ e ∈ m.trace, e.WithinBudget

/-- Everything charged so far fitted. -/
def Fitted (m : Machine σ) : Prop := ∀ e ∈ m.trace, e.fits = true

theorem Fitted.of_prefix {m m' : Machine σ} (h : Fitted m') (hpre : m.trace <+: m'.trace) :
    Fitted m := fun e he => h e (hpre.subset he)

namespace InBudget

variable {m m' : Machine σ}

/-- A step that charges nothing. -/
theorem of_run (h : InBudget m) (spent : m'.run.spent = m.run.spent)
    (budget : m'.run.budget = m.run.budget)
    (tools : m'.run.profile.exposedTools = m.run.profile.exposedTools)
    (ancestors : m'.frame.ancestors = m.frame.ancestors)
    (trace : ∀ e ∈ m'.trace, e.WithinBudget) : InBudget m' := by
  refine ⟨?_, ?_, trace⟩
  · rw [spent, budget]
    exact h.run
  · rw [spent, tools, ancestors]
    exact h.idle

theorem of_same (h : InBudget m) (hrun : m.run.Same m'.run)
    (ancestors : m'.frame.ancestors = m.frame.ancestors)
    (trace : ∀ e ∈ m'.trace, e.WithinBudget) : InBudget m' := by
  obtain ⟨_, _, _, hrun⟩ := hrun
  refine h.of_run ?_ ?_ ?_ ancestors trace <;> rw [hrun]

/-- One more effect that is not a charge. -/
theorem note (h : InBudget m) (e : Effect) (he : e.WithinBudget) : InBudget (m.note e) :=
  ⟨h.run, h.idle, List.forall_mem_append.mpr ⟨h.charges, by simpa using he⟩⟩

/-- A charge that fits. -/
theorem charged (h : InBudget m) (amount : Budget)
    (htokens : u64Max ≤ m.run.budget.tokens ∨ amount.tokens ≤ m.run.left.tokens)
    (hcalls : u32Max ≤ m.run.budget.toolCalls ∨ amount.toolCalls ≤ m.run.left.toolCalls)
    (hagents : u16Max ≤ m.run.budget.subagents ∨ amount.subagents ≤ m.run.left.subagents)
    (hidle : m.frame.ancestors ≠ [] → m.run.profile.exposedTools.isEmpty = true →
      amount.toolCalls = 0 ∧ amount.subagents = 0) : InBudget (m.charged amount) := by
  have hwithin := h.run.add htokens hcalls hagents
  refine ⟨hwithin, fun hanc hempty => ?_,
    List.forall_mem_append.mpr ⟨h.charges, by simpa [Effect.WithinBudget] using hwithin⟩⟩
  obtain ⟨hcalls', hagents'⟩ := h.idle hanc hempty
  obtain ⟨hcalls'', hagents''⟩ := hidle hanc hempty
  change satAdd u32Max m.run.spent.toolCalls amount.toolCalls = 0 ∧
    satAdd u16Max m.run.spent.subagents amount.subagents = 0
  rw [hcalls', hagents', hcalls'', hagents'']
  exact ⟨rfl, rfl⟩

end InBudget

theorem Act.inBudget {m m' : Machine σ} (h : Act sys m m') (hfit : Fitted m') (hm : InBudget m) :
    InBudget m' := by
  cases h with
  | tell es h =>
    refine hm.of_same h.run h.ancestors ?_
    rw [h.trace]
    exact List.forall_mem_append.mpr ⟨hm.charges, fun e he => (h.plain e he).withinBudget⟩
  | push | clear | enlist => exact ⟨hm.run, hm.idle, hm.charges⟩
  | «begin» | violation | call | took | used | adjudicated | groupStart | checkpoint =>
    exact ⟨hm.run, hm.idle, List.forall_mem_append.mpr ⟨hm.charges, by simp [Effect.WithinBudget]⟩⟩
  | latch observed =>
    rw [Run.latchTrustFloor_eq]
    exact ⟨hm.run, hm.idle, hm.charges⟩
  | asked decision granted =>
    refine (hm.note (.asked m.run.id decision granted) trivial).of_run ?_ ?_ ?_ rfl ?_
    · cases granted <;> rfl
    · cases granted <;> rfl
    · cases granted with
      | false => rfl
      | true => exact (sameRights_widen _ _).exposedTools
    · exact (hm.note (.asked m.run.id decision granted) trivial).charges
  | compaction child summary p q first second fn sn h hf hs seen offered answer locals children cps state trace =>
    refine hm.of_same h.run h.ancestors ?_
    rw [trace]
    exact List.forall_mem_append.mpr ⟨hm.charges,
      forall_compactionEffects hf hs (fun e he => he.withinBudget) (fun _ _ _ => trivial) trivial⟩
  | answer usage =>
    have hfits := hfit (.modelAnswered m.run usage)
      (List.mem_append_left _ (List.mem_append_right _ List.mem_cons_self))
    simp only [Effect.fits, Bool.or_eq_true, decide_eq_true_eq] at hfits
    exact (hm.note (.modelAnswered m.run usage) trivial).charged usage.asBudget
      (hfits.imp_right satAdd_le.trans) (.inr (Nat.zero_le _)) (.inr (Nat.zero_le _))
      fun _ _ => ⟨rfl, rfl⟩
  | host items wallMs h =>
    cases items with
    | nil =>
      exact hm.charged _ (.inr (Nat.zero_le _)) (.inr (Nat.zero_le _)) (.inr (Nat.zero_le _))
        fun _ _ => ⟨rfl, rfl⟩
    | cons item rest =>
      have hfits := hfit (.hostCalled m.run (item :: rest))
        (List.mem_append_left _ (List.mem_append_right _ List.mem_cons_self))
      simp only [Effect.fits, Bool.or_eq_true, decide_eq_true_eq] at hfits
      refine (hm.note (.hostCalled m.run (item :: rest)) trivial).charged _ (.inr (Nat.zero_le _))
        hfits (.inr (Nat.zero_le _)) fun _ hempty => ?_
      -- a run that holds no tool has no call cleared
      have hsome := nesting_of_exposed (h.exposed item List.mem_cons_self)
      have hnone : nesting m.run = 0 := if_pos hempty
      omega

/-- Two or more subagents left leave one for the spawn beside what is granted. -/
theorem grant_subagents {budget spent child : Budget} {share : BudgetShare} {explicit : Option Nat}
    (h : budget.grant spent share explicit = .ok child)
    (hleft : 2 ≤ (budget.remaining spent).subagents) :
    child.subagents + 1 ≤ (budget.remaining spent).subagents := by
  unfold Budget.grant at h
  dsimp only at h
  repeat' split at h
  all_goals cases h
  dsimp only [atLeastOne]
  split <;> omega

/-- What a child that kept to its budget has spent fits in what its parent has left. -/
theorem ChildOf.fits {parent child : Run} {spent : Budget} (h : ChildOf parent child)
    (hfloor : child.trustFloor = parent.trustFloor) (hwithin : spent.Within child.budget)
    (hidle : child.profile.exposedTools.isEmpty = true → spent.toolCalls = 0 ∧ spent.subagents = 0) :
    spent.tokens ≤ parent.left.tokens ∧ spent.toolCalls ≤ parent.left.toolCalls := by
  have hn := h.narrower hfloor
  refine ⟨hwithin.tokens.trans hn.tokens, ?_⟩
  rcases hn.counted with ⟨hreader, -⟩ | ⟨-, hcalls, -⟩
  · rw [(hidle (by rw [hreader.tools]; rfl)).1]
    exact Nat.zero_le _
  · exact hwithin.toolCalls.trans hcalls

/-- And one subagent more than it has used, when there were two, or one and it used none. -/
theorem ChildOf.fits_subagents {parent child : Run} {spent : Budget} (h : ChildOf parent child)
    (hwithin : spent.Within child.budget)
    (hidle : child.profile.exposedTools.isEmpty = true → spent.toolCalls = 0 ∧ spent.subagents = 0)
    (hleft : 1 ≤ parent.left.subagents)
    (hagents : 2 ≤ parent.left.subagents ∨ spent.subagents = 0) :
    spent.subagents + 1 ≤ parent.left.subagents := by
  cases h with
  | reader hprofile hbudget =>
    have := (hidle (by rw [hprofile]; rfl)).2
    omega
  | spawned req hadmit =>
    rcases hagents with htwo | hnone
    · have hgranted := grant_subagents (admitSpawn_ok hadmit).2.1 htwo
      have := hwithin.subagents
      unfold Run.left
      omega
    · omega

/-- Coming back from a nested run charges what it spent, and one subagent. -/
theorem InBudget.back {m fin : Machine σ} {child : Run} (hm : InBudget m) (hborn : Born m child)
    (outcome : LoopOutcome) (charges : ∀ e ∈ fin.trace, e.WithinBudget)
    (hwithin : fin.run.spent.Within child.budget)
    (hidle : child.profile.exposedTools.isEmpty = true →
      fin.run.spent.toolCalls = 0 ∧ fin.run.spent.subagents = 0)
    (hfits : Effect.fits (.returned m.run fin.run outcome) = true) :
    InBudget (fin.backIn m outcome) := by
  simp only [Effect.fits, Bool.and_eq_true, Bool.or_eq_true, decide_eq_true_eq] at hfits
  obtain ⟨htokens, hcalls⟩ := hborn.how.fits hborn.floor hwithin hidle
  have hholds : m.run.profile.exposedTools.isEmpty ≠ true := by
    intro hempty
    have hsome := Nat.zero_lt_of_lt hborn.nests
    have hnone : nesting m.run = 0 := if_pos hempty
    omega
  have hagents : u16Max ≤ m.run.budget.subagents ∨
      fin.run.spent.subagents + 1 ≤ m.run.left.subagents :=
    hfits.imp_right fun h => hborn.how.fits_subagents hwithin hidle h.1 h.2
  have hback : InBudget ({ fin with frame := m.frame } : Machine σ) := ⟨hm.run, hm.idle, charges⟩
  refine ((hback.note (.returned m.run fin.run outcome) trivial).charged fin.run.spent (.inr htokens)
    (.inr hcalls) (hagents.imp_right Nat.le_of_succ_le) fun _ hempty =>
      absurd hempty hholds).charged { subagents := 1 } (.inr (Nat.zero_le _)) (.inr (Nat.zero_le _))
    (hagents.imp_right fun h => ?_) fun _ hempty => absurd hempty hholds
  change 1 ≤ m.run.budget.subagents - satAdd u16Max m.run.spent.subagents fin.run.spent.subagents
  have hsum := @satAdd_le u16Max m.run.spent.subagents fin.run.spent.subagents
  change fin.run.spent.subagents + 1 ≤ m.run.budget.subagents - m.run.spent.subagents at h
  omega

/-- A nested run starts with nothing spent. -/
theorem InBudget.entered {m : Machine σ} {child : Run} (hm : InBudget m) (hborn : Born m child)
    (state : SessionState) : InBudget (m.entered child state) := by
  have hunspent : (m.entered child state).run.spent = {} := hborn.unspent
  refine ⟨?_, fun _ _ => ?_,
    List.forall_mem_append.mpr ⟨hm.charges, by simp [Effect.WithinBudget]⟩⟩
  · rw [hunspent]
    exact ⟨Nat.zero_le _, Nat.zero_le _, Nat.zero_le _⟩
  · rw [hunspent]
    exact ⟨rfl, rfl⟩

/-- And when it has ended, its caller is within budget if what it used fits. -/
theorem InBudget.left {m done fin : Machine σ} {child : Run} {state : SessionState}
    (hm : InBudget m) (hborn : Born m child) (hbody : Runs sys (m.entered child state) done)
    (hdone : InBudget done) (hfin : Finished done fin) (outcome : LoopOutcome)
    (hfits : Effect.fits (.returned m.run fin.run outcome) = true) :
    InBudget (fin.backIn m outcome) := by
  obtain ⟨es, htrace, hes⟩ := hfin.trace
  have hkept := hbody.kept
  have hspent : fin.run.spent = done.run.spent := by
    obtain ⟨_, _, _, hrun⟩ := hfin.run
    rw [hrun]
  refine hm.back hborn outcome ?_ ?_ ?_ hfits
  · rw [htrace]
    exact List.forall_mem_append.mpr ⟨hdone.charges, fun e he => (hes e he).withinBudget⟩
  · have hwithin := hdone.run
    rw [hkept.budget] at hwithin
    rw [hspent]
    exact hwithin
  · intro hempty
    rw [hspent]
    refine hdone.idle ?_ ?_
    · rw [hkept.ancestors]
      exact List.cons_ne_nil _ _
    · rw [hkept.rights.exposedTools]
      exact hempty

theorem Runs.inBudget_of {m m' : Machine σ} (h : Runs sys m m') (hm : Fitted m → InBudget m) :
    Fitted m' → InBudget m' := by
  refine Calls.keeps (I := fun m => Fitted m → InBudget m) ?_ ?_ ?_ h hm
  · intro s t hst hs ht
    exact hst.inBudget ht (hs (ht.of_prefix hst.kept.trace))
  · rintro s c ⟨child, state, hborn, rfl⟩ hs hc
    exact (hs (hc.of_prefix (List.prefix_append _ _))).entered hborn state
  · rintro s c d t ⟨child, state, hborn, rfl⟩ hbody ⟨fin, outcome, hfin, rfl⟩ hs hd ht
    have hdone := ht.of_prefix (hfin.prefix_back s outcome)
    have hbefore := hdone.of_prefix ((List.prefix_append _ _).trans (Runs.kept hbody).trace)
    exact (hs hbefore).left hborn hbody (hd hdone) hfin outcome
      (ht _ (List.mem_append_left _ (List.mem_append_left _
        (List.mem_append_right _ List.mem_cons_self))))

/-- **The budget holds over whole runs**, as long as everything charged fits. -/
theorem Runs.inBudget {m m' : Machine σ} (h : Runs sys m m') (hfit : Fitted m')
    (hm : InBudget m) : InBudget m' :=
  h.inBudget_of (fun _ => hm) hfit

/-! ## The other direction -/

/-- Every charge so far is within budget. -/
def Charged (m : Machine σ) : Prop := ∀ e ∈ m.trace, e.WithinBudget

theorem Charged.of_prefix {m m' : Machine σ} (h : Charged m') (hpre : m.trace <+: m'.trace) :
    Charged m := fun e he => h e (hpre.subset he)

theorem Effect.PlainOf.fits {run : RunId} {e : Effect} (h : e.PlainOf run) : e.fits = true := by
  cases e <;> first | rfl | cases h.plain

/-- A sum that was capped before it was found to fit either fits as it is, or the
line is at the cap. -/
theorem fits_of_satAdd {max a b line spent : Nat} (h : satAdd max a b ≤ line - spent) :
    max ≤ line ∨ a + b ≤ line - spent := by
  unfold satAdd at h
  omega

/-- A charge that stays within budget was of something that fitted. -/
theorem Act.fitted {m m' : Machine σ} (h : Act sys m m') (hin : Charged m') (hm : InBudget m)
    (hfit : Fitted m) : Fitted m' := by
  unfold Fitted at *
  cases h with
  | tell es h =>
    rw [h.trace]
    exact List.forall_mem_append.mpr ⟨hfit, fun e he => (h.plain e he).fits⟩
  | push | clear | enlist | latch => exact hfit
  | «begin» | violation | call | took | used | adjudicated | groupStart | checkpoint | asked =>
    exact List.forall_mem_append.mpr ⟨hfit, by simp [Effect.fits]⟩
  | compaction child summary p q first second fn sn h hf hs seen offered answer locals children cps state trace =>
    rw [trace]
    exact List.forall_mem_append.mpr ⟨hfit,
      forall_compactionEffects hf hs (fun e he => he.fits) (fun _ _ _ => rfl) rfl⟩
  | answer usage =>
    have hwithin : (m.run.spent.add usage.asBudget).Within m.run.budget :=
      hin _ (List.mem_append_right _ List.mem_cons_self)
    have hroom := (Budget.satAdd_le_iff hm.run.tokens).mp hwithin.tokens
    have hfits : (Effect.modelAnswered m.run usage).fits = true := by
      simp only [Effect.fits, Bool.or_eq_true, decide_eq_true_eq]
      exact hroom.elim .inl fits_of_satAdd
    exact List.forall_mem_append.mpr
      ⟨List.forall_mem_append.mpr ⟨hfit, by simpa using hfits⟩, by simp [Effect.fits]⟩
  | host items wallMs h =>
    cases items with
    | nil => exact List.forall_mem_append.mpr ⟨hfit, by simp [Effect.fits]⟩
    | cons item rest =>
      have hwithin : (m.run.spent.add
          { toolCalls := (item :: rest).length % 2 ^ 32, wallMs }).Within m.run.budget :=
        hin _ (List.mem_append_right _ List.mem_cons_self)
      have hroom := (Budget.satAdd_le_iff hm.run.toolCalls).mp hwithin.toolCalls
      have hfits : (Effect.hostCalled m.run (item :: rest)).fits = true := by
        simp only [Effect.fits, Bool.or_eq_true, decide_eq_true_eq]
        exact hroom
      exact List.forall_mem_append.mpr
        ⟨List.forall_mem_append.mpr ⟨hfit, by simpa using hfits⟩, by simp [Effect.fits]⟩

/-- Below the cap neither of two sums is cut short. -/
theorem add_add_le_of_satAdd {max a b c line : Nat} (h : satAdd max (satAdd max a b) c ≤ line)
    (hline : line < max) : a + b + c ≤ line := by
  unfold satAdd at h
  omega

/-- What a nested run used, and the one it was, fitted if both charges stay within budget. -/
theorem returned_fits {parent child : Run} {outcome : LoopOutcome}
    (hback : ((parent.spent.add child.spent).add { subagents := 1 }).Within parent.budget) :
    Effect.fits (.returned parent child outcome) = true := by
  have hsum : satAdd u16Max (satAdd u16Max parent.spent.subagents child.spent.subagents) 1 ≤
      parent.budget.subagents := hback.subagents
  simp only [Effect.fits, Bool.and_eq_true, Bool.or_eq_true, decide_eq_true_eq]
  simp only [Run.left, Budget.remaining]
  by_cases hcap : u16Max ≤ parent.budget.subagents
  · exact .inl hcap
  · have hused := add_add_le_of_satAdd hsum (Nat.lt_of_not_le hcap)
    omega

theorem Runs.fitted_of {m m' : Machine σ} (h : Runs sys m m')
    (hm : Charged m → Fitted m ∧ InBudget m) : Charged m' → Fitted m' ∧ InBudget m' := by
  refine Calls.keeps (I := fun m => Charged m → Fitted m ∧ InBudget m) ?_ ?_ ?_ h hm
  · intro s t hst hs ht
    obtain ⟨hfit, hin⟩ := hs (ht.of_prefix hst.kept.trace)
    have hfit' := hst.fitted ht hin hfit
    exact ⟨hfit', hst.inBudget hfit' hin⟩
  · rintro s c ⟨child, state, hborn, rfl⟩ hs hc
    obtain ⟨hfit, hin⟩ := hs (hc.of_prefix (List.prefix_append _ _))
    exact ⟨List.forall_mem_append.mpr ⟨hfit, by simp [Effect.fits]⟩, hin.entered hborn state⟩
  · rintro s c d t ⟨child, state, hborn, rfl⟩ hbody ⟨fin, outcome, hfin, rfl⟩ hs hd ht
    have hdone := ht.of_prefix (hfin.prefix_back s outcome)
    have hbefore := hdone.of_prefix ((List.prefix_append _ _).trans (Runs.kept hbody).trace)
    obtain ⟨-, hin⟩ := hs hbefore
    obtain ⟨hfitd, hind⟩ := hd hdone
    have hfits : Effect.fits (.returned s.run fin.run outcome) = true :=
      returned_fits (ht _ (List.mem_append_right _ List.mem_cons_self))
    obtain ⟨es, htrace, hes⟩ := hfin.trace
    refine ⟨?_, hin.left hborn hbody hind hfin outcome hfits⟩
    change ∀ e ∈ ((fin.trace ++ [_]) ++ [_]) ++ [_], e.fits = true
    rw [htrace]
    simp only [List.forall_mem_append, List.forall_mem_singleton]
    exact ⟨⟨⟨⟨hfitd, fun e he => (hes e he).fits⟩, hfits⟩, rfl⟩, rfl⟩

/-- **The other way round**: a run whose charges all stay within budget made none that
did not fit. -/
theorem Runs.fitted {m m' : Machine σ} (h : Runs sys m m') (hin : Charged m')
    (hfit : Fitted m) (hm : InBudget m) : Fitted m' :=
  (h.fitted_of (fun _ => ⟨hfit, hm⟩) hin).1

/-! ## Whole runs -/

/-- A run stays within its budget, and so does every run nested in it, **exactly when**
everything charged fits in what was left just before. -/
theorem spent_within_budget_iff (sys : Outside σ) (ports : Ports σ) (engine : Engine) (run : Run)
    (state : SessionState) (provenance : Provenance) (env : σ) (fresh steps retries : Nat)
    (h : run.spent.Within run.budget) :
    let ended := ((runDriveInner sys ports steps retries).run
      (.start engine run state provenance env fresh steps retries)).2
    ((∀ e ∈ ended.trace, e.WithinBudget) ∧ ended.run.spent.Within ended.run.budget) ↔
      ∀ e ∈ ended.trace, e.fits = true := by
  intro ended
  let started := Machine.start engine run state provenance env fresh steps retries
  have hruns : Runs sys started ended := runDriveInner_runs ports started
  have hstarted : InBudget started := ⟨h, fun hanc => absurd rfl hanc, by simp [started, Machine.start]⟩
  constructor
  · rintro ⟨hcharged, -⟩
    exact hruns.fitted hcharged (by simp [Fitted, started, Machine.start]) hstarted
  · intro hfitted
    have hended := hruns.inBudget hfitted hstarted
    exact ⟨hended.charges, hended.run⟩

/-- A run told to make two calls at once. -/
def Script.twoAtOnce (budget : Budget) : Machine Script :=
  start 100000 looks budget
    { answers := [call [⟨"a", look, .empty⟩, ⟨"b", look, .empty⟩], say "done"] }

set_option maxRecDepth 20000 in
theorem spent_within_budget_ample :
    let ended := Script.played (Script.twoAtOnce Script.ample)
    (∀ e ∈ ended.trace, e.WithinBudget) ∧ ended.run.spent.Within ended.run.budget := by
  have hfits : (Script.played (Script.twoAtOnce Script.ample)).trace.all Effect.fits = true := by
    decide
  have hended := spent_within_budget_iff Script.outside Script.ports (Script.engine 100000)
    (.root 1 1 Script.looks Script.ample .answer) (.new 1 "M") .new
    (Script.twoAtOnce Script.ample).env 2 0 0 ⟨by decide, by decide, by decide⟩
  have hstart : Machine.start (Script.engine 100000) (.root 1 1 Script.looks Script.ample .answer)
    (.new 1 "M") .new (Script.twoAtOnce Script.ample).env 2 0 0 = Script.twoAtOnce Script.ample := rfl
  rw [hstart] at hended
  unfold Script.played at *
  exact hended.mpr (List.all_eq_true.mp hfits)

/-- The same run with one call to spend. -/
def Script.twoOfOne : Machine Script := twoAtOnce { ample with toolCalls := 1 }

/-- The model keeps to the tokens it is allowed, and the run still makes more calls
than it had. -/
theorem two_calls_of_one :
    (∀ run usage, Effect.modelAnswered run usage ∈ (Script.played Script.twoOfOne).trace →
      usage.completionTokens ≤ run.left.tokens) ∧
    ∃ run, Effect.charged run ∈ (Script.played Script.twoOfOne).trace ∧
      run.budget.toolCalls = 1 ∧ run.spent.toolCalls = 2 := by
  let honours : Effect → Bool
    | .modelAnswered run usage => usage.completionTokens ≤ run.left.tokens
    | _ => true
  let exceeds : Effect → Bool
    | .charged run => run.budget.toolCalls = 1 ∧ run.spent.toolCalls = 2
    | _ => false
  have hchecks : (Script.played Script.twoOfOne).trace.all honours = true ∧
      (Script.played Script.twoOfOne).trace.any exceeds = true := by decide
  constructor
  · intro run usage hmem
    exact of_decide_eq_true (List.all_eq_true.mp hchecks.1 _ hmem)
  · obtain ⟨e, he, hholds⟩ := List.any_eq_true.mp hchecks.2
    cases e with
    | charged run => exact ⟨run, he, of_decide_eq_true hholds⟩
    | _ => cases hholds

end MarloweAgent.Loop
